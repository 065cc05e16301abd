import TermIndex.Proofs.Variants

/-!
# Encodings are closed

A bound variable of a pattern counts the binders around it in the pattern:
lambdas, and the function types in whose body it stands. `Pattern.Occurs c n p`
says that `c` occurs in `p` under `n` of these. A pattern is `Scoped depth` if
every bound variable finds its binder, in the pattern or among `depth` more
around it.

The depth goes along with each part of a view, and whatever is scoped at the
depths of the parts builds a node that is scoped at its own (`scoped_build`).
What stands for the part does not matter: reduction, conversion and contraction
exchange the term and keep the depth. So all variants are scoped
(`scoped_of_variants`), whatever the host does.
-/

namespace TermIndex

namespace Pattern

/-- The first pattern occurs in the second, under this many of its binders. -/
inductive Occurs (c : Pattern) : Nat → Pattern → Prop
  | here : Occurs c 0 c
  | argument {n : Nat} {head : Head} {args : List Pattern} {a : Pattern}
      (ha : a ∈ args) (h : Occurs c n a) : Occurs c n (.app head args)
  | lam {n : Nat} {body : Pattern} (h : Occurs c n body) :
      Occurs c (n + 1) (.lam body)
  | domain {n : Nat} {domain body : Pattern} (h : Occurs c n domain) :
      Occurs c n (.pi domain body)
  | body {n : Nat} {domain body : Pattern} (h : Occurs c n body) :
      Occurs c (n + 1) (.pi domain body)
  | value {n i : Nat} {s : Name} {value : Pattern} {args : List Pattern}
      (h : Occurs c n value) : Occurs c n (.proj s i value args)
  | further {n i : Nat} {s : Name} {value a : Pattern} {args : List Pattern}
      (ha : a ∈ args) (h : Occurs c n a) : Occurs c n (.proj s i value args)

/-- Bound variables stand under enough binders, with `depth` around the
pattern. -/
def Scoped (depth : Nat) (p : Pattern) : Prop :=
  ∀ n i args, Occurs (.app (.bvar i) args) n p → i < depth + n

variable {depth : Nat} {p domain body value : Pattern} {args : List Pattern}

theorem scoped_of_leaf (hleaf : p.children = [])
    (happ : ∀ head args, p ≠ .app head args) : Scoped depth p := by
  intro n i args h
  cases h with
  | here => exact absurd rfl (happ _ _)
  | argument => exact absurd rfl (happ _ _)
  | lam | domain | body | value | further => cases hleaf

theorem scoped_hidden : Scoped depth .hidden := scoped_of_leaf rfl nofun

theorem scoped_app {head : Head} (hhead : ∀ i, head = .bvar i → i < depth)
    (hargs : ∀ a ∈ args, Scoped depth a) : Scoped depth (.app head args) := by
  intro n i args h
  cases h with
  | here => exact hhead i rfl
  | argument ha h => exact hargs _ ha n i args h

theorem scoped_lam (hbody : Scoped (depth + 1) body) :
    Scoped depth (.lam body) := by
  intro n i args h
  cases h with
  | lam h =>
      have hlt := hbody _ i args h
      omega

theorem scoped_pi (hdomain : Scoped depth domain)
    (hbody : Scoped (depth + 1) body) : Scoped depth (.pi domain body) := by
  intro n i args h
  cases h with
  | domain h => exact hdomain n i args h
  | body h =>
      have hlt := hbody _ i args h
      omega

theorem scoped_proj {s : Name} {field : Nat} (hvalue : Scoped depth value)
    (hargs : ∀ a ∈ args, Scoped depth a) :
    Scoped depth (.proj s field value args) := by
  intro n i bs h
  cases h with
  | value h => exact hvalue n i bs h
  | further ha h => exact hargs _ ha n i bs h

end Pattern

/-! ## Nodes -/

/-- The pattern is scoped at the depth of the part. A part that is left out is a
wildcard. -/
def View.ScopedPart : Option (Term × Nat) → Pattern → Prop
  | none, p => p = .star none
  | some (_, depth), p => p.Scoped depth

namespace Encoder

open Pattern (scoped_of_leaf scoped_hidden scoped_app scoped_lam scoped_pi
  scoped_proj)
open View (ScopedPart)

variable {enc : Encoder} {t : Term} {depth fuel : Nat} {alternates : Bool}
  {as ps : List Pattern}

theorem scoped_wildcard (m : Option MVar) :
    (Pattern.star m).Scoped depth :=
  scoped_of_leaf rfl nofun

theorem scoped_encodeMVar (m : MVar) (applied : Bool) :
    (enc.encodeMVar m applied).Scoped depth := by
  unfold encodeMVar
  split <;> exact scoped_of_leaf rfl nofun

theorem scoped_argParts {head : Term} {args : List Term}
    (h : List.Forall₂ ScopedPart (enc.argParts head args depth) as) :
    ∀ a ∈ as, a.Scoped depth := by
  refine forall_mem_right h ?_
  rintro (_ | ⟨t, d⟩) hmem a ha
  · obtain rfl := ha
    exact scoped_wildcard none
  · obtain rfl := (mem_argParts hmem).2
    exact ha

theorem scoped_buildSpine
    (h : List.Forall₂ ScopedPart (enc.viewSpine t depth).parts as) :
    ((enc.viewSpine t depth).build as).Scoped depth := by
  unfold viewSpine at h ⊢
  cases hhead : t.head with
  | mvar m => exact scoped_encodeMVar m _
  | const n | fvar x =>
      rw [hhead] at h
      exact scoped_app nofun (scoped_argParts h)
  | bvar i =>
      rw [hhead] at h
      simp only at h ⊢
      split
      · exact scoped_hidden
      · next hdepth =>
          rw [if_neg hdepth] at h
          refine scoped_app (fun j hj => ?_) (scoped_argParts h)
          obtain rfl := Head.bvar.inj hj
          omega
  | proj s i value =>
      rw [hhead] at h
      obtain ⟨a, as, ha, has, rfl⟩ := List.forall₂_cons_left_iff.mp h
      exact scoped_proj ha (scoped_argParts has)
  | _ => exact scoped_hidden

/-- A node is scoped if its parts are. -/
theorem scoped_build
    (h : List.Forall₂ ScopedPart (enc.view t depth).parts as) :
    ((enc.view t depth).build as).Scoped depth := by
  cases t with
  | lit l | sort l | letE n ty v b => exact scoped_of_leaf rfl nofun
  | lam n info domain body =>
      obtain ⟨a, rest, ha, -, rfl⟩ := List.forall₂_cons_left_iff.mp h
      exact scoped_lam ha
  | pi n info domain body =>
      obtain ⟨a, rest, ha, hrest, rfl⟩ := List.forall₂_cons_left_iff.mp h
      obtain ⟨b, rest, hb, -, rfl⟩ := List.forall₂_cons_left_iff.mp hrest
      refine scoped_pi ?_ hb
      split at ha
      · exact ha
      · obtain rfl := ha
        exact scoped_wildcard none
  | _ => exact scoped_buildSpine h

/-! ## Encodings -/

/-- The contracted form is encoded at the depth of the lambda. -/
theorem scoped_of_contracted {recur : Recur} {cs : List Pattern}
    (hrecur : ∀ t ps, recur t depth alternates = some ps →
      ∀ p ∈ ps, p.Scoped depth)
    (h : contracted recur t depth alternates = some cs) :
    ∀ p ∈ cs, p.Scoped depth := by
  unfold contracted at h
  split at h
  · exact hrecur _ cs h
  · obtain rfl := Option.some.inj h
    exact List.forall_mem_nil _

theorem scoped_of_variants
    (h : enc.variants fuel t depth alternates = some ps) :
    ∀ p ∈ ps, p.Scoped depth := by
  induction fuel generalizing t depth ps with
  | zero => cases h
  | succ fuel ih =>
      rcases variants_eq_some_iff.mp h with
        ⟨-, rfl⟩ | ⟨t', lists, cs, -, hlists, hcs, rfl⟩
      · exact List.forall_mem_singleton.mpr scoped_hidden
      · intro p hp
        rcases mem_results.mp hp with ⟨as, has, rfl⟩ | hp
        · -- Each part is chosen from the encodings at its own depth.
          have hchosen := forall₂_join (mapM_eq_some_iff.mp hlists).flip
            (mem_products.mp has).flip
          refine scoped_build (hchosen.imp ?_)
          rintro (_ | ⟨t, d⟩) a ⟨l, hl, ha⟩
          · obtain rfl := Option.some.inj hl
            exact List.mem_singleton.mp ha
          · exact ih hl a ha
        · exact scoped_of_contracted (fun t ps => ih) hcs p hp

/-- **Encodings are closed.** Whatever the term and the host, a bound variable
`#i` in an encoding stands under more than `i` binders of the encoding. -/
theorem encodeAll_closed (h : enc.encodeAll t = some ps) :
    ∀ p ∈ ps, ∀ i args n,
      Pattern.Occurs (.app (.bvar i) args) n p → i < n := by
  intro p hp i args n hoccurs
  rw [encodeAll_eq] at h
  obtain ⟨all, hall, rfl⟩ := Option.map_eq_some_iff.mp h
  have hlt := scoped_of_variants hall p (List.mem_of_mem_take hp) n i args
    hoccurs
  rwa [Nat.zero_add] at hlt

/-- `∀ z : A #0, P (fun x y => f #3 z x y)` has a loose variable in the domain
and under three binders. The lambdas contract one after the other. -/
theorem encodeAll_closed_contracted :
    ∃ (enc : Encoder) (t : Term) (ps : List Pattern),
      enc = ⟨.standard, Conversion.standard, .ofTables 9 .empty .empty, .store⟩
      ∧ t = .pi ⟨"z"⟩ .default (.app (.const ⟨"A"⟩) (.bvar 0))
        (.app (.const ⟨"P"⟩) (.lam ⟨"x"⟩ .default (.sort 1)
          (.lam ⟨"y"⟩ .default (.sort 1) (Term.mkApp (.const ⟨"f"⟩)
            [.bvar 3, .bvar 2, .bvar 1, .bvar 0]))))
      ∧ ps = [
        .pi (.app (.const ⟨"A"⟩) [.hidden]) (.app (.const ⟨"P"⟩)
          [.lam (.lam (.app (.const ⟨"f"⟩) [.hidden, .app (.bvar 2) [],
            .app (.bvar 1) [], .app (.bvar 0) []]))]),
        .pi (.app (.const ⟨"A"⟩) [.hidden]) (.app (.const ⟨"P"⟩)
          [.lam (.app (.const ⟨"f"⟩) [.hidden, .app (.bvar 1) [],
            .app (.bvar 0) []])]),
        .pi (.app (.const ⟨"A"⟩) [.hidden]) (.app (.const ⟨"P"⟩)
          [.app (.const ⟨"f"⟩) [.hidden, .app (.bvar 0) []]])]
      ∧ enc.encodeAll t = some ps
      ∧ ∀ p ∈ ps, ∀ i args n,
        Pattern.Occurs (.app (.bvar i) args) n p → i < n := by
  refine ⟨_, _, _, rfl, rfl, rfl, ?encodes, encodeAll_closed ?encodes⟩
  rfl

end Encoder

end TermIndex
