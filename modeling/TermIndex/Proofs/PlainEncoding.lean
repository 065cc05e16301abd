import TermIndex.Proofs.Alignment
import TermIndex.Proofs.Substitution

/-!
# Encoding without reduction

With the empty policy and no conversions, a term is encoded as it stands, unless
a hidden constant heads it (`Plain`). What is encoded below a node is then part
of the term (`Below`), so that encoding ends when the fuel covers its size.

Two facts make the encoding of a closed term one and the same everywhere: more
fuel changes nothing (`direct_mono`), nor do more binders around it
(`direct_shift`).
-/

namespace TermIndex

/-- One of these constants heads the term. -/
def Term.headedBy (hides : Name → Bool) (t : Term) : Bool :=
  match t.head with
  | .const n => hides n
  | _ => false

/-! ## What is encoded below a node -/

/-- A term that stands directly below a node, with the binders around both. -/
inductive Below : Term → Nat → Term → Nat → Prop
  | arg {t a : Term} {depth : Nat} (h : a ∈ t.args) : Below t depth a depth
  | value {t value : Term} {s : Name} {i depth : Nat}
      (h : t.head = .proj s i value) : Below t depth value depth
  | lam {n : Name} {info : BinderInfo} {domain body : Term} {depth : Nat} :
      Below (.lam n info domain body) depth body (depth + 1)
  | domain {n : Name} {info : BinderInfo} {domain body : Term} {depth : Nat} :
      Below (.pi n info domain body) depth domain depth
  | body {n : Name} {info : BinderInfo} {domain body : Term} {depth : Nat} :
      Below (.pi n info domain body) depth body (depth + 1)

namespace Below

variable {t t' : Term} {depth d : Nat}

theorem size (h : Below t depth t' d) : t'.size < t.size := by
  cases h with
  | arg h => exact t.size_spine.2 t' h
  | value h =>
      have hle := t.size_spine.1
      rw [h, Term.size] at hle
      omega
  | lam | domain | body =>
      rw [Term.size]
      omega

theorem mvars (h : Below t depth t' d) : t'.mvars ⊆ t.mvars := by
  have hspine := Term.of_spine (Q := fun u => u.mvars ⊆ t.mvars)
    (fun _ _ h => List.append_subset.mp h) (List.Subset.refl _)
  cases h with
  | arg h => exact hspine.2 t' h
  | value h =>
      rw [h] at hspine
      exact hspine.1
  | lam | body => exact List.subset_append_right _ _
  | domain => exact List.subset_append_left _ _

theorem looseRange (h : Below t depth t' d) (ht : t.looseRange ≤ depth) :
    t'.looseRange ≤ d := by
  have hspine := Term.of_spine (Q := fun u => u.looseRange ≤ depth)
    (fun _ _ h => max_le_iff.mp h) ht
  cases h with
  | arg h => exact hspine.2 t' h
  | value h =>
      rw [h] at hspine
      exact hspine.1
  | lam | body | domain =>
      rw [Term.looseRange] at ht
      omega

end Below

namespace Encoder

variable {enc : Encoder} {t t' : Term} {depth d : Nat}

theorem below_of_mem_viewSpine
    (h : some (t', d) ∈ (enc.viewSpine t depth).parts) :
    Below t depth t' d := by
  have harg : ∀ {head : Term}, some (t', d) ∈ enc.argParts head t.args depth →
      Below t depth t' d := fun h => by
    obtain ⟨hmem, rfl⟩ := mem_argParts h
    exact .arg hmem
  unfold viewSpine at h
  cases hhead : t.head with
  | mvar m =>
      rw [hhead] at h
      cases h
  | bvar i =>
      rw [hhead] at h
      simp only at h
      split at h
      · cases h
      · exact harg h
  | proj s i value =>
      rw [hhead] at h
      rcases List.mem_cons.mp h with heq | h
      · cases heq
        exact .value hhead
      · exact harg h
  | _ =>
      rw [hhead] at h
      exact harg h

theorem below_of_mem_parts (h : some (t', d) ∈ (enc.view t depth).parts) :
    Below t depth t' d := by
  cases t with
  | lit l | sort l | letE n ty v b => cases h
  | lam n info domain body =>
      cases List.mem_singleton.mp h
      exact .lam
  | pi n info domain body =>
      rcases List.mem_cons.mp h with heq | h
      · split at heq
        · cases heq
          exact .domain
        · cases heq
      · cases List.mem_singleton.mp h
        exact .body
  | _ => exact below_of_mem_viewSpine h

/-! ## More fuel -/

/-- Fuel that suffices may be exceeded. -/
theorem direct_mono {fuel fuel' : Nat} (hle : fuel ≤ fuel') {p : Pattern}
    (h : enc.direct fuel t depth = some p) :
    enc.direct fuel' t depth = some p := by
  induction fuel generalizing fuel' t depth p with
  | zero => cases h
  | succ fuel ih =>
      obtain ⟨fuel', rfl⟩ := Nat.exists_eq_add_one_of_ne_zero
        (Nat.ne_zero_of_lt hle)
      rw [direct_eq_some_iff] at h ⊢
      refine h.imp_right fun ⟨t', as, hr, has, hp⟩ => ⟨t', as, hr, ?_, hp⟩
      refine List.Forall₂.imp ?_ has
      rintro (_ | ⟨t, d⟩) a ha
      · exact ha
      · exact ih (Nat.le_of_succ_le_succ hle) ha

/-- Encoding ends if the fuel covers a measure that reduction and conversions do
not increase, and that is smaller for what is encoded below a node and for what a
lambda is contracted to. -/
theorem encode_finishes {μ : Term → Nat} (hpos : ∀ t, 0 < μ t)
    (hbelow : ∀ {t depth t' d}, Below t depth t' d → μ t' < μ t)
    (heta : ∀ {t u}, t.etaContract? = some u → μ u < μ t) {bound : Nat}
    (hreduce : ∀ t, μ t ≤ bound →
      ∃ r, enc.host.reduce enc.options.policy t = some r
        ∧ ∀ u, r = .term u → μ (enc.convert u) ≤ μ t)
    {fuel : Nat} (hbound : fuel ≤ bound) (hfuel : μ t ≤ fuel) (depth : Nat)
    (alternates : Bool) :
    ∃ ps, enc.encode fuel t depth alternates = some ps := by
  induction fuel generalizing t depth with
  | zero => exact absurd (hpos t) (by omega)
  | succ fuel ih =>
      obtain ⟨r, hr, hle⟩ := hreduce t (by omega)
      simp only [encode, hr]
      cases r with
      | hidden => exact ⟨[.hidden], rfl⟩
      | term u =>
          have hsmaller : ∀ t' : Term, μ t' < μ (enc.convert u) → μ t' ≤ fuel :=
            fun t' hlt => by
              have hu := hle u rfl
              omega
          obtain ⟨cs, hcs⟩ : ∃ cs, contracted (enc.encode fuel)
              (enc.convert u) depth alternates = some cs := by
            unfold contracted
            split
            · next hcontract =>
                exact ih (by omega) (hsmaller _ (heta hcontract)) depth
            · exact ⟨[], rfl⟩
          refine exists_encodeShape hcs ?_
          rintro (_ | ⟨t', d⟩) hmem
          · exact ⟨[.star none], rfl⟩
          · exact ih (by omega) (hsmaller _ (hbelow (below_of_mem_parts hmem))) d

/-! ## Plain encoders -/

/-- Terms are encoded as they stand, if none of these constants heads them. -/
structure Plain (enc : Encoder) (hides : Name → Bool) : Prop where
  rules : enc.rules = []
  reduce : ∀ t, enc.host.reduce enc.options.policy t
    = some (if t.headedBy hides then .hidden else .term t)

variable {hides : Name → Bool}

theorem Plain.convert (h : enc.Plain hides) (t : Term) : enc.convert t = t := by
  rw [Encoder.convert, h.rules]
  rfl

theorem Plain.direct_eq_some_iff (h : enc.Plain hides) {fuel : Nat}
    {p : Pattern} :
    enc.direct (fuel + 1) t depth = some p ↔
      (t.headedBy hides = true ∧ p = .hidden)
      ∨ (t.headedBy hides = false
        ∧ ∃ as, enc.Parts fuel (enc.view t depth) as
          ∧ p = (enc.view t depth).build as) := by
  rw [Encoder.direct_eq_some_iff, h.reduce]
  cases t.headedBy hides with
  | true => simp
  | false => simp [h.convert]

/-- Only metavariables are encoded as wildcards. -/
theorem Plain.isStar_direct (h : enc.Plain hides) (ht : ∀ m, t.head ≠ .mvar m)
    {fuel : Nat} {p : Pattern} (hp : enc.direct fuel t depth = some p) :
    p.isStar = false := by
  cases fuel with
  | zero => cases hp
  | succ fuel =>
      rcases h.direct_eq_some_iff.mp hp with ⟨-, rfl⟩ | ⟨-, as, has, rfl⟩
      · rfl
      · exact isStar_build ht has.length_eq.symm

/-- Fuel for the size of a term suffices. -/
theorem Plain.encode_finishes (h : enc.Plain hides) {fuel : Nat}
    (hfuel : t.size ≤ fuel) (depth : Nat) (alternates : Bool) :
    ∃ ps, enc.encode fuel t depth alternates = some ps := by
  refine Encoder.encode_finishes Term.size_pos Below.size Term.size_etaContract
    (fun t _ => ⟨_, h.reduce t, fun u hu => ?_⟩) (Nat.le_refl fuel) hfuel depth
    alternates
  rw [h.convert]
  split at hu <;> cases hu
  exact Nat.le_refl _

/-! ## More binders -/

theorem argParts_shift (enc : Encoder) (head : Term) (args : List Term)
    (depth k : Nat) :
    enc.argParts head args (depth + k)
      = (enc.argParts head args depth).map
          (Option.map (Prod.map id (· + k))) := by
  simp only [argParts, List.map_map]
  refine List.map_congr_left fun arg _ => ?_
  simp only [Function.comp_apply]
  split <;> rfl

theorem viewSpine_shift (enc : Encoder) (ht : t.looseRange ≤ depth) (k : Nat) :
    enc.viewSpine t (depth + k)
      = ⟨(enc.viewSpine t depth).parts.map
          (Option.map (Prod.map id (· + k))),
        (enc.viewSpine t depth).build⟩ := by
  obtain ⟨hhead, -⟩ := Term.of_spine (Q := fun u => u.looseRange ≤ depth)
    (fun _ _ h => max_le_iff.mp h) ht
  unfold viewSpine
  simp only [argParts_shift]
  cases h : t.head with
  | bvar i =>
      rw [h, Term.looseRange] at hhead
      simp only [if_neg (show ¬ depth ≤ i by omega),
        if_neg (show ¬ depth + k ≤ i by omega)]
  | _ => rfl

/-- Binders that a term does not reach change only the depth of its parts. -/
theorem view_shift (enc : Encoder) (ht : t.looseRange ≤ depth) (k : Nat) :
    enc.view t (depth + k)
      = ⟨(enc.view t depth).parts.map (Option.map (Prod.map id (· + k))),
        (enc.view t depth).build⟩ := by
  cases t with
  | lit l | sort l | letE n ty v b => rfl
  | lam n info domain body =>
      simp [view, Nat.add_right_comm]
  | pi n info domain body =>
      simp only [view, Nat.add_right_comm depth k]
      cases enc.options.indexDomains <;> rfl
  | _ => exact viewSpine_shift enc ht k

/-- A closed term is encoded in the same way under any binders. -/
theorem Plain.direct_shift (h : enc.Plain hides) {fuel : Nat} {p : Pattern}
    (ht : t.looseRange ≤ depth) (hp : enc.direct fuel t depth = some p)
    (k : Nat) : enc.direct fuel t (depth + k) = some p := by
  induction fuel generalizing t depth p with
  | zero => cases hp
  | succ fuel ih =>
      rw [h.direct_eq_some_iff] at hp ⊢
      refine hp.imp_right fun ⟨hhead, as, has, hp⟩ => ⟨hhead, as, ?_, ?_⟩
      · rw [view_shift enc ht, Parts, List.forall₂_map_left_iff]
        refine List.Forall₂.imp ?_
          ((List.forall₂_and_left _ _).mpr ⟨fun x hx => hx, has⟩)
        rintro (_ | ⟨t', d⟩) a ⟨hmem, ha⟩
        · exact ha
        · exact ih ((below_of_mem_parts hmem).looseRange ht) ha
      · rw [view_shift enc ht, hp]

end Encoder

end TermIndex
