import TermIndex.Proofs.Instances
import TermIndex.Proofs.Pointwise
import TermIndex.Proofs.WeakHead

/-!
# Redexes under a lambda

A lambda is in weak head normal form whatever its body is, so the conversions
look at the body before it is reduced. The body is reduced only afterwards, when
it is encoded itself. So a lambda is not always encoded like the one with the
reduced body: `fun x => x` becomes `id`, and `fun x => (fun y => y) x` does not
(`encodeOne_lam_redex`).

This is the only difference. The two encodings agree if the standard conversions
apply to neither lambda, and they differ in all other cases, unless there was
nothing to reduce (`encodeOne_lam_eq_iff`).
-/

namespace TermIndex

namespace Conversion

variable {n : Name} {info : BinderInfo} {domain body t : Term}

theorem head_of_pointwise {op : Name} (h : pointwise? op body = some t) :
    body.head = .const op ∧ t.head = .const op := by
  obtain ⟨front, f, g, rfl, rfl⟩ := exists_pointBody h
  exact ⟨head_operation op _ _ _, head_operation op front f g⟩

/-- The standard conversions of a lambda: one that returns its variable becomes
`id`, and a pointwise sum becomes a sum of functions. -/
theorem of_convert_lam
    (h : convertFirst? standard (.lam n info domain body) = some t) :
    (body = .bvar 0 ∧ t.head = .const ⟨"id"⟩)
      ∨ (body.head = .const ⟨"HAdd.hAdd"⟩
        ∧ t.head = .const ⟨"HAdd.hAdd"⟩) := by
  obtain ⟨rule, hrule, h⟩ := List.exists_of_findSome?_eq_some h
  simp only [standard, List.mem_cons, List.not_mem_nil, or_false] at hrule
  rcases hrule with rfl | rfl | rfl | rfl
  · left
    cases body with
    | bvar i =>
        cases i with
        | zero =>
            cases h
            exact ⟨rfl, rfl⟩
        | succ i => cases h
    | _ => cases h
  · cases h
  · cases h
  · exact Or.inr (head_of_pointwise h)

end Conversion

namespace Signature.Settles

variable {sig : Signature} {policy : Policy} {fuel steps : Nat} {t u : Term}

/-- Where no step can be taken, nothing changes. -/
theorem eq_of_stop (h : sig.Settles policy fuel steps t u)
    (hstop : ∀ fuel normal, sig.step policy fuel normal t = some .stop) :
    u = t := by
  cases h with
  | stop _ => rfl
  | next h _ => cases (hstop _ _).symm.trans h

/-- A constant that is stuck at the head of the result was stuck before. -/
theorem eq_of_const (h : sig.Settles policy fuel steps t u) {n : Name}
    (ht : t.head = .const n) (hu : u.head = .const n) : u = t := by
  obtain ⟨fuel', -, hstop⟩ := h.step_result
  exact h.eq_of_stop (step_stop_of_const hu hstop ht)

end Signature.Settles

namespace Encoder

variable {enc : Encoder} {n : Name} {info : BinderInfo} {domain body : Term}
  {t u : Term} {depth fuel : Nat} {p : Pattern}

/-- Terms with one normal form are encoded in the same way. -/
theorem direct_congr (h : enc.host.reduce enc.options.policy t
      = enc.host.reduce enc.options.policy u) (fuel depth : Nat) :
    enc.direct fuel t depth = enc.direct fuel u depth := by
  cases fuel with
  | zero => rfl
  | succ fuel => simp only [direct, h]

theorem build_view_const {c : Name} (ht : t.head = .const c) :
    (enc.view t depth).build = .app (.const c) := by
  rw [view_eq_viewSpine (by rw [ht]; rfl), viewSpine, ht]

/-- With the standard conversions, a lambda is encoded as a lambda or converted
to an application of a constant. -/
theorem direct_lam (hrules : enc.rules = Conversion.standard)
    (hreduce : enc.host.reduce enc.options.policy (.lam n info domain body)
      = some (.term (.lam n info domain body)))
    (h : enc.direct (fuel + 1) (.lam n info domain body) depth = some p) :
    (Conversion.convertFirst? Conversion.standard (.lam n info domain body)
        = none
      ∧ ∃ q, enc.direct fuel body (depth + 1) = some q ∧ p = .lam q)
    ∨ Conversion.convertFirst? Conversion.standard (.lam n info domain body)
        ≠ none
      ∧ ((body = .bvar 0 ∧ ∃ as, p = .app (.const ⟨"id"⟩) as)
        ∨ (body.head = .const ⟨"HAdd.hAdd"⟩
          ∧ ∃ as, p = .app (.const ⟨"HAdd.hAdd"⟩) as)) := by
  rcases direct_eq_some_iff.mp h with ⟨hhidden, -⟩ | ⟨t', as, hr, has, rfl⟩
  · cases hreduce.symm.trans hhidden
  obtain rfl := Reduct.term.inj (Option.some.inj (hreduce.symm.trans hr))
  unfold convert at has ⊢
  rw [hrules] at has ⊢
  cases hconvert : Conversion.convertFirst? Conversion.standard
      (.lam n info domain body) with
  | none =>
      rw [hconvert] at has
      obtain ⟨q, as, hq, -, rfl⟩ := List.forall₂_cons_left_iff.mp has
      exact Or.inl ⟨rfl, q, hq, rfl⟩
  | some t =>
      refine Or.inr ⟨Option.some_ne_none t, ?_⟩
      rw [Option.getD_some]
      rcases Conversion.of_convert_lam hconvert with ⟨hid, ht⟩ | ⟨hsum, ht⟩
      · exact Or.inl ⟨hid, as, by rw [build_view_const ht]⟩
      · exact Or.inr ⟨hsum, as, by rw [build_view_const ht]⟩

/-- **Redexes under a lambda.** With the standard conversions, a lambda is
encoded like the one whose body is reduced if and only if there was nothing to
reduce, or neither lambda is converted. -/
theorem encodeOne_lam_eq_iff (hpolicy : enc.options.policy = .all)
    (hrules : enc.rules = Conversion.standard) {sig : Signature}
    {irrelevant : Term → Nat → Term → Bool}
    (hhost : enc.host = .structural fuel sig irrelevant) {body' : Term}
    (hbody : sig.Settles .all fuel maxSteps body body') {p p' : Pattern}
    (hp : enc.encodeOne (.lam n info domain body) = some p)
    (hp' : enc.encodeOne (.lam n info domain body') = some p') :
    p = p' ↔ body' = body
      ∨ (Conversion.convertFirst? Conversion.standard
          (.lam n info domain body) = none
        ∧ Conversion.convertFirst? Conversion.standard
          (.lam n info domain body') = none) := by
  have hreduce : ∀ t, enc.host.reduce enc.options.policy t
      = sig.reduce .all fuel maxSteps t := by
    rw [hhost, hpolicy]
    exact fun _ => rfl
  obtain ⟨fuel', hlt, -⟩ := hbody.step_result
  have hlam : ∀ b, enc.host.reduce enc.options.policy (.lam n info domain b)
      = some (.term (.lam n info domain b)) := fun b =>
    (hreduce _).trans
      (Signature.reduce_of_stop (Signature.step_lam n info domain b) hlt _)
  obtain ⟨rest, rfl⟩ := Nat.exists_eq_add_one_of_ne_zero
    (Nat.ne_zero_of_lt hlt)
  have hfuel : enc.host.fuel = rest + 1 := by
    rw [hhost]
    rfl
  rw [encodeOne_eq, hfuel] at hp hp'
  have hcases := direct_lam hrules (hlam body) hp
  have hcases' := direct_lam hrules (hlam body') hp'
  constructor
  · rintro rfl
    rcases hcases with ⟨hnone, q, -, rfl⟩ | ⟨-, ⟨rfl, -⟩ | ⟨hsum, as, rfl⟩⟩
    · rcases hcases' with ⟨hnone', -⟩ | ⟨-, ⟨-, as, has⟩ | ⟨-, as, has⟩⟩
      · exact Or.inr ⟨hnone, hnone'⟩
      · cases has
      · cases has
    · exact Or.inl (hbody.eq_of_stop fun _ _ => rfl)
    · -- The other lambda can only be a sum as well.
      rcases hcases' with ⟨-, q, -, hq⟩ | ⟨-, ⟨-, as', has⟩ | ⟨hsum', -⟩⟩
      · cases hq
      · exact absurd (Pattern.app.inj has).1 (by decide)
      · exact Or.inl (hbody.eq_of_const hsum hsum')
  · rintro (rfl | ⟨hnone, hnone'⟩)
    · exact Option.some.inj (hp.symm.trans hp')
    · have hsame : enc.direct rest body 1 = enc.direct rest body' 1 := by
        refine direct_congr ?_ rest 1
        rw [hreduce, hreduce, hbody.reduce, hbody.reduce_result]
      obtain ⟨-, q, hq, rfl⟩ := hcases.resolve_right fun h => h.1 hnone
      obtain ⟨-, q', hq', rfl⟩ := hcases'.resolve_right fun h => h.1 hnone'
      rw [Option.some.inj (hq.symm.trans (hsame.trans hq'))]

/-- `fun x => (fun y => g y) x` is encoded like `fun x => g x`. -/
theorem encodeOne_lam_eq_beta :
    ∃ (enc : Encoder) (body body' : Term) (p : Pattern),
      enc = ⟨.standard, Conversion.standard,
        .structural 9 .empty ParamTable.empty.irrelevant, .store⟩
      ∧ body = .app (.lam ⟨"y"⟩ .default (.sort 1)
        (.app (.const ⟨"g"⟩) (.bvar 0))) (.bvar 0)
      ∧ body' = .app (.const ⟨"g"⟩) (.bvar 0)
      ∧ Signature.empty.Settles .all 9 maxSteps body body'
      ∧ enc.encodeOne (.lam ⟨"x"⟩ .default (.sort 1) body) = some p
      ∧ enc.encodeOne (.lam ⟨"x"⟩ .default (.sort 1) body') = some p := by
  let enc : Encoder := ⟨.standard, Conversion.standard,
    .structural 9 .empty ParamTable.empty.irrelevant, .store⟩
  let body : Term := .app (.lam ⟨"y"⟩ .default (.sort 1)
    (.app (.const ⟨"g"⟩) (.bvar 0))) (.bvar 0)
  let body' : Term := .app (.const ⟨"g"⟩) (.bvar 0)
  have hbody : Signature.empty.Settles .all 9 maxSteps body body' :=
    .next rfl (.stop rfl)
  obtain ⟨p, hp⟩ : ∃ p,
      enc.encodeOne (.lam ⟨"x"⟩ .default (.sort 1) body) = some p := ⟨_, rfl⟩
  obtain ⟨p', hp'⟩ : ∃ p',
      enc.encodeOne (.lam ⟨"x"⟩ .default (.sort 1) body') = some p' := ⟨_, rfl⟩
  obtain rfl := (encodeOne_lam_eq_iff rfl rfl rfl hbody hp hp').mpr
    (Or.inr ⟨rfl, rfl⟩)
  exact ⟨enc, body, body', p, rfl, rfl, rfl, hbody, hp, hp'⟩

/-- The body of `fun x => (fun y => y) x` reduces to `x`, but only `fun x => x`
becomes `id`. -/
theorem encodeOne_lam_redex :
    ∃ (enc : Encoder) (body body' : Term) (p p' : Pattern),
      enc = ⟨.standard, Conversion.standard,
        .structural 9 .empty ParamTable.empty.irrelevant, .query true⟩
      ∧ body = .app (.lam ⟨"y"⟩ .default (.const ⟨"Nat"⟩) (.bvar 0)) (.bvar 0)
      ∧ body' = .bvar 0
      ∧ Signature.empty.Settles .all 9 maxSteps body body'
      ∧ enc.encodeOne (.lam ⟨"x"⟩ .default (.const ⟨"Nat"⟩) body) = some p
      ∧ enc.encodeOne (.lam ⟨"x"⟩ .default (.const ⟨"Nat"⟩) body') = some p'
      ∧ p = .lam (.app (.bvar 0) []) ∧ p' = .app (.const ⟨"id"⟩) []
      ∧ p ≠ p' := by
  refine ⟨_, _, _, _, _, rfl, rfl, rfl, .next rfl (.stop rfl), rfl, rfl, rfl,
    rfl, ?_⟩
  intro heq
  cases heq

end Encoder

end TermIndex
