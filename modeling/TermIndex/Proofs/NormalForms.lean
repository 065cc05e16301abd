import TermIndex.Proofs.WeakHead

/-!
# Weak head normal forms

Where a reduction stops, no step can be taken at the head (`Stuck`). With all
steps allowed this leaves a single kind of redex there: a `let` that is applied
to arguments. It is the only one that is not looked for below the arguments, as
`step` asks whether the term itself is a `let` and takes all other heads from
the spine. So a reduction that stops in time has reached a weak head normal form
unless it has met such a `let` (`settles_headRedex_iff`, `settles_let`).
-/

namespace TermIndex

theorem Term.head_eq_self {t : Term} (ht : t.numArgs = 0) : t.head = t := by
  cases t with
  | app f a => cases ht
  | _ => rfl

namespace Signature

/-- A redex at the head of a term, which may have any number of arguments. -/
inductive HeadRedex (sig : Signature) (t : Term) : Prop
  | zeta {n : Name} {type value body : Term}
      (ht : t.head = .letE n type value body)
  | beta {n : Name} {info : BinderInfo} {domain body : Term}
      (ht : t.head = .lam n info domain body) (hargs : 0 < t.numArgs)
  | delta {n : Name} {value : Term} (ht : t.head = .const n)
      (hvalue : sig.definition? n = some value)
  /-- The value reduces to an application of the constructor that has the
  field. -/
  | proj {s : Name} {i fuel : Nat} {value field : Term} {info : StructInfo}
      {r : Reduct} (ht : t.head = .proj s i value)
      (hinfo : sig.struct? s = some info)
      (hr : sig.whnf fuel .all value = some r)
      (hfield : field? info i r = some field)

variable {sig : Signature} {policy : Policy} {fuel fuel' steps : Nat}
  {normal : Term → Option Reduct} {t u : Term}

/-- Fuel decides only whether there is an answer. -/
theorem reduce_unique {r r' : Reduct}
    (h : sig.reduce policy fuel steps t = some r)
    (h' : sig.reduce policy fuel' steps t = some r') : r = r' := by
  have hmax := reduce_mono (Nat.le_max_left fuel fuel') h
  have hmax' := reduce_mono (Nat.le_max_right fuel fuel') h'
  exact Option.some.inj (hmax.symm.trans hmax')

/-- Of all redexes, only a `let` under arguments is stuck. -/
theorem Stuck.headRedex_iff
    (h : sig.Stuck .all (sig.reduce .all fuel maxSteps) t) :
    sig.HeadRedex t ↔ 0 < t.numArgs
      ∧ ∃ n type value body, t.head = .letE n type value body := by
  constructor
  · rintro (⟨ht⟩ | ⟨ht, hargs⟩ | ⟨ht, hvalue⟩ | ⟨ht, hinfo, hr, hfield⟩)
    · refine ⟨Nat.pos_of_ne_zero fun hargs => ?_, _, _, _, _, ht⟩
      rw [Term.head_eq_self hargs] at ht
      cases h.zeta _ _ _ _ ht
    · rw [h.beta _ _ _ _ ht rfl] at hargs
      cases hargs
    · rw [(h.delta _ ht).2 rfl] at hvalue
      cases hvalue
    · obtain ⟨r, hr', hnone⟩ := h.proj _ _ _ _ ht rfl hinfo
      rw [reduce_unique hr hr', hnone] at hfield
      cases hfield
  · rintro ⟨-, n, type, value, body, ht⟩
    exact .zeta ht

/-- **Weak head normal forms.** A reduction that stops before its steps run out
ends with a term that has no redex at the head, unless a `let` is applied to
arguments there. -/
theorem settles_headRedex_iff (h : sig.Settles .all fuel maxSteps t u) :
    sig.whnf fuel .all t = some (.term u)
      ∧ (sig.HeadRedex u ↔ 0 < u.numArgs
        ∧ ∃ n type value body, u.head = .letE n type value body) := by
  obtain ⟨fuel', -, hstop⟩ := h.step_result
  exact ⟨h.reduce, (stuck_of_stop hstop).headRedex_iff⟩

/-- `(fun x => let y := x; f y x) a` reduces to `f a a`, which has no redex at
the head. -/
theorem settles_without_redex :
    ∃ t u : Term,
      t = .app (.lam ⟨"x"⟩ .default (.sort 1)
        (.letE ⟨"y"⟩ (.sort 1) (.bvar 0)
          (.app (.app (.const ⟨"f"⟩) (.bvar 0)) (.bvar 1)))) (.const ⟨"a"⟩)
      ∧ u = .app (.app (.const ⟨"f"⟩) (.const ⟨"a"⟩)) (.const ⟨"a"⟩)
      ∧ Signature.empty.Settles .all 9 maxSteps t u
      ∧ Signature.empty.whnf 9 .all t = some (.term u)
      ∧ ¬ Signature.empty.HeadRedex u := by
  let t : Term := .app (.lam ⟨"x"⟩ .default (.sort 1)
    (.letE ⟨"y"⟩ (.sort 1) (.bvar 0)
      (.app (.app (.const ⟨"f"⟩) (.bvar 0)) (.bvar 1)))) (.const ⟨"a"⟩)
  let u : Term := .app (.app (.const ⟨"f"⟩) (.const ⟨"a"⟩)) (.const ⟨"a"⟩)
  have hsettles : Signature.empty.Settles .all 9 maxSteps t u :=
    .next rfl (.next rfl (.stop rfl))
  obtain ⟨hwhnf, hredex⟩ := settles_headRedex_iff hsettles
  refine ⟨t, u, rfl, rfl, hsettles, hwhnf, fun h => ?_⟩
  obtain ⟨-, n, type, value, body, hhead⟩ := hredex.mp h
  cases hhead

/-- `(let f := g; f) a` is not reduced, although the `let` could be. -/
theorem settles_let :
    ∃ t : Term,
      t = .app (.letE ⟨"f"⟩ (.sort 1) (.const ⟨"g"⟩) (.bvar 0)) (.const ⟨"a"⟩)
      ∧ Signature.empty.Settles .all 9 maxSteps t t
      ∧ Signature.empty.HeadRedex t :=
  ⟨_, rfl, .stop rfl, .zeta rfl⟩

end Signature

end TermIndex
