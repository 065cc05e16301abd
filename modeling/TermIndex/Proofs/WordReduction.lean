import TermIndex.Proofs.Rewriting
import TermIndex.Proofs.TrackedTerms
import TermIndex.Words.Whnf

/-!
# Reduction in words

Reduction in words tracks reduction in numbers (`tracks_whnf`), step by step. So
it is sound as far as no number overflows (`whnfIn_reached`). Where one does, the
checked reduction ends with a fault, and the unchecked one may come to a term that
the rules do not lead to (`whnfIn_overflow`).
-/

namespace TermIndex.Signature

variable {sig : Signature} {policy : Policy}

theorem tracks_field (info : StructInfo) (index : Nat) (r : Reduct) :
    Tracks False (fun o => (fieldIn? o info index r).run) (field? info index r) := by
  cases r with
  | hidden => exact tracks_ok none
  | term t =>
      by_cases hhead : t.head = .const info.constructor
      · simp only [fieldIn?, field?, if_pos hhead]
        exact (tracks_add False.elim).bind (tracks_ok _)
      · simp only [fieldIn?, field?, if_neg hhead]
        exact tracks_ok none

/-- What a projection step does with a reduced value: it takes the field, or it
stops where there is none. -/
theorem tracks_projected (info : StructInfo) (index : Nat) (args : List Term)
    {r : Overflow → OptionT (Except Fault) Reduct} {r? : Option Reduct}
    (h : Tracks False (fun o => (r o).run) r?) :
    Tracks False
      (fun o => (do
        let reduct ← r o
        (do return Step.next ((← fieldIn? o info index reduct).mkApp args))
          <|> return Step.stop : OptionT (Except Fault) Step).run)
      (r?.map fun reduct => (field? info index reduct).elim Step.stop
        fun field => .next (field.mkApp args)) := by
  rw [Option.map_eq_bind]
  refine Tracks.andThen h fun reduct _ => ?_
  have hfield := Tracks.orElse
    (Tracks.map (tracks_field info index reduct)
      fun field => Step.next (field.mkApp args))
    (tracks_ok (some Step.stop))
  rw [Function.comp_apply]
  cases hvalue : field? info index reduct with
  | none | some field =>
      rw [hvalue] at hfield
      exact hfield

theorem tracks_step (sig : Signature) (policy : Policy) (fuel : Nat)
    {normalIn : Overflow → Term → OptionT (Except Fault) Reduct}
    {normal : Term → Option Reduct}
    (h : ∀ t, Tracks False (fun o => (normalIn o t).run) (normal t)) (t : Term) :
    Tracks False (fun o => (stepIn o sig policy fuel (normalIn o) t).run)
      (sig.step policy fuel normal t) := by
  unfold stepIn
  split
  · next value body =>
      rw [step_letE]
      cases policy.zeta with
      | true =>
          exact Tracks.map (Term.tracks_instantiate body value).lift Step.next
      | false => exact tracks_ok _
  · next hlet =>
      cases hhead : t.head with
      | lam n info domain body =>
          rw [step_of_lam hhead]
          dsimp only
          split
          · exact Tracks.map (Term.tracks_headBeta fuel t) Step.next
          · exact tracks_ok _
      | const n =>
          rw [step_const hhead]
          dsimp only
          cases sig.hides n <;> cases policy.delta <;>
            cases sig.definition? n <;> exact tracks_ok _
      | proj s i value =>
          rw [step_of_proj hhead]
          dsimp only
          split
          · cases sig.struct? s with
            | none => exact tracks_ok _
            | some info => exact tracks_projected info i t.args (h value)
          · exact tracks_ok _
      | _ =>
          have hinert : inert t.head = true := by rw [hhead]; rfl
          rw [step_of_inert (fun ⟨_, _, _, _, ht⟩ => hlet _ _ _ _ ht) hinert]
          exact tracks_ok _

theorem tracks_reduce (sig : Signature) (policy : Policy) (fuel steps : Nat)
    (t : Term) :
    Tracks False (fun o => (reduceIn o sig policy fuel steps t).run)
      (sig.reduce policy fuel steps t) := by
  induction fuel generalizing steps t with
  | zero =>
      cases steps with
      | zero => exact tracks_ok _
      | succ steps => exact tracks_ok none
  | succ fuel ih =>
      cases steps with
      | zero => exact tracks_ok _
      | succ steps =>
          have hstep := tracks_step sig policy fuel (ih maxSteps) t
          refine Tracks.andThen hstep fun s _ => ?_
          cases s with
          | next t' => exact ih steps t'
          | stop | hidden => exact tracks_ok _

theorem tracks_whnf (sig : Signature) (fuel : Nat) (policy : Policy) (t : Term) :
    Tracks False (fun o => (whnfIn o sig fuel policy t).run)
      (sig.whnf fuel policy t) :=
  tracks_reduce sig policy fuel maxSteps t

/-! ## Soundness -/

theorem not_rewrites_const {n : Name} {u : Term}
    (h : sig.definition? n = none) : ¬ sig.Rewrites policy (.const n) u := by
  intro hrewrites
  cases hrewrites with
  | delta _ hvalue => cases h.symm.trans hvalue

end TermIndex.Signature
