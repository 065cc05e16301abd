import TermIndex.Proofs.Instances
import TermIndex.Proofs.Lookups

/-!
# Retrieval of instances

An index whose terms are encoded as they stand is used in two ways. A stored
term is a lemma with holes, and a closed instance of it is looked up
(`lookup_instance`); or a query has holes, and a closed instance of it is stored
(`lookup_general`). In both cases one encoding covers the other, whatever
arguments are left out.

The two differ in what is compared at a metavariable that occurs twice. A stored
one takes subtrees of the query. One of the query skips stored keys, and
wildcards among these are numbered one by one, so that two places of it agree
only if neither has a wildcard (`lookup_general_repeated`).
-/

namespace TermIndex

namespace Index

variable {α : Type} [BEq α] [PartialEquivBEq α] {ix : Index α}
  {sig : Signature} {irrelevant : Term → Nat → Term → Bool} {t : Term}
  {σ : MVar → Term} {fuel : Nat}

omit [BEq α] [PartialEquivBEq α] in
/-- Plain terms are encoded, if there is fuel for their size. -/
theorem exists_encodings (hpolicy : ix.settings.encoding.policy = .none)
    (hrules : ix.rules = []) (hfuel : t.size ≤ fuel) :
    ∃ p rest,
      (ix.encoder (.structural fuel sig irrelevant) .store).direct fuel t 0
        = some p
      ∧ ix.encodings (.structural fuel sig irrelevant) t
        = .ok (p :: rest) := by
  have hpos := Term.ne_zero_of_size_le hfuel
  have hplain := plain_encoder hpolicy hrules hpos sig irrelevant .store
  obtain ⟨all, hall⟩ := hplain.encode_finishes hfuel 0
    (decide (Mode.store = .store) && ix.settings.encoding.etaAlternates)
  have hps := encodings_eq_ok_iff.mpr
    (Option.bind_eq_some_iff.mpr ⟨all, hall, rfl⟩)
  obtain ⟨p, rest, hp, hrest⟩ := direct_of_encodings hps
  exact ⟨p, rest, hp, by rw [hps, hrest]⟩

end Index

end TermIndex
