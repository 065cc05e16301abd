import TermIndex.Proofs.Contractions
import TermIndex.Proofs.Instances
import TermIndex.Proofs.SelfRetrieval
import TermIndex.Proofs.Variants

/-!
# Eta alternates

When terms are encoded as they stand, their variants are direct encodings of
terms that they contract to (`Verbatim.contracts_of_variant`). The converse
holds for one contraction (`Verbatim.variant_of_contracts`), wherever it
happens: a variant of the parts is chosen at every node above it.

So an index whose cap leaves room for all variants (`Roomy`) finds a stored term
by each of its contracted forms (`lookup_contracted`).
-/

namespace TermIndex

open Relation (ReflTransGen ReflGen)
open Term (Contracts)

namespace Encoder

variable {enc : Encoder} {t t' : Term} {depth fuel : Nat} {p : Pattern}
  {ps : List Pattern}

/-! ## Variants and contractions -/

/-- The direct encoding is the first variant. -/
theorem variants_head {alternates : Bool}
    (h : enc.variants fuel t depth alternates = some ps) :
    ∃ p ∈ ps, enc.direct fuel t depth = some p := by
  have hencode : enc.encode fuel t depth alternates = some (ps.take enc.cap) := by
    rw [encode_eq_take, h]
    rfl
  obtain ⟨p, hp, hhead⟩ := encode_head hencode
  exact ⟨p, List.mem_of_mem_take (List.mem_of_head? hhead), hp⟩

theorem Verbatim.variants_eq_some_iff (h : enc.Verbatim) :
    enc.variants (fuel + 1) t depth true = some ps ↔
      ∃ lists cs, partsOf (enc.variants fuel) true (enc.view t depth)
          = some lists
        ∧ contracted (enc.variants fuel) t depth true = some cs
        ∧ ps = (enc.view t depth).results lists cs := by
  rw [Encoder.variants_eq_some_iff, h.reduce]
  simp [h.plain.convert]

theorem Verbatim.direct_eq_some_iff (h : enc.Verbatim) :
    enc.direct (fuel + 1) t depth = some p ↔
      ∃ as, enc.Parts fuel (enc.view t depth) as
        ∧ p = (enc.view t depth).build as := by
  rw [Encoder.direct_eq_some_iff, h.reduce]
  simp [h.plain.convert]

theorem of_contracted {recur : Recur}
    (h : contracted recur t depth true = some ps) :
    (∃ t', t.etaContract? = some t' ∧ recur t' depth true = some ps)
      ∨ (t.etaContract? = none ∧ ps = []) := by
  cases heta : t.etaContract? with
  | none =>
      rw [contracted_of_none heta] at h
      exact Or.inr ⟨rfl, (Option.some.inj h).symm⟩
  | some t' =>
      unfold contracted at h
      rw [heta] at h
      exact Or.inl ⟨t', rfl, h⟩

/-- **Variants are sound.** Every variant of a term is the direct encoding of a
term that it contracts to. -/
theorem Verbatim.contracts_of_variant (h : enc.Verbatim)
    (hps : enc.variants fuel t depth true = some ps) (hp : p ∈ ps) :
    ∃ t', ReflTransGen Contracts t t'
      ∧ enc.direct fuel t' depth = some p := by
  induction fuel generalizing t depth ps p with
  | zero => cases hps
  | succ fuel ih =>
      obtain ⟨lists, cs, hlists, hcs, rfl⟩ := h.variants_eq_some_iff.mp hps
      rcases mem_results.mp hp with ⟨as, has, rfl⟩ | hp
      · -- Every pattern that was chosen is the encoding of a contracted part.
        have hpart : ∀ x a,
            (∃ l, View.part [.star none] (enc.variants fuel · · true) x = some l
              ∧ a ∈ l) →
            ∃ x', PartTo (ReflTransGen Contracts) x x'
              ∧ View.part (.star none) (enc.direct fuel) x' = some a := by
          rintro (_ | ⟨t, d⟩) a ⟨l, hl, ha⟩
          · obtain rfl := Option.some.inj hl
            obtain rfl := List.mem_singleton.mp ha
            exact ⟨none, .wild, rfl⟩
          · obtain ⟨t', hsteps, ht'⟩ := ih hl ha
            exact ⟨some (t', d), .term hsteps, ht'⟩
        have hlists := (mapM_eq_some_iff.mp hlists).flip
        obtain ⟨parts, hparts, hdirect⟩ := forall₂_exists hpart
          (forall₂_join hlists (mem_products.mp has).flip)
        obtain ⟨t', hsteps, hview⟩ := h.exists_view hparts
        refine ⟨t', hsteps, h.direct_eq_some_iff.mpr ⟨as, ?_, ?_⟩⟩
        · rw [Parts, hview]
          exact hdirect.flip
        · rw [hview]
      · rcases of_contracted hcs with ⟨t₁, heta, hcs⟩ | ⟨-, rfl⟩
        · obtain ⟨t', hsteps, ht'⟩ := ih hcs hp
          exact ⟨t', .head (.here heta) hsteps,
            direct_mono (Nat.le_succ fuel) ht'⟩
        · cases hp

/-- **Variants are complete for one contraction.** Wherever a lambda is
contracted, the direct encoding of the new term is among the variants. -/
theorem Verbatim.variant_of_contracts (h : enc.Verbatim)
    (hps : enc.variants fuel t depth true = some ps) (ht : t.Contracts t') :
    ∃ p ∈ ps, enc.direct fuel t' depth = some p := by
  induction fuel generalizing t t' depth ps with
  | zero => cases hps
  | succ fuel ih =>
      obtain ⟨lists, cs, hlists, hcs, rfl⟩ := h.variants_eq_some_iff.mp hps
      rcases h.view_contracts ht depth with heta | ⟨hbuild, hparts⟩
      · rcases of_contracted hcs with ⟨t₁, heta₁, hcs⟩ | ⟨hnone, -⟩
        · obtain rfl := Option.some.inj (heta₁.symm.trans heta)
          obtain ⟨p, hp, hdirect⟩ := variants_head hcs
          exact ⟨p, mem_results.mpr (Or.inr hp),
            direct_mono (Nat.le_succ fuel) hdirect⟩
        · cases hnone.symm.trans heta
      · -- The encoding of every new part is a variant of the old one.
        have hpart : ∀ x' l, (∃ x, PartTo (ReflGen Contracts) x x'
              ∧ View.part [.star none] (enc.variants fuel · · true) x
                = some l) →
            ∃ a, View.part (.star none) (enc.direct fuel) x' = some a
              ∧ a ∈ l := by
          rintro x' l ⟨x, hx, hl⟩
          cases hx with
          | wild =>
              obtain rfl := Option.some.inj hl
              exact ⟨.star none, rfl, List.mem_singleton_self _⟩
          | @term t t' d hstep =>
              obtain ⟨a, ha, hdirect⟩ : ∃ a ∈ l,
                  enc.direct fuel t' d = some a := by
                cases hstep with
                | refl => exact variants_head hl
                | single hstep => exact ih hl hstep
              exact ⟨a, hdirect, ha⟩
        obtain ⟨as, has, hmem⟩ := forall₂_exists hpart
          (forall₂_join hparts (mapM_eq_some_iff.mp hlists))
        have hchosen : as ∈ products lists := mem_products.mpr hmem.flip
        refine ⟨_, mem_results.mpr (Or.inl ⟨as, hchosen, rfl⟩),
          h.direct_eq_some_iff.mpr ⟨as, has, ?_⟩⟩
        rw [hbuild]

/-! ## Enough room -/

/-- The cap is not smaller than the number of encodings under any cap. -/
def Roomy (enc : Encoder) (t : Term) : Prop :=
  ∀ n ps, (enc.withCap n).encodeAll t = some ps → ps.length ≤ enc.cap

/-- With enough room, all variants are kept. -/
theorem Roomy.encodeAll_eq (h : enc.Roomy t) :
    enc.encodeAll t = enc.variants enc.host.fuel t 0 enc.hasAlternates := by
  rw [Encoder.encodeAll_eq]
  cases hall : enc.variants enc.host.fuel t 0 enc.hasAlternates with
  | none => rfl
  | some all =>
      have hlarge : (enc.withCap all.length).encodeAll t
          = some (all.take (max 1 all.length)) := by
        rw [Encoder.encodeAll_eq, variants_withCap]
        exact congrArg (Option.map _) hall
      have hle := h _ _ hlarge
      rw [List.take_of_length_le (Nat.le_max_right ..)] at hle
      rw [Option.map_some, List.take_of_length_le hle]

/-- There is enough room if all variants fit. -/
theorem roomy_of_variants
    (h : enc.variants enc.host.fuel t 0 enc.hasAlternates = some ps)
    (hle : ps.length ≤ enc.cap) : enc.Roomy t := by
  intro n qs hqs
  rw [Encoder.encodeAll_eq, variants_withCap] at hqs
  obtain rfl := Option.some.inj ((congrArg (Option.map _) h).symm.trans hqs)
  exact (List.length_take_le' ..).trans hle

end Encoder

namespace Index

variable {α : Type} [BEq α] [PartialEquivBEq α] {ix : Index α}

omit [BEq α] [PartialEquivBEq α] in
theorem verbatim_encoder (hpolicy : ix.settings.encoding.policy = .none)
    (hrules : ix.rules = []) {sig : Signature} (hsig : sig.hiddenNames = [])
    {fuel : Nat} (hfuel : fuel ≠ 0) (mode : Mode) :
    (ix.encoder (.allRelevant fuel sig) mode).Verbatim := by
  have hhides : sig.hides = fun _ => false := by
    funext n
    rw [Signature.hides, hsig]
    rfl
  have hplain := plain_encoder hpolicy hrules hfuel sig
    (fun _ _ _ => false) mode
  refine ⟨hrules, fun t => (hplain.reduce t).trans ?_, fun _ _ _ => rfl⟩
  rw [hhides, Encoder.headedBy_false]
  rfl

end Index

end TermIndex
