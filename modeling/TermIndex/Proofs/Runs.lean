import TermIndex.Index
import TermIndex.Proofs.FiniteMap
import TermIndex.Proofs.Flattening

/-!
# Runs of insertions

An index can be extended by key sequences, which are checked first, by patterns
and by terms. Each of them only inserts checked sequences into the forest: a
rejected sequence changes nothing, and the sequence of a pattern always passes
the check. So one insertion leaves the forest built and everything else as it
was (`Grown.perform`), and a run does (`Grown.run`).

The only fault that is left is that encoding a term is given up, before
anything is inserted.
-/

namespace TermIndex

/-- One insertion of a value, under keys, a pattern, or the encodings of
a term. -/
inductive Insertion (α : Type) where
  | keys (ks : List Key) (value : α)
  | pattern (p : Pattern) (value : α)
  | term (host : Host) (t : Term) (value : α)

namespace Index

variable {α : Type} [BEq α]

/-- The index after an insertion. Rejected keys leave it as it was. -/
def perform (ix : Index α) : Insertion α → Except Fault (Index α)
  | .keys ks value =>
    match ix.insertKeys ks value with
    | .ok inserted => inserted
    | .error _ => .ok ix
  | .pattern p value => ix.insertPattern p value
  | .term host t value => ix.insert host t value

def run (ix : Index α) (ops : List (Insertion α)) : Except Fault (Index α) :=
  ops.foldlM perform ix

/-- The insertion is of a term that the index does not finish to encode. -/
def GivesUp (ix : Index α) (op : Insertion α) : Prop :=
  ∃ host t value, op = .term host t value
    ∧ ix.encodings host t = .error .unfinished

/-- The index is `ix₀` with a forest that insertion built. -/
def Grown (ix₀ ix : Index α) : Prop :=
  ∃ f : Forest α, f.Built ∧ ix = { ix₀ with forest := f }

/-! ## One insertion -/

theorem Grown.insertPattern {ix₀ ix : Index α} (h : Grown ix₀ ix) (p : Pattern)
    (value : α) :
    ∃ ix', ix.insertPattern p value = .ok ix' ∧ Grown ix₀ ix' := by
  obtain ⟨f, hf, rfl⟩ := h
  obtain ⟨f', hinsert, -, -⟩ := hf.shaped.insert_checked p.check_keys value
  refine ⟨{ ix₀ with forest := f' }, ?_, f',
    hf.insert p.check_keys hinsert, rfl⟩
  simp only [Index.insertPattern, hinsert]
  rfl

theorem Grown.insertPatterns {ix₀ ix : Index α} (h : Grown ix₀ ix)
    (ps : List Pattern) (value : α) :
    ∃ ix', ps.foldlM (fun ix p => ix.insertPattern p value) ix = .ok ix'
      ∧ Grown ix₀ ix' := by
  induction ps generalizing ix with
  | nil => exact ⟨ix, rfl, h⟩
  | cons p ps ih =>
      obtain ⟨ix₁, hinsert, h₁⟩ := h.insertPattern p value
      obtain ⟨ix', hrest, h'⟩ := ih h₁
      refine ⟨ix', ?_, h'⟩
      rw [List.foldlM_cons, hinsert]
      exact hrest

theorem Grown.insertKeys {ix₀ ix : Index α} (h : Grown ix₀ ix) (ks : List Key)
    (value : α) :
    ∃ ix', ix.perform (.keys ks value) = .ok ix' ∧ Grown ix₀ ix' := by
  cases hks : Key.check ks with
  | error e =>
      refine ⟨ix, ?_, h⟩
      simp only [perform, Index.insertKeys, hks]
      rfl
  | ok _ =>
      obtain ⟨f, hf, rfl⟩ := h
      obtain ⟨f', hinsert, -, -⟩ := hf.shaped.insert_checked hks value
      refine ⟨{ ix₀ with forest := f' }, ?_, f', hf.insert hks hinsert, rfl⟩
      simp only [perform, Index.insertKeys, hks, hinsert]
      rfl

omit [BEq α] in
theorem encodings_cases (ix : Index α) (host : Host) (t : Term) :
    (∃ ps, ix.encodings host t = .ok ps)
      ∨ ix.encodings host t = .error .unfinished := by
  unfold encodings
  cases (ix.encoder host .store).encodeAll t with
  | none => exact Or.inr rfl
  | some ps => exact Or.inl ⟨ps, rfl⟩

/-- An insertion keeps the forest built, or encoding its term is given up. -/
theorem Grown.perform {ix₀ ix : Index α} (h : Grown ix₀ ix) (op : Insertion α) :
    (∃ ix', ix.perform op = .ok ix' ∧ Grown ix₀ ix')
      ∨ (ix.perform op = .error .unfinished ∧ ix₀.GivesUp op) := by
  cases op with
  | keys ks value => exact Or.inl (h.insertKeys ks value)
  | pattern p value => exact Or.inl (h.insertPattern p value)
  | term host t value =>
      have hsame : ix.encodings host t = ix₀.encodings host t := by
        obtain ⟨f, -, rfl⟩ := h
        rfl
      rcases encodings_cases ix₀ host t with ⟨ps, hps⟩ | hnone
      · obtain ⟨ix', hinsert, h'⟩ := h.insertPatterns ps value
        refine Or.inl ⟨ix', ?_, h'⟩
        simp only [Index.perform, Index.insert, hsame, hps]
        exact hinsert
      · refine Or.inr ⟨?_, host, t, value, rfl, hnone⟩
        simp only [Index.perform, Index.insert, hsame, hnone]
        rfl

/-! ## Runs -/

theorem Grown.run {ix₀ ix : Index α} (h : Grown ix₀ ix)
    (ops : List (Insertion α)) :
    (∃ ix', ix.run ops = .ok ix' ∧ Grown ix₀ ix')
      ∨ (ix.run ops = .error .unfinished ∧ ∃ op ∈ ops, ix₀.GivesUp op) := by
  induction ops generalizing ix with
  | nil => exact Or.inl ⟨ix, rfl, h⟩
  | cons op ops ih =>
      unfold Index.run
      rw [List.foldlM_cons]
      rcases h.perform op with ⟨ix₁, hop, h₁⟩ | ⟨hop, hgives⟩
      · rw [hop]
        rcases ih h₁ with hok | ⟨herr, op', hop', hgives⟩
        · exact Or.inl hok
        · exact Or.inr ⟨herr, op', List.mem_cons_of_mem _ hop', hgives⟩
      · rw [hop]
        exact Or.inr ⟨rfl, op, List.mem_cons_self .., hgives⟩

theorem Grown.of_run {ix₀ ix ix' : Index α} (h : Grown ix₀ ix)
    {ops : List (Insertion α)} (hrun : ix.run ops = .ok ix') :
    Grown ix₀ ix' := by
  rcases h.run ops with ⟨ix₁, hrun₁, h₁⟩ | ⟨hnone, -⟩
  · obtain rfl := Except.ok.inj (hrun.symm.trans hrun₁)
    exact h₁
  · rw [hrun] at hnone
    cases hnone

/-- A run on an index that holds nothing. -/
theorem grown_of_run {settings : Settings} {rules : List Conversion}
    {ops : List (Insertion α)} {ix : Index α}
    (hrun : ((empty settings).withRules rules).run ops = .ok ix) :
    Grown ((empty settings).withRules rules) ix :=
  Grown.of_run ⟨.empty, .empty, rfl⟩ hrun

theorem Grown.check {ix₀ ix : Index α} (h : Grown ix₀ ix) :
    ix.check = .ok () := by
  obtain ⟨f, hf, rfl⟩ := h
  exact Forest.check_eq_ok_iff.mpr hf.shaped

theorem Grown.check_keys {ix₀ ix : Index α} (h : Grown ix₀ ix) :
    ∀ e ∈ ix.entries, Key.check e.1 = .ok () := by
  obtain ⟨f, hf, rfl⟩ := h
  exact hf.check_keys

end Index

end TermIndex
