import TermIndex.Search.Skip
import TermIndex.Proofs.Positions

/-!
# What a wildcard of the query skips

Skipping `n` subtrees splits every stored sequence at one point: behind the `n`
complete trees that it begins with (`takeSubtrees_append`). `Covered` says that
the outcomes of skipping are these splits and nothing else: each outcome skips
complete trees and reaches a shaped trie, and the entries below the outcomes,
in order, are the entries of the trie that was skipped in. No fault is among
them.

The induction is on the shape of the trie. Half way along a path the number of
subtrees still owed goes on to its child.
-/

namespace TermIndex

namespace Key

/-! ## Splitting a sequence -/

/-- The keys taken pay for subtrees, as far as the sequence goes. -/
theorem takeSubtrees_spec : ∀ (n : Nat) (ks : List Key),
    ks = (takeSubtrees n ks).1 ++ (takeSubtrees n ks).2.2
      ∧ spendAll n (takeSubtrees n ks).1 = .ok (takeSubtrees n ks).2.1
      ∧ ((takeSubtrees n ks).2.1 = 0 ∨ (takeSubtrees n ks).2.2 = [])
  | 0, ks => by simp [takeSubtrees]
  | n + 1, [] => by simp [takeSubtrees]
  | n + 1, k :: ks => by
      obtain ⟨hsplit, hspend, hend⟩ := takeSubtrees_spec (n + k.arity) ks
      refine ⟨?_, ?_, ?_⟩
      · simpa [takeSubtrees] using hsplit
      · exact spendAll_cons_eq_ok.mpr ⟨n, rfl, hspend⟩
      · exact hend

theorem takeSubtrees_append {n : Nat} {ks : List Key} (h : Completes n ks)
    (rest : List Key) : takeSubtrees n (ks ++ rest) = (ks, 0, rest) := by
  induction ks generalizing n with
  | nil =>
      obtain rfl : n = 0 := Except.ok.inj h
      simp [takeSubtrees]
  | cons k ks ih =>
      obtain ⟨j, rfl, hks⟩ := completes_cons_iff.mp h
      simp [takeSubtrees, ih hks]

end Key

namespace Trie

variable {α : Type}

/-! ## Outcomes that cover the entries -/

def skippedEntries (rs : List (List Key × Trie α)) : List (List Key × List α) :=
  rs.flatMap fun r => r.2.entries.map (under r.1)

/-- The outcomes of skipping `n` subtrees where `j` more are owed cover
the entries. -/
def Covered (n j : Nat) (os : Outcomes (List Key × Trie α))
    (es : List (List Key × List α)) : Prop :=
  ∃ rs : List (List Key × Trie α), os = rs.map .ok
    ∧ (∀ r ∈ rs, Key.Completes n r.1 ∧ Shaped j r.2) ∧ es = skippedEntries rs

theorem Covered.single {n j : Nat} {ks : List Key} {t : Trie α}
    (hks : Key.Completes n ks)
    (ht : Shaped j t) : Covered n j [.ok (ks, t)] (t.entries.map (under ks)) :=
  ⟨[(ks, t)], rfl, List.forall_mem_singleton.mpr ⟨hks, ht⟩,
    by simp [skippedEntries]⟩

theorem Covered.append {n j : Nat} {os os' : Outcomes (List Key × Trie α)}
    {es es' : List (List Key × List α)} (h : Covered n j os es)
    (h' : Covered n j os' es') :
    Covered n j (os ++ os') (es ++ es') := by
  obtain ⟨rs, rfl, hrs, rfl⟩ := h
  obtain ⟨rs', rfl, hrs', rfl⟩ := h'
  exact ⟨rs ++ rs', List.map_append.symm,
    List.forall_mem_append.mpr ⟨hrs, hrs'⟩,
    List.flatMap_append.symm⟩

/-- Skipping can start with keys that pay for all but `m` of the subtrees. -/
theorem Covered.under {n m j : Nat} {os : Outcomes (List Key × Trie α)}
    {es : List (List Key × List α)} {ks : List Key}
    (hspend : Key.spendAll n ks = .ok m) (h : Covered m j os es) :
    Covered n j (os.mapOk fun (more, t) => (ks ++ more, t))
      (es.map (under ks)) := by
  obtain ⟨rs, rfl, hrs, rfl⟩ := h
  refine ⟨rs.map fun r => (ks ++ r.1, r.2), ?_, ?_, ?_⟩
  · simp [Outcomes.mapOk, Except.map]
  · intro r hr
    obtain ⟨r', hr', rfl⟩ := List.mem_map.mp hr
    exact ⟨Key.spendAll_append_eq_ok.mpr ⟨m, hspend, (hrs r' hr').1⟩,
      (hrs r' hr').2⟩
  · simp only [skippedEntries, List.map_flatMap, List.flatMap_map,
      map_under_under]

/-! ## Skipping -/

theorem skips_zero (t : Trie α) : t.skips 0 = [.ok ([], t)] := by
  cases t <;> rfl

theorem covered_zero {j : Nat} {t : Trie α} (h : Shaped j t) :
    Covered 0 j (t.skips 0) t.entries := by
  have hsingle := Covered.single Key.Completes.nil h
  rwa [map_under_nil, ← skips_zero] at hsingle

theorem covered_branches {n j : Nat} {bs : List (Key × Trie α)} (h : ∀ b ∈ bs,
      Covered (n + b.1.arity) j (b.2.skips (n + b.1.arity)) b.2.entries) :
    Covered (n + 1) j (skipsAll n bs) (branchEntries bs) := by
  induction bs with
  | nil => exact ⟨[], rfl, List.forall_mem_nil _, rfl⟩
  | cons b bs ih =>
      obtain ⟨k, t⟩ := b
      obtain ⟨hfirst, hrest⟩ := List.forall_mem_cons.mp h
      have hkey : Key.spendAll (n + 1) [k] = .ok (n + k.arity) := rfl
      rw [skipsAll, branchEntries_cons]
      exact (hfirst.under hkey).append (ih hrest)

theorem skips_path {n : Nat} {ks : List Key} (hks : ks ≠ [])
    (child : Trie α) :
    (Trie.path ks child).skips (n + 1)
      = if (Key.takeSubtrees (n + 1) ks).2.1 = 0 then
          [.ok ((Key.takeSubtrees (n + 1) ks).1,
            along (Key.takeSubtrees (n + 1) ks).2.2 child)]
        else (child.skips (Key.takeSubtrees (n + 1) ks).2.1).mapOk
          fun (more, t) => ((Key.takeSubtrees (n + 1) ks).1 ++ more, t) := by
  obtain ⟨k, ks, rfl⟩ := List.exists_cons_of_ne_nil hks
  rfl

theorem covered_path {n m j : Nat} {ks : List Key} {child : Trie α}
    (hks : ks ≠ []) (hchild : child.isPath = false)
    (hspend : Key.spendAll (n + 1 + j) ks = .ok m) (hshaped : Shaped m child)
    (h : ∀ {owed : Nat}, m = owed + j →
      Covered owed j (child.skips owed) child.entries) :
    Covered (n + 1) j ((Trie.path ks child).skips (n + 1))
      (Trie.path ks child).entries := by
  obtain ⟨hsplit, htaken, hend⟩ := Key.takeSubtrees_spec (n + 1) ks
  rw [skips_path hks, entries_path]
  generalize Key.takeSubtrees (n + 1) ks = split at hsplit htaken hend ⊢
  obtain ⟨taken, owed, rest⟩ := split
  obtain rfl : ks = taken ++ rest := hsplit
  obtain ⟨i, hi, hrest⟩ := Key.spendAll_append_eq_ok.mp hspend
  obtain rfl : owed + j = i :=
    Except.ok.inj ((Key.spendAll_add htaken j).symm.trans hi)
  by_cases howed : owed = 0
  · subst howed
    rw [Nat.zero_add] at hrest
    have hsingle := Covered.single htaken (Shaped.along hrest hchild hshaped)
    rwa [entries_along, map_under_under] at hsingle
  · -- The path ends while subtrees are owed, and its child goes on.
    obtain rfl : rest = [] := hend.resolve_left howed
    obtain rfl : owed + j = m := Except.ok.inj hrest
    rw [if_neg howed, List.append_nil]
    exact (h rfl).under htaken

/-- Skipping covers the entries of a shaped trie. -/
theorem Shaped.skips {N : Nat} {t : Trie α} (h : Shaped N t) :
    ∀ {n j : Nat}, N = n + j → Covered n j (t.skips n) t.entries := by
  induction h with
  | @leaf vs hvalues =>
      intro n j hN
      obtain ⟨rfl, rfl⟩ : n = 0 ∧ j = 0 := by omega
      exact covered_zero (.leaf hvalues)
  | @path N m ks child hks hchild hspend hshaped ih =>
      intro n j hN
      subst hN
      cases n with
      | zero =>
          rw [Nat.zero_add] at hspend
          exact covered_zero (.path hks hchild hspend hshaped)
      | succ n => exact covered_path hks hchild hspend hshaped ih
  | @node N bs hlength hincreasing hshaped ih =>
      intro n j hN
      cases n with
      | zero =>
          obtain rfl : N + 1 = j := by omega
          exact covered_zero (.node hlength hincreasing hshaped)
      | succ n =>
          rw [entries_node]
          exact covered_branches fun b hb => ih b hb (by omega)

end Trie

theorem Position.Shaped.skips {α : Type} {j : Nat} {p : Position α}
    (h : p.Shaped (1 + j)) :
    Trie.Covered 1 j p.skips p.entries := by
  cases p with
  | root f =>
      obtain ⟨hj, hf⟩ := h
      obtain rfl : j = 0 := by omega
      rw [Position.entries, f.entries_eq]
      exact Trie.covered_branches fun b hb => (hf b hb).skips rfl
  | inside t => exact Trie.Shaped.skips h rfl

end TermIndex
