import TermIndex.Proofs.Entries

/-!
# The check of a forest and the check of its sequences

A forest is checked from above: the walk carries the number of subtrees that are
owed past paths and nodes, and finds none owed at the leaves. Its sequences can
be checked one by one. In a formed trie the first is a statement about all the
sequences (`Trie.shaped_iff`): the number that is owed at a place is known from
any sequence that goes through it, and one always does.

The two checks differ in one point only. The walk adds up arities and never asks
whether a key can have its arity, so it takes a projection that lacks its value
for a complete tree.
-/

namespace TermIndex

namespace Trie

variable {α : Type}

/-- Sequences that start with the same keys share the walk along these. -/
theorem exists_spendAll_of_completes {n : Nat} {keys : List Key}
    {es : List (List Key × List α)} (hes : es ≠ [])
    (h : ∀ e ∈ es, Key.Completes n (keys ++ e.1)) :
    ∃ m, Key.spendAll n keys = .ok m ∧ ∀ e ∈ es, Key.Completes m e.1 := by
  obtain ⟨e, he⟩ := List.exists_mem_of_ne_nil es hes
  obtain ⟨m, hm, -⟩ := Key.spendAll_append_eq_ok.mp (h e he)
  refine ⟨m, hm, fun d hd => ?_⟩
  obtain ⟨m', hm', hd⟩ := Key.spendAll_append_eq_ok.mp (h d hd)
  obtain rfl : m = m' := Except.ok.inj (hm.symm.trans hm')
  exact hd

theorem Formed.shaped {n : Nat} {t : Trie α} (h : Formed t)
    (hcompletes : ∀ e ∈ t.entries, Key.Completes n e.1) : Shaped n t := by
  induction h generalizing n with
  | @leaf values hvalues =>
      have hnil := hcompletes ([], values) (List.mem_singleton_self _)
      obtain rfl : n = 0 := Except.ok.inj hnil
      exact .leaf hvalues
  | @path keys child hkeys hchild hformed ih =>
      rw [entries_path, List.forall_mem_map] at hcompletes
      obtain ⟨m, hspend, hrest⟩ :=
        exists_spendAll_of_completes hformed.entries_ne_nil hcompletes
      exact .path hkeys hchild hspend (ih hrest)
  | @node branches hlength hincreasing hformed ih =>
      rw [entries_node] at hcompletes
      -- Below each branch the number that is owed at the node is the same.
      have hbranch : ∀ b ∈ branches, ∃ j, n = j + 1
          ∧ ∀ e ∈ b.2.entries, Key.Completes (j + b.1.arity) e.1 := by
        intro b hb
        have hunder : ∀ e ∈ b.2.entries, Key.Completes n ([b.1] ++ e.1) :=
          fun e he =>
            hcompletes _ (mem_branchEntries.mpr ⟨b, hb, e, he, rfl⟩)
        obtain ⟨m, hspend, hrest⟩ :=
          exists_spendAll_of_completes (hformed b hb).entries_ne_nil hunder
        obtain ⟨j, hj, hm⟩ := Key.spendAll_cons_eq_ok.mp hspend
        obtain rfl : j + b.1.arity = m := Except.ok.inj hm
        exact ⟨j, hj, hrest⟩
      obtain ⟨b, hb⟩ := List.exists_mem_of_length_pos (l := branches) (by omega)
      obtain ⟨j, rfl, -⟩ := hbranch b hb
      refine .node hlength hincreasing fun c hc => ih c hc ?_
      obtain ⟨i, hi, hrest⟩ := hbranch c hc
      obtain rfl : j = i := by omega
      exact hrest

/-- A formed trie is shaped exactly if every sequence completes what is owed. -/
theorem shaped_iff {n : Nat} {t : Trie α} :
    Shaped n t ↔ Formed t ∧ ∀ e ∈ t.entries, Key.Completes n e.1 :=
  ⟨fun h => ⟨h.formed, h.completes⟩, fun h => h.1.shaped h.2⟩

end Trie

namespace Forest

variable {α : Type}

theorem shaped_iff {f : Forest α} :
    f.Shaped ↔ f.Formed ∧ ∀ e ∈ f.entries, Key.Completes 1 e.1 := by
  constructor
  · exact fun h => ⟨fun b hb => (h b hb).formed, h.completes⟩
  · rintro ⟨hformed, hcompletes⟩ b hb
    refine (hformed b hb).shaped fun e he => ?_
    rw [entries_eq] at hcompletes
    obtain ⟨j, hj, hrest⟩ := Key.completes_cons_iff.mp
      (hcompletes _ (Trie.mem_branchEntries.mpr ⟨b, hb, e, he, rfl⟩))
    obtain rfl : 0 = j := by omega
    exact hrest

/-- **The two checks agree up to projections without a value.** The check of a
forest accepts exactly the formed forests whose sequences complete one tree. The
forests that are formed and whose sequences all pass the check of a sequence are
those among them with no projection of arity 0. -/
theorem check_iff_sequences (f : Forest α) :
    (f.check = .ok () ↔ f.Formed ∧ ∀ e ∈ f.entries, Key.Completes 1 e.1)
    ∧ ((f.Formed ∧ ∀ e ∈ f.entries, Key.check e.1 = .ok ()) ↔
      f.check = .ok ()
      ∧ ∀ e ∈ f.entries, ∀ s i, Key.proj s i 0 ∉ e.1) := by
  have hcheck : f.check = .ok () ↔
      f.Formed ∧ ∀ e ∈ f.entries, Key.Completes 1 e.1 :=
    check_eq_ok_iff.trans shaped_iff
  refine ⟨hcheck, ?_⟩
  simp only [hcheck, Key.check_eq_ok_iff, Key.proper_iff]
  constructor
  · rintro ⟨hformed, hseqs⟩
    exact ⟨⟨hformed, fun e he => (hseqs e he).1⟩, fun e he => (hseqs e he).2⟩
  · rintro ⟨⟨hformed, hcompletes⟩, hproper⟩
    exact ⟨hformed, fun e he => ⟨hcompletes e he, hproper e he⟩⟩

/-- The check of a forest accepts a projection of nothing. -/
theorem check_projection_alone :
    ¬ ((ofList [(.proj ⟨"S"⟩ 0 0, .leaf ["v"])]).check = .ok () ↔
      (ofList [(.proj ⟨"S"⟩ 0 0, .leaf ["v"])]).Formed
      ∧ ∀ e ∈ (ofList [(.proj ⟨"S"⟩ 0 0, .leaf ["v"])]).entries,
        Key.check e.1 = .ok ()) := by
  intro h
  have hentry : Key.check [.proj ⟨"S"⟩ 0 0] = .ok () :=
    (h.mp rfl).2 ([.proj ⟨"S"⟩ 0 0], ["v"]) (List.mem_singleton_self _)
  have hcheck : Key.check [.proj ⟨"S"⟩ 0 0] = .error (.badArity 0) := rfl
  rw [hcheck] at hentry
  cases hentry

end Forest

end TermIndex
