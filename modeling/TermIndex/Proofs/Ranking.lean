import TermIndex.Proofs.Visiting

/-!
# Ranked lookups

A lookup ranks the hits of a search, the best first. `Ranking` says what this
means without mention of an algorithm: scores descend, and the hits of one score
keep their order. There is one such list (`Ranking.unique`), and sorting gives
it (`ranking_ranked`).

A ranked lookup does more on its way: it merges the hits of one sequence. No
search finds a sequence twice, so that this changes nothing, and a lookup is the
ranking of what an incremental one shows to its callback, cut off at the limits
(`lookupPattern_ranking`).
-/

namespace TermIndex

variable {α : Type}

namespace Search

/-- The hits of one score, in their order. -/
def scoring (n : Nat) (hs : List (Hit α)) : List (Hit α) :=
  hs.filter fun h => h.score = n

theorem mem_scoring {n : Nat} {hs : List (Hit α)} {h : Hit α} :
    h ∈ scoring n hs ↔ h ∈ hs ∧ h.score = n := by
  simp [scoring]

theorem scoring_cons (n : Nat) (h : Hit α) (hs : List (Hit α)) :
    scoring n (h :: hs)
      = if h.score = n then h :: scoring n hs else scoring n hs := by
  simp [scoring, List.filter_cons]

/-- The best scores come first. -/
def Descending (hs : List (Hit α)) : Prop :=
  hs.Pairwise fun a b => b.score ≤ a.score

theorem Descending.le_head {a : Hit α} {rest : List (Hit α)}
    (h : Descending (a :: rest)) : ∀ b ∈ a :: rest, b.score ≤ a.score :=
  List.forall_mem_cons.mpr ⟨le_rfl, (List.pairwise_cons.mp h).1⟩

theorem Descending.tail {a : Hit α} {rest : List (Hit α)}
    (h : Descending (a :: rest)) : Descending rest :=
  (List.pairwise_cons.mp h).2

/-- The hits in the order of their scores. Those of one score keep their
order. -/
structure Ranking (hs sorted : List (Hit α)) : Prop where
  descending : Descending sorted
  stable : ∀ n, scoring n sorted = scoring n hs

theorem mem_iff_of_scoring {hs hs' : List (Hit α)}
    (hsame : ∀ n, scoring n hs = scoring n hs') (h : Hit α) :
    h ∈ hs ↔ h ∈ hs' := by
  have hscoring : h ∈ scoring h.score hs ↔ h ∈ scoring h.score hs' := by
    rw [hsame h.score]
  simpa [mem_scoring] using hscoring

/-- A list that descends is determined by the hits of each score. -/
theorem Descending.eq_of_scoring {hs hs' : List (Hit α)} (h : Descending hs)
    (h' : Descending hs') (hsame : ∀ n, scoring n hs = scoring n hs') :
    hs = hs' := by
  induction hs generalizing hs' with
  | nil =>
      have hmem := mem_iff_of_scoring hsame
      refine (List.eq_nil_iff_forall_not_mem.mpr fun x hx => ?_).symm
      cases (hmem x).mpr hx
  | cons a rest ih =>
      have hmem := mem_iff_of_scoring hsame
      cases hs' with
      | nil => cases (hmem a).mp (List.mem_cons_self ..)
      | cons b rest' =>
          have hba := h.le_head b ((hmem b).mpr (List.mem_cons_self ..))
          have hab := h'.le_head a ((hmem a).mp (List.mem_cons_self ..))
          -- Both have the best score, and so are the first hit of that score.
          have hscore : b.score = a.score := le_antisymm hba hab
          have hfirst := hsame a.score
          rw [scoring_cons, scoring_cons, if_pos rfl, if_pos hscore] at hfirst
          obtain ⟨rfl, hequal⟩ := List.cons.inj hfirst
          have hrest : ∀ n, scoring n rest = scoring n rest' := by
            intro n
            have hn := hsame n
            rw [scoring_cons, scoring_cons] at hn
            by_cases ha : a.score = n
            · exact ha ▸ hequal
            · rwa [if_neg ha, if_neg ha] at hn
          rw [ih h.tail h'.tail hrest]

theorem Ranking.unique {hs sorted sorted' : List (Hit α)}
    (h : Ranking hs sorted) (h' : Ranking hs sorted') : sorted = sorted' :=
  h.descending.eq_of_scoring h'.descending fun n =>
    (h.stable n).trans (h'.stable n).symm

/-! ## Sorting -/

theorem ranks_trans (a b c : Hit α) (hab : decide (b.score ≤ a.score) = true)
    (hbc : decide (c.score ≤ b.score) = true) :
    decide (c.score ≤ a.score) = true := by
  have hle := (of_decide_eq_true hbc).trans (of_decide_eq_true hab)
  exact decide_eq_true hle

theorem ranks_total (a b : Hit α) :
    (decide (b.score ≤ a.score) || decide (a.score ≤ b.score)) = true := by
  rw [Bool.or_eq_true, decide_eq_true_iff, decide_eq_true_iff]
  exact Nat.le_total ..

theorem descending_ranked (hs : List (Hit α)) : Descending (ranked hs) := by
  have hsorted := List.pairwise_mergeSort ranks_trans ranks_total hs
  exact hsorted.imp of_decide_eq_true

/-- Hits of one score are in order already, and sorting keeps what is. -/
theorem scoring_ranked (n : Nat) (hs : List (Hit α)) :
    scoring n (ranked hs) = scoring n hs := by
  have hequal : (scoring n hs).Pairwise fun a b =>
      decide (b.score ≤ a.score) = true := by
    refine List.pairwise_of_forall_mem_list fun a ha b hb => ?_
    have hle : b.score ≤ a.score :=
      ((mem_scoring.mp hb).2.trans (mem_scoring.mp ha).2.symm).le
    exact decide_eq_true hle
  have hsub : (scoring n hs).Sublist (ranked hs) :=
    List.sublist_mergeSort ranks_trans ranks_total hequal List.filter_sublist
  have hboth : (scoring n hs).Sublist (scoring n (ranked hs)) := by
    have hfilter := hsub.filter fun h => decide (h.score = n)
    simpa only [scoring, List.filter_filter, Bool.and_self] using hfilter
  have hperm : (scoring n (ranked hs)).Perm (scoring n hs) :=
    (List.mergeSort_perm ..).filter _
  exact (hboth.eq_of_length hperm.length_eq.symm).symm

/-- Sorting the hits ranks them. -/
theorem ranking_ranked (hs : List (Hit α)) : Ranking hs (ranked hs) :=
  ⟨descending_ranked hs, fun n => scoring_ranked n hs⟩

theorem ranked_eq_self {hs : List (Hit α)} (h : Descending hs) :
    ranked hs = hs :=
  (ranking_ranked hs).unique ⟨h, fun _ => rfl⟩

end Search

namespace Index

/-- Hits that are found best first are returned as they are found. -/
theorem lookupPattern_of_hits {ix : Index α} {q : Pattern} {o : LookupOptions}
    {hs : List (Hit α)} (hmax : o.maxResults = none) (hmin : o.minScore = 0)
    (hhits : Search.hits o ix.forest q = hs.map .ok)
    (hkeys : (hs.map Hit.keys).Nodup) (hscores : Search.Descending hs) :
    ix.lookupPattern q o = .ok hs := by
  have hmerge : hs.foldl mergeHit [] = hs := foldl_mergeHit hkeys
  rw [lookupPattern_eq hhits, hmerge, Search.ranked_eq_self hscores,
    LookupOptions.limited_eq hmax hmin]

/-- On a checked index, all three lookups are about the same hits. -/
theorem lookups_eq {ix : Index α} (hix : ix.check = .ok ()) (q : Pattern)
    (o : LookupOptions) :
    ∃ cs, ix.lookupWhile q o (fun seen h => (seen ++ [h], true)) []
        = .ok (cs, true)
      ∧ cs.foldl mergeHit [] = cs
      ∧ ix.lookupPattern q o = .ok (o.limited (Search.ranked cs))
      ∧ Search.best o ix.forest q = .ok (Search.ranked cs) := by
  obtain ⟨cs, hcs, -, hmerge⟩ := exists_hits hix q o
  refine ⟨cs, ?_, hmerge, ?_, ?_⟩
  · rw [lookupWhile, Search.visitHits_eq]
    exact Search.calls_eq hcs
  · rw [lookupPattern_eq hcs, hmerge]
  · rw [Search.best, hcs, collect_ok]
    rfl

variable [BEq α]

/-- **A ranked lookup is an incremental one, ranked.** After any run of
insertions, a lookup that never stops ends without a fault. What it shows,
ranked and cut off at the limits, is what the ranked lookup returns. Merging
leaves it as it is, and without limits a ranked lookup is a ranked search. -/
theorem lookupPattern_ranking (settings : Settings) (rules : List Conversion)
    {ops : List (Insertion α)} {ix : Index α}
    (hrun : ((empty settings).withRules rules).run ops = .ok ix)
    (q : Pattern) (o : LookupOptions) :
    ∃ cs sorted, ix.lookupWhile q o (fun seen h => (seen ++ [h], true)) []
        = .ok (cs, true)
      ∧ Search.Ranking cs sorted
      ∧ ix.lookupPattern q o = .ok (o.limited sorted)
      ∧ cs.foldl mergeHit [] = cs
      ∧ (o.maxResults = none → o.minScore = 0 →
        ix.lookupPattern q o = Search.best o ix.forest q) := by
  have hnew : Grown ((empty settings : Index α).withRules rules)
      ((empty settings).withRules rules) := ⟨.empty, .empty, rfl⟩
  have hix := (hnew.of_run hrun).check
  obtain ⟨cs, hcs, hmerge, hlookup, hbest⟩ := lookups_eq hix q o
  refine ⟨cs, Search.ranked cs, hcs, Search.ranking_ranked cs, hlookup, hmerge,
    fun hmax hmin => ?_⟩
  rw [hlookup, hbest, LookupOptions.limited_eq hmax hmin]

/-- The search comes to the star before it comes to the hidden subtree, which is
worth more. With one result allowed, only the latter is returned. -/
theorem lookupPattern_ranking_limited :
    ∃ (ix : Index Nat) (ops : List (Insertion Nat)) (q : Pattern)
      (low high : Hit Nat) (o : LookupOptions),
      ops = [.pattern (.app (.const ⟨"f"⟩) [.star none]) 1,
        .pattern (.app (.const ⟨"f"⟩) [.hidden]) 2]
      ∧ q = .app (.const ⟨"f"⟩) [.star (some ⟨0⟩)]
      ∧ o.maxResults = some 1
      ∧ ((empty .standard).withRules []).run ops = .ok ix
      ∧ ix.lookupWhile q o (fun seen h => (seen ++ [h], true)) []
        = .ok ([low, high], true)
      ∧ Search.Ranking [low, high] [high, low]
      ∧ ix.lookupPattern q o = .ok [high] := by
  let ops : List (Insertion Nat) :=
    [.pattern (.app (.const ⟨"f"⟩) [.star none]) 1,
      .pattern (.app (.const ⟨"f"⟩) [.hidden]) 2]
  let q := Pattern.app (.const ⟨"f"⟩) [.star (some ⟨0⟩)]
  let low : Hit Nat := ⟨[.app (.const ⟨"f"⟩) 1, .star 0], [1], 1⟩
  let high : Hit Nat := ⟨[.app (.const ⟨"f"⟩) 1, .hidden], [2], 2⟩
  let o : LookupOptions := { LookupOptions.standard with maxResults := some 1 }
  have hranking : Search.Ranking [low, high] [high, low] := by
    refine ⟨by simp [Search.Descending, low, high], fun n => ?_⟩
    by_cases hlow : low.score = n
    · have hhigh : high.score ≠ n := by
        rw [← hlow]
        decide
      simp [Search.scoring_cons, hlow, hhigh]
    · simp [Search.scoring_cons, hlow]
  obtain ⟨ix, hrun⟩ : ∃ ix, ((empty .standard).withRules []).run ops = .ok ix :=
    ⟨_, rfl⟩
  obtain ⟨cs, sorted, hcs, hsorted, hlookup, -⟩ :=
    lookupPattern_ranking .standard [] hrun q o
  have hshown : ix.lookupWhile q o (fun seen h => (seen ++ [h], true)) []
      = .ok ([low, high], true) := by
    cases hrun
    rfl
  obtain ⟨rfl, -⟩ := Prod.mk.inj (Except.ok.inj (hshown.symm.trans hcs))
  obtain rfl := hranking.unique hsorted
  exact ⟨ix, ops, q, low, high, o, rfl, rfl, rfl, hrun, hcs, hranking, hlookup⟩

end Index

end TermIndex
