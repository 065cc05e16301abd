import TermIndex.Proofs.Canonical
import TermIndex.Proofs.Ranking
import TermIndex.Proofs.SearchOrder

/-!
# Which hit comes first

A callback is shown hits in the order in which the search finds them, and a
ranked lookup keeps this order among hits of one score. What it is can be read
off any two sequences at the first key in which they differ
(`visitHits_order`).

It is not the order of the entries. The two agree where a wildcard of the query
skips the key, and between two stars. But a star comes before every other key
among the entries, while the search tries the key of a node before the stars
(`lookupPattern_ties`, `lookupPattern_ties_reversed`).
-/

namespace TermIndex

open Search

variable {α : Type}

namespace Search

/-! ## Calls -/

/-- What a callback is shown is an initial part of the hits. -/
theorem visit_prefix (goOn : List (Hit α) → Hit α → Bool)
    (hs seen : List (Hit α)) :
    ∃ cs done, Outcomes.visit (fun seen h => (seen ++ [h], goOn seen h)) seen
        (hs.map .ok) = .ok (seen ++ cs, done)
      ∧ cs <+: hs := by
  induction hs generalizing seen with
  | nil => exact ⟨[], true, by simp [Outcomes.visit], List.prefix_rfl⟩
  | cons h hs ih =>
      rw [List.map_cons, Outcomes.visit]
      dsimp only
      split
      · obtain ⟨cs, done, hvisit, hinitial⟩ := ih (seen ++ [h])
        refine ⟨h :: cs, done, ?_, (List.prefix_cons_inj h).mpr hinitial⟩
        rw [hvisit, List.append_assoc]
        rfl
      · exact ⟨[h], false, rfl, List.prefix_append [h] hs⟩

variable [BEq α]

/-- **The stored keys determine the order in which hits are found.** On a forest
that insertion built, a search ends without a fault, whatever its callback
answers. Any two hits that the callback is shown differ at some key. Where a
wildcard of the query is skipping, the hit with the smaller key there is shown
first. Elsewhere one of the keys is a star; a key that is none comes first, and
of two stars the one of the smaller number. -/
theorem visitHits_order {f : Forest α} (hf : f.Built) (o : LookupOptions)
    (query : Pattern) (goOn : List (Hit α) → Hit α → Bool) :
    ∃ cs done,
      visitHits o f query (fun seen h => (seen ++ [h], goOn seen h)) []
        = .ok (cs, done)
      ∧ ∀ (i j : Nat) (g h : Hit α), cs[i]? = some g → cs[j]? = some h → i ≠ j →
        (∃ front k l ks ls,
          g.keys = front ++ k :: ks ∧ h.keys = front ++ l :: ls ∧ k ≠ l)
        ∧ ∀ front k l ks ls,
          g.keys = front ++ k :: ks → h.keys = front ++ l :: ls → k ≠ l →
          (i < j ↔
            if skipsBehind o [query] front then k.precedes l = true
            else ∃ b, l = .star b ∧ ∀ a, k = .star a → a < b) := by
  obtain ⟨⟨hs, hhs, -⟩, -⟩ := hits_perm hf.shaped o query
  obtain ⟨cs, done, hvisit, hinitial⟩ := visit_prefix goOn hs []
  have hordered := (hits_sooner hf.shaped o query hhs).sublist hinitial.sublist
  refine ⟨cs, done, by rw [visitHits_eq, hhs, hvisit, List.nil_append], ?_⟩
  have hsooner : ∀ {i j : Nat} {g h : Hit α}, cs[i]? = some g →
      cs[j]? = some h → i < j → Sooner o [query] g.keys h.keys := by
    intro i j g h hg hh hij
    obtain ⟨hi, rfl⟩ := List.getElem?_eq_some_iff.mp hg
    obtain ⟨hj, rfl⟩ := List.getElem?_eq_some_iff.mp hh
    exact List.pairwise_iff_getElem.mp hordered i j hi hj hij
  intro i j g h hg hh hij
  refine ⟨?_, fun front k l ks ls hgkeys hhkeys hkl => ?_⟩
  · rcases Nat.lt_or_gt_of_ne hij with hlt | hgt
    · obtain ⟨front, k, l, ks, ls, hk, hl, htries⟩ :=
        (hsooner hg hh hlt).exists_split
      exact ⟨front, k, l, ks, ls, hk, hl, htries.ne⟩
    · obtain ⟨front, l, k, ls, ks, hl, hk, htries⟩ :=
        (hsooner hh hg hgt).exists_split
      exact ⟨front, k, l, ks, ls, hk, hl, htries.ne.symm⟩
  · change _ ↔ Tries (skipsBehind o [query] front) k l
    constructor
    · intro hlt
      have h := hsooner hg hh hlt
      rw [hgkeys, hhkeys] at h
      exact h.tries hkl
    · intro htries
      rcases Nat.lt_or_gt_of_ne hij with hlt | hgt
      · exact hlt
      · have h := hsooner hh hg hgt
        rw [hgkeys, hhkeys] at h
        exact (htries.asymm (h.tries hkl.symm)).elim

/-- The wildcard skips the smaller key first. Behind that, the key of the query
comes before the star, which is first among the entries. -/
theorem visitHits_order_three :
    ∃ (f : Forest Nat) (query : Pattern) (a b c : Hit Nat),
      f.Built ∧ query = .pi (.star none) .sort
      ∧ a.keys = [.pi, .hidden, .sort] ∧ b.keys = [.pi, .sort, .sort]
      ∧ c.keys = [.pi, .sort, .star 0]
      ∧ f.entries.map Prod.fst = [a.keys, c.keys, b.keys]
      ∧ visitHits .standard f query (fun seen h => (seen ++ [h], true)) []
        = .ok ([a, b, c], true)
      ∧ skipsBehind .standard [query] [.pi] = true
      ∧ Key.hidden.precedes .sort = true
      ∧ skipsBehind .standard [query] [.pi, .sort] = false
      ∧ ∃ j, Key.star 0 = .star j ∧ ∀ i, Key.sort = .star i → i < j := by
  let query := Pattern.pi (.star none) .sort
  let a : Hit Nat := ⟨[.pi, .hidden, .sort], [2], 3⟩
  let b : Hit Nat := ⟨[.pi, .sort, .sort], [1], 2⟩
  let c : Hit Nat := ⟨[.pi, .sort, .star 0], [3], 1⟩
  let history : List (List Key × Nat) :=
    [([.pi, .sort, .sort], 1), ([.pi, .hidden, .sort], 2),
      ([.pi, .sort, .star 0], 3)]
  have haccepted : Forest.Accepted history := by
    simp only [Forest.Accepted]
    decide
  obtain ⟨f, hf, hentries, hshown⟩ : ∃ f : Forest Nat,
      Forest.empty.insertAll history = .ok f
      ∧ f.entries.map Prod.fst = [a.keys, c.keys, b.keys]
      ∧ visitHits .standard f query (fun seen h => (seen ++ [h], true)) []
        = .ok ([a, b, c], true) := by
    refine ⟨_, rfl, ?_, ?_⟩
    · rfl
    · rfl
  obtain ⟨f', hf', hbuilt, -⟩ := Forest.Built.empty.insertAll haccepted
  obtain rfl := Except.ok.inj (hf.symm.trans hf')
  obtain ⟨cs, done, hvisit, horder⟩ :=
    visitHits_order hbuilt .standard query fun _ _ => true
  obtain ⟨rfl, rfl⟩ := Prod.mk.inj (Except.ok.inj (hshown.symm.trans hvisit))
  have hab := (horder 0 1 a b rfl rfl (by decide)).2 [.pi] .hidden .sort _ _
    rfl rfl (by decide)
  have hbc := (horder 1 2 b c rfl rfl (by decide)).2 [.pi, .sort] .sort
    (.star 0) _ _ rfl rfl (by decide)
  exact ⟨f, query, a, b, c, hbuilt, rfl, rfl, rfl, rfl, hentries, hvisit, rfl,
    hab.mp (by decide), rfl, hbc.mp (by decide)⟩

/-! ## Ties -/

omit [BEq α] in
/-- A relation holds along the hits of each score exactly if it holds along
ties. -/
theorem pairwise_scoring_iff {R : Hit α → Hit α → Prop} {hs : List (Hit α)} :
    (∀ n, (scoring n hs).Pairwise R)
      ↔ hs.Pairwise fun g h => g.score = h.score → R g h := by
  induction hs with
  | nil => exact ⟨fun _ => .nil, fun _ _ => .nil⟩
  | cons a rest ih =>
      rw [List.pairwise_cons, ← ih]
      constructor
      · intro h
        have ha := h a.score
        rw [scoring_cons, if_pos rfl, List.pairwise_cons] at ha
        refine ⟨fun b hb hab => ha.1 b (mem_scoring.mpr ⟨hb, hab.symm⟩), ?_⟩
        intro n
        by_cases hn : a.score = n
        · exact hn ▸ ha.2
        · have hrest := h n
          rwa [scoring_cons, if_neg hn] at hrest
      · rintro ⟨ha, hrest⟩ n
        rw [scoring_cons]
        by_cases hn : a.score = n
        · rw [if_pos hn, List.pairwise_cons]
          refine ⟨fun b hb => ?_, hrest n⟩
          obtain ⟨hmem, hscore⟩ := mem_scoring.mp hb
          exact ha b hmem (hn.trans hscore.symm)
        · rw [if_neg hn]
          exact hrest n

omit [BEq α] in
/-- Ties keep what holds along the hits that are ranked. -/
theorem Ranking.pairwise_ties {R : Hit α → Hit α → Prop}
    {hs sorted : List (Hit α)} (h : Ranking hs sorted) (hR : hs.Pairwise R) :
    sorted.Pairwise fun g h => g.score = h.score → R g h := by
  refine pairwise_scoring_iff.mp fun n => ?_
  rw [h.stable n]
  exact hR.sublist List.filter_sublist

/-- The key that is tried first is the smaller one, unless it is tried before a
star for a node of the query. -/
theorem Tries.precedes_iff {skipping : Bool} {k l : Key}
    (h : Tries skipping k l) :
    k.precedes l = true ↔ skipping = true ∨ k.isStar = true := by
  cases skipping with
  | true => exact ⟨fun _ => Or.inl rfl, fun _ => h⟩
  | false =>
      obtain ⟨j, rfl, hj⟩ := h
      cases hk : k.starId? with
      | some i =>
          obtain rfl := Key.starId?_eq_some_iff.mp hk
          exact ⟨fun _ => Or.inr rfl,
            fun _ => Key.star_precedes_star.mpr (hj i rfl)⟩
      | none =>
          refine ⟨fun hprec => (Key.not_precedes_star hk j hprec).elim, ?_⟩
          rintro (hskip | hstar)
          · cases hskip
          · cases k <;> cases hstar
            cases hk

end Search

namespace Key

/-- Two sequences are in order if the first keys in which they differ are. -/
theorem before_append_iff {front ks ls : List Key} {k l : Key} (hkl : k ≠ l) :
    Before (front ++ k :: ks) (front ++ l :: ls) ↔ k.precedes l = true := by
  constructor
  · intro h
    rcases precedes_or_precedes hkl with hprec | hprec
    · exact hprec
    · exact (h.asymm ((before_of_precedes hprec ls ks).append_left front)).elim
  · intro hprec
    exact (before_of_precedes hprec ks ls).append_left front

end Key

namespace Index

variable [BEq α]

/-- **Ties are in the order in which they are found.** After any run of
insertions, a ranked lookup returns entries, and among those of equal score the
search found the earlier one first. At the first key in which they differ this
is the order of the entries, if a wildcard of the query is skipping there or the
key of the first one is a star. If not, the two are the other way round. -/
theorem lookupPattern_ties (settings : Settings) (rules : List Conversion)
    {ops : List (Insertion α)} {ix : Index α}
    (hrun : ((empty settings).withRules rules).run ops = .ok ix)
    (q : Pattern) (o : LookupOptions) :
    ∃ groups, ix.lookupPattern q o = .ok groups
      ∧ (∀ g ∈ groups, (g.keys, g.values) ∈ ix.entries)
      ∧ (ix.entries.Pairwise fun d e => Key.Before d.1 e.1)
      ∧ groups.Pairwise fun g h => g.score = h.score →
        ∃ front k l ks ls, g.keys = front ++ k :: ks ∧ h.keys = front ++ l :: ls
          ∧ Tries (skipsBehind o [q] front) k l
          ∧ (Key.Before g.keys h.keys
            ↔ skipsBehind o [q] front = true ∨ k.isStar = true) := by
  have hnew : Grown ((empty settings : Index α).withRules rules)
      ((empty settings).withRules rules) := ⟨.empty, .empty, rfl⟩
  have hix := (hnew.of_run hrun).check
  have hshaped : ix.forest.Shaped := Forest.check_eq_ok_iff.mp hix
  obtain ⟨hs, hhs, hperm, hmerge⟩ := exists_hits hix q o
  have hsub := o.limited_sublist (ranked hs)
  refine ⟨o.limited (ranked hs), by rw [lookupPattern_eq hhs, hmerge], ?_,
    hshaped.entries_ordered, ?_⟩
  · intro g hg
    have hmem := (List.mergeSort_perm hs _).mem_iff.mp (hsub.mem hg)
    obtain ⟨e, he, hhit⟩ := List.mem_filterMap.mp (hperm.mem_iff.mp hmem)
    rw [(hits_perm hshaped o q).2 e he g hhit]
    exact he
  · have hsooner := hits_sooner hshaped o q hhs
    have hties := (ranking_ranked hs).pairwise_ties hsooner
    refine (hties.sublist hsub).imp fun hsooner hscore => ?_
    obtain ⟨front, k, l, ks, ls, hk, hl, htries⟩ :=
      (hsooner hscore).exists_split
    refine ⟨front, k, l, ks, ls, hk, hl, htries, ?_⟩
    rw [hk, hl, Key.before_append_iff htries.ne]
    exact htries.precedes_iff

/-- The wildcard skips `a` before `b`, and so the two are in the order of the
entries. -/
theorem lookupPattern_ties_skipped :
    ∃ (ix : Index Nat) (q : Pattern) (g h : Hit Nat),
      ((empty .standard).withRules []).run
        [.pattern (.app (.const ⟨"f"⟩) [.app (.const ⟨"b"⟩) []]) 1,
          .pattern (.app (.const ⟨"f"⟩) [.app (.const ⟨"a"⟩) []]) 2] = .ok ix
      ∧ q = .app (.const ⟨"f"⟩) [.star (some ⟨0⟩)]
      ∧ ix.lookupPattern q .standard = .ok [g, h] ∧ g.score = h.score
      ∧ ix.entries = [(g.keys, g.values), (h.keys, h.values)]
      ∧ Key.Before g.keys h.keys := by
  let q := Pattern.app (.const ⟨"f"⟩) [.star (some ⟨0⟩)]
  let g : Hit Nat := ⟨[.app (.const ⟨"f"⟩) 1, .app (.const ⟨"a"⟩) 0], [2], 1⟩
  let h : Hit Nat := ⟨[.app (.const ⟨"f"⟩) 1, .app (.const ⟨"b"⟩) 0], [1], 1⟩
  obtain ⟨ix, hrun, hhits, hentries⟩ : ∃ ix : Index Nat,
      ((empty .standard).withRules []).run
        [.pattern (.app (.const ⟨"f"⟩) [.app (.const ⟨"b"⟩) []]) 1,
          .pattern (.app (.const ⟨"f"⟩) [.app (.const ⟨"a"⟩) []]) 2] = .ok ix
      ∧ hits .standard ix.forest q = [g, h].map .ok
      ∧ ix.entries = [(g.keys, g.values), (h.keys, h.values)] := by
    refine ⟨_, rfl, ?_, ?_⟩
    · rfl
    · rfl
  have hlookup : ix.lookupPattern q .standard = .ok [g, h] :=
    lookupPattern_of_hits rfl rfl hhits (by decide)
      (List.pairwise_pair.mpr (Nat.le_refl 1))
  obtain ⟨groups, hgroups, -, -, hties⟩ :=
    lookupPattern_ties .standard [] hrun q .standard
  obtain rfl := Except.ok.inj (hlookup.symm.trans hgroups)
  obtain ⟨front, k, l, ks, ls, hg, hh, htries, hbefore⟩ :=
    (List.pairwise_cons.mp hties).1 h (List.mem_singleton_self h) rfl
  refine ⟨ix, q, g, h, hrun, rfl, hlookup, rfl, hentries,
    hbefore.mpr (Or.inl ?_)⟩
  cases front with
  | nil =>
      -- The first keys do not differ.
      obtain rfl := (List.cons.inj hg).1
      exact absurd (List.cons.inj hh).1 htries.ne
  | cons c front =>
      obtain ⟨rfl, hrest⟩ := List.cons.inj hg
      have hends := List.append_eq_singleton_iff.mp hrest.symm
      obtain ⟨rfl, -⟩ := hends.resolve_right (by simp)
      rfl

/-- Two stored patterns match equally well. The star comes first among the
entries, and last in the lookup. -/
theorem lookupPattern_ties_reversed :
    ∃ (ix : Index Nat) (q : Pattern) (g h : Hit Nat),
      ((empty .standard).withRules []).run
        [.pattern (.app (.const ⟨"f"⟩) [.app (.const ⟨"a"⟩) [], .star none]) 1,
          .pattern (.app (.const ⟨"f"⟩) [.star none, .app (.const ⟨"b"⟩) []]) 2]
        = .ok ix
      ∧ q = .app (.const ⟨"f"⟩)
        [.app (.const ⟨"a"⟩) [], .app (.const ⟨"b"⟩) []]
      ∧ ix.lookupPattern q .standard = .ok [g, h] ∧ g.score = h.score
      ∧ ix.entries = [(h.keys, h.values), (g.keys, g.values)] := by
  let a := Key.app (.const ⟨"a"⟩) 0
  let b := Key.app (.const ⟨"b"⟩) 0
  refine ⟨_, _, ⟨[.app (.const ⟨"f"⟩) 2, a, .star 0], [1], 2⟩,
    ⟨[.app (.const ⟨"f"⟩) 2, .star 0, b], [2], 2⟩, rfl, rfl,
    lookupPattern_of_hits rfl rfl ?_ (by decide)
      (List.pairwise_pair.mpr (Nat.le_refl 2)), rfl, ?_⟩
  · rfl
  · rfl

end Index

end TermIndex
