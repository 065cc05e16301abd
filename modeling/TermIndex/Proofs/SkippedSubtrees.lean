import TermIndex.Proofs.MappedSearch
import TermIndex.Proofs.Reached
import TermIndex.Proofs.SearchOrder
import TermIndex.Proofs.Visiting

/-!
# A wildcard skips every subtree once

Skipping goes from a position to each of its children, also along a path, where
there is one (`Trie.Shaped.exists_skips`). So the keys that were skipped lead to
the place where the search goes on, which follows by induction on these keys
(`Trie.Shaped.leads_of_skips`).

What is skipped are the complete trees that stored sequences go on with at the
position (`Covered.mem_keys_iff`), and they come in increasing order, so each of
them comes once.
-/

namespace TermIndex

variable {α σ : Type}

/-- A visitor that never declines is shown the whole list. -/
theorem Visitor.each_goOn {β : Type} (next : σ → β → σ) (s : σ) (bs : List β) :
    Visitor.each (fun s b => .ok (next s b, true)) s bs
      = .ok (bs.foldl next s, true) := by
  induction bs generalizing s with
  | nil => rfl
  | cons b bs ih => exact ih (next s b)

namespace Trie

/-! ## One key at a time -/

/-- Skipping takes the keys of a path first, and goes on in its child if they do
not pay for everything. -/
theorem skips_along (n : Nat) (ks : List Key) (child : Trie α) :
    (along ks child).skips n
      = if (Key.takeSubtrees n ks).2.1 = 0 then
          [.ok ((Key.takeSubtrees n ks).1,
            along (Key.takeSubtrees n ks).2.2 child)]
        else (child.skips (Key.takeSubtrees n ks).2.1).mapOk
          fun (more, t) => ((Key.takeSubtrees n ks).1 ++ more, t) := by
  cases n with
  | zero =>
      rw [skips_zero, Key.takeSubtrees]
      rfl
  | succ n =>
      cases ks with
      | nil =>
          change child.skips (n + 1) = (child.skips (n + 1)).map (Except.map id)
          rw [Except.map_id, List.map_id]
      | cons k ks => exact skips_path (List.cons_ne_nil k ks) child

/-- A path is skipped key by key. -/
theorem skips_path_cons (n : Nat) (k : Key) (ks : List Key) (child : Trie α) :
    (Trie.path (k :: ks) child).skips (n + 1)
      = skipsAll n [(k, along ks child)] := by
  have htake : Key.takeSubtrees (n + 1) (k :: ks)
      = (k :: (Key.takeSubtrees (n + k.arity) ks).1,
        (Key.takeSubtrees (n + k.arity) ks).2) := rfl
  rw [skips_path (List.cons_ne_nil k ks), skipsAll, skipsAll, List.append_nil,
    skips_along, htake]
  split
  · rfl
  · rw [Outcomes.mapOk_mapOk]
    rfl

theorem mem_skipsAll {n : Nat} {bs : List (Key × Trie α)}
    {r : List Key × Trie α} :
    .ok r ∈ skipsAll n bs ↔
      ∃ b ∈ bs, ∃ r', .ok r' ∈ b.2.skips (n + b.1.arity)
        ∧ r = (b.1 :: r'.1, r'.2) := by
  rw [skipsAll_eq, List.mem_flatMap]
  exact exists_congr fun b => and_congr_right fun _ => mem_mapOk_under

/-- Where a subtree is owed, skipping takes the branches one by one. -/
theorem Shaped.exists_skips {n j : Nat} {t : Trie α}
    (h : Shaped (n + 1 + j) t) :
    ∃ bs, Position.Branching (n + j) (.inside t) bs
      ∧ t.skips (n + 1) = skipsAll n bs := by
  generalize hm : n + 1 + j = m at h
  cases h with
  | leaf _ => omega
  | @path _ m ks child hkeys hchild hspend hshaped =>
      obtain ⟨k, ks, rfl⟩ := List.exists_cons_of_ne_nil hkeys
      obtain ⟨i, rfl, hspend⟩ := Key.spendAll_cons_eq_ok.mp hspend
      obtain rfl : n + j = i := by omega
      exact ⟨_, Position.branching_path hchild hspend hshaped,
        skips_path_cons n k ks child⟩
  | @node i bs _ hincreasing hshaped =>
      obtain rfl : n + j = i := by omega
      exact ⟨bs, Position.branching_node hincreasing hshaped, rfl⟩

/-- The keys that were skipped lead to where the search goes on. -/
theorem Shaped.leads_of_skips {ks : List Key} {n j : Nat} {t below : Trie α}
    (h : Shaped (n + j) t) (hskip : .ok (ks, below) ∈ t.skips n) :
    (Position.inside t).Leads ks (.inside below) := by
  induction ks generalizing n t with
  | nil =>
      cases n with
      | zero =>
          rw [skips_zero] at hskip
          cases List.mem_singleton.mp hskip
          exact .here _
      | succ n =>
          obtain ⟨bs, -, hbs⟩ := h.exists_skips
          rw [hbs] at hskip
          obtain ⟨b, -, r, -, heq⟩ := mem_skipsAll.mp hskip
          cases heq
  | cons k ks ih =>
      cases n with
      | zero =>
          rw [skips_zero] at hskip
          cases List.mem_singleton.mp hskip
      | succ n =>
          obtain ⟨bs, hbranching, hbs⟩ := h.exists_skips
          rw [hbs] at hskip
          obtain ⟨b, hb, r, hr, heq⟩ := mem_skipsAll.mp hskip
          cases heq
          have hshaped := hbranching.shaped b hb
          rw [show n + j + b.1.arity = n + b.1.arity + j by omega] at hshaped
          exact .child (hbranching.mem_children_iff.mpr ⟨b.2, hb, rfl⟩)
            (ih hshaped hr)

/-! ## What is skipped -/

/-- What is skipped are the complete trees that some entry begins with. -/
theorem mem_skipped_iff {n j : Nat} {rs : List (List Key × Trie α)}
    (hrs : ∀ r ∈ rs, Key.Completes n r.1 ∧ Shaped j r.2) {ks : List Key} :
    ks ∈ rs.map Prod.fst ↔
      Key.Completes n ks ∧ ∃ e ∈ skippedEntries rs, ks <+: e.1 := by
  rw [List.mem_map]
  constructor
  · rintro ⟨r, hr, rfl⟩
    obtain ⟨hcompletes, hshaped⟩ := hrs r hr
    obtain ⟨e, he⟩ := List.exists_mem_of_ne_nil _ hshaped.entries_ne_nil
    exact ⟨hcompletes, under r.1 e, List.mem_flatMap.mpr
      ⟨r, hr, List.mem_map_of_mem he⟩, e.1, rfl⟩
  · rintro ⟨hks, e, he, rest, hrest⟩
    obtain ⟨r, hr, hunder⟩ := List.mem_flatMap.mp he
    obtain ⟨d, -, rfl⟩ := List.mem_map.mp hunder
    exact ⟨r, hr, ((hrs r hr).1.append_inj hks hrest.symm).1⟩

end Trie

namespace Position

theorem Shaped.leads_of_skips {j : Nat} {p : Position α} {ks : List Key}
    {below : Trie α} (h : p.Shaped (1 + j))
    (hskip : .ok (ks, below) ∈ p.skips) : p.Leads ks (.inside below) := by
  cases p with
  | root f =>
      obtain ⟨b, hb, r, hr, heq⟩ := Trie.mem_skipsAll.mp hskip
      cases heq
      refine .child (List.mem_map.mpr ⟨b, hb, rfl⟩) ?_
      exact Trie.Shaped.leads_of_skips (j := 0) (h.2 b hb) hr
  | inside t => exact Trie.Shaped.leads_of_skips h hskip

/-- Sequences that are stored below a position continue the keys that lead
there. -/
theorem Leads.exists_entry_iff {n : Nat} {p q : Position α}
    {walked ks : List Key} (h : p.Leads walked q) (hp : p.Shaped n) :
    (∃ e ∈ q.entries, ks <+: e.1) ↔ ∃ e ∈ p.entries, walked ++ ks <+: e.1 := by
  have hsequences : ∀ rest, ks ++ rest ∈ q.sequences
      ↔ walked ++ ks ++ rest ∈ p.sequences := fun rest => by
    rw [h.mem_sequences_iff hp, List.append_assoc]
  simp only [mem_sequences] at hsequences
  constructor
  · rintro ⟨⟨_, vs⟩, he, rest, rfl⟩
    obtain ⟨vs, hvs⟩ := (hsequences rest).mp ⟨vs, he⟩
    exact ⟨_, hvs, rest, rfl⟩
  · rintro ⟨⟨_, vs⟩, he, rest, rfl⟩
    obtain ⟨vs, hvs⟩ := (hsequences rest).mpr ⟨vs, he⟩
    exact ⟨_, hvs, rest, rfl⟩

end Position

namespace Search

/-- A search behind an anonymous wildcard goes on from every skip in turn. -/
theorem visitSkipping_of_skips {o : LookupOptions} {t : Thread α}
    {rs : List (List Key × Trie α)} (ht : t.starsAllowed o = true)
    (hskips : t.here.skips = rs.map .ok) (v : Visitor σ (Thread α)) (s : σ) :
    visitSkipping o none v s t
      = v.each s
        (rs.map fun r => t.advance r.1 (.inside r.2) (skipWorth r.1)) := by
  have hskipping : skipping o none t
      = (rs.map fun r => t.advance r.1 (.inside r.2) (skipWorth r.1)).map
        .ok := by
    rw [skipping, if_pos ht, hskips, Outcomes.andThen_ok, List.map_map,
      List.map_eq_flatMap]
    rfl
  rw [visitSkipping_eq, hskipping, Outcomes.shownTo_ok]

/-- **A wildcard skips each subtree once.** Take a position that keys lead to in
a forest that passes the check, where these keys still owe a subtree. What a
wildcard skips there are the complete trees that stored sequences go on with, in
increasing order. A visitor is shown each of them together with the place that
its keys lead to, and nothing else, until it declines. So a search goes on from
each of these places in turn, with the keys of the subtree as those that it has
passed. -/
theorem skipping_each {f : Forest α} (hf : f.check = .ok ())
    {walked : List Key} {p : Position α}
    (hp : (Position.root f).Leads walked p)
    (howed : ¬ Key.Completes 1 walked) :
    ∃ rs : List (List Key × Trie α),
      (rs.map Prod.fst).Pairwise Key.Before
      ∧ (∀ ks, ks ∈ rs.map Prod.fst ↔
        Key.Completes 1 ks ∧ ∃ e ∈ f.entries, walked ++ ks <+: e.1)
      ∧ (∀ r ∈ rs, ∀ q, p.Leads r.1 q ↔ q = .inside r.2)
      ∧ (∀ (σ : Type) (v : Visitor σ (List Key × Trie α)) (s : σ),
        p.visitSkips v s = v.each s rs)
      ∧ ∀ (σ : Type) (v : Visitor σ (Thread α)) (s : σ) (o : LookupOptions)
        (t : Thread α), t.here = p → t.starsAllowed o = true →
        visitSkipping o none v s t
          = v.each s
            (rs.map fun r => t.advance r.1 (.inside r.2) (skipWorth r.1)) := by
  have hroot := Forest.shaped_root hf
  obtain ⟨n, hspend, hshaped⟩ := hp.shaped hroot
  have hn : n ≠ 0 := by
    rintro rfl
    exact howed hspend
  obtain ⟨j, rfl⟩ := Nat.exists_eq_add_of_le (Nat.one_le_iff_ne_zero.mpr hn)
  obtain ⟨rs, hskips, hrs, hentries⟩ := hshaped.skips
  have hordered := hshaped.skipsInOrder
  rw [hskips, Trie.skipsInOrder_ok] at hordered
  refine ⟨rs, List.pairwise_map.mpr hordered, fun ks => ?_, fun r hr q => ?_,
    fun σ v s => ?_, fun σ v s o t hhere ht => ?_⟩
  · rw [Trie.mem_skipped_iff hrs, ← hentries, hp.exists_entry_iff hroot]
    rfl
  · have hleads : p.Leads r.1 (.inside r.2) := by
      refine hshaped.leads_of_skips ?_
      rw [hskips]
      exact List.mem_map_of_mem hr
    constructor
    · exact fun hq => hq.unique hleads hshaped
    · rintro rfl
      exact hleads
  · rw [Position.visitSkips_eq, hskips, Outcomes.shownTo_ok]
  · subst hhere
    exact visitSkipping_of_skips ht hskips v s

/-- Behind `g/2` in a forest of `g *0 *0`, `g (h a) b`, `g (h a) c` and
`g (fun _ => Sort) Sort`, a wildcard skips the star, `h a`, which two sequences
share, and the lambda, which ends half way along a path. -/
theorem skipping_each_shared :
    ∃ (f : Forest String) (p : Position String)
      (rs : List (List Key × Trie String)),
      f.entries.map Prod.fst
        = [[.app (.const ⟨"g"⟩) 2, .star 0, .star 0],
          [.app (.const ⟨"g"⟩) 2, .app (.const ⟨"h"⟩) 1, .app (.const ⟨"a"⟩) 0,
            .app (.const ⟨"b"⟩) 0],
          [.app (.const ⟨"g"⟩) 2, .app (.const ⟨"h"⟩) 1, .app (.const ⟨"a"⟩) 0,
            .app (.const ⟨"c"⟩) 0],
          [.app (.const ⟨"g"⟩) 2, .lam, .sort, .sort]]
      ∧ f.check = .ok ()
      ∧ (Position.root f).Leads [.app (.const ⟨"g"⟩) 2] p
      ∧ ¬ Key.Completes 1 [.app (.const ⟨"g"⟩) 2]
      ∧ rs.map Prod.fst = [[.star 0],
        [.app (.const ⟨"h"⟩) 1, .app (.const ⟨"a"⟩) 0], [.lam, .sort]]
      ∧ (rs.map Prod.fst).Pairwise Key.Before
      ∧ (∀ ks, ks ∈ rs.map Prod.fst ↔ Key.Completes 1 ks
        ∧ ∃ e ∈ f.entries, [.app (.const ⟨"g"⟩) 2] ++ ks <+: e.1)
      ∧ (∀ r ∈ rs, ∀ q, p.Leads r.1 q ↔ q = .inside r.2)
      ∧ ∀ (σ : Type) (v : Visitor σ (List Key × Trie String)) (s : σ),
        p.visitSkips v s = v.each s rs := by
  have hcheck : (Forest.ofList [(.app (.const ⟨"g"⟩) 2, .node
      [(.star 0, .path [.star 0] (.leaf ["v"])),
        (.app (.const ⟨"h"⟩) 1, .path [.app (.const ⟨"a"⟩) 0]
          (.node [(.app (.const ⟨"b"⟩) 0, .leaf ["w"]),
            (.app (.const ⟨"c"⟩) 0, .leaf ["x"])])),
        (.lam, .path [.sort, .sort] (.leaf ["y"]))])]).check = .ok () := rfl
  have hleads : ∀ t : Trie String,
      (Position.root (Forest.ofList [(.app (.const ⟨"g"⟩) 2, t)])).Leads
        [.app (.const ⟨"g"⟩) 2] (.inside t) :=
    fun t => .child (List.mem_cons_self ..) (.here _)
  have howed : ¬ Key.Completes 1 [.app (.const ⟨"g"⟩) 2] := by
    intro h
    cases h
  obtain ⟨rs, hordered, hskipped, hreached, hvisit, -⟩ :=
    skipping_each hcheck (hleads _) howed
  have hkeys := hvisit (List (List Key))
    (fun seen r => .ok (seen ++ [r.1], true)) []
  rw [Visitor.each_goOn, List.foldl_append_eq_append, ← List.flatMap_def,
    ← List.map_eq_flatMap] at hkeys
  exact ⟨_, _, rs, rfl, hcheck, hleads _, howed,
    (congrArg Prod.fst (Except.ok.inj hkeys)).symm, hordered, hskipped, hreached,
    hvisit⟩

end Search

end TermIndex
