import TermIndex.Proofs.Searching

/-!
# Hits are found one entry at a time

The search of a shaped forest ends at leaves, so its hits are those that the
query has on the entries, each matched on its own (`hits_perm`). A forest that
holds a single entry is a case of this, which turns the statement into one
about searches only (`calls_alone`): what a callback sees of an entry does not
depend on the other entries.
-/

namespace TermIndex

variable {α : Type}

/-! ## A forest of one entry -/

namespace Forest

/-- The forest that holds one entry. -/
def only (e : List Key × List α) : Forest α :=
  match e.1 with
  | [] => empty
  | k :: rest => empty.set k (.along rest (.leaf e.2))

theorem entries_only {e : List Key × List α} (he : Key.Completes 1 e.1) :
    (only e).entries = [e] := by
  obtain ⟨ks, vs⟩ := e
  obtain ⟨k, rest, rfl, -⟩ := he.exists_cons
  rw [entries_eq]
  change Trie.branchEntries [(k, Trie.along rest (.leaf vs))] = _
  simp [Trie.branchEntries_cons, Trie.under]

theorem shaped_only {e : List Key × List α} (he : Key.Completes 1 e.1)
    (hvs : e.2 ≠ []) : (only e).Shaped := by
  obtain ⟨ks, vs⟩ := e
  obtain ⟨k, rest, rfl, hrest⟩ := he.exists_cons
  exact List.forall_mem_singleton.mpr (Trie.Shaped.along hrest rfl (.leaf hvs))

end Forest

/-! ## Hits -/

namespace Search

/-- The hit of a query on one entry, if it matches. -/
def hitOn (o : LookupOptions) (query : Pattern) (e : List Key × List α) :
    Option (Hit α) :=
  (Walk.follow o query (.start e)).map Walk.hit

theorem unify_star_start {o : LookupOptions} (ho : o.allowRootStar = false)
    (f : Forest α) (m : Option MVar) :
    unify o (.star m) (Thread.start f) = [] := by
  have hallowed : (Thread.start f).starsAllowed o = false := ho
  unfold unify
  split
  · rw [skipping, hallowed]
    rfl
  · change [] ++ (if (Thread.start f).starsAllowed o then _ else []) = []
    rw [hallowed]
    rfl

/-- A query that is only a wildcard needs no special case. -/
theorem hits_eq (o : LookupOptions) (f : Forest α) (query : Pattern) :
    hits o f query
      = (unify o query (Thread.start f)).andThen fun s => [finish s] := by
  unfold hits
  split
  · next hstar =>
      rw [Bool.and_eq_true, Bool.not_eq_true'] at hstar
      obtain ⟨hquery, hroot⟩ := hstar
      cases query with
      | star m =>
          rw [unify_star_start hroot]
          rfl
      | _ => cases hquery
  · rfl

/-- Threads for which nothing is owed are at leaves, and give the hits of
their walks. -/
theorem finish_spreadsTo {os : Outcomes (Thread α)} {ws : List (Walk α)}
    (h : SpreadsTo 0 os ws) :
    (∃ hs : List (Hit α), os.andThen (fun s => [finish s]) = hs.map .ok
        ∧ hs.Perm (ws.map Walk.hit))
      ∧ ∀ w ∈ ws, w.ahead = [] := by
  obtain ⟨ts, rfl, hts, hspread⟩ := h
  have hleaf : ∀ t ∈ ts, ∃ w : Walk α, t.spread = [w] ∧ finish t = .ok w.hit
      ∧ w.ahead = [] := by
    intro t ht
    obtain ⟨vs, hvs⟩ := (hts t ht).shaped.eq_leaf
    refine ⟨t.walk ([], vs), ?_, ?_, rfl⟩
    · rw [Thread.spread, hvs]
      rfl
    · rw [finish, hvs]
      rfl
  refine ⟨⟨(ts.flatMap Thread.spread).map Walk.hit, ?_, hspread.map _⟩,
    fun w hw => ?_⟩
  · rw [Outcomes.andThen_ok, List.map_map, List.map_flatMap]
    refine List.flatMap_congr fun t ht => ?_
    obtain ⟨w, hw, hfinish, -⟩ := hleaf t ht
    rw [hw, hfinish]
    rfl
  · obtain ⟨t, ht, hwt⟩ := List.mem_flatMap.mp (hspread.mem_iff.mpr hw)
    obtain ⟨w', hw', -, hahead⟩ := hleaf t ht
    rw [hw', List.mem_singleton] at hwt
    rw [hwt]
    exact hahead

/-- The hits in a shaped forest are those on its entries, each on its own. -/
theorem hits_perm {f : Forest α} (hf : f.Shaped) (o : LookupOptions)
    (query : Pattern) :
    (∃ hs : List (Hit α), hits o f query = hs.map .ok
        ∧ hs.Perm (f.entries.filterMap (hitOn o query)))
      ∧ ∀ e ∈ f.entries, ∀ h ∈ hitOn o query e, (h.keys, h.values) = e := by
  obtain ⟨⟨hs, hhs, hperm⟩, hahead⟩ :=
    finish_spreadsTo
      (follows_unify o query (.start f) 0 (Thread.sound_start hf))
  have hwalks : (Thread.start f).spread = f.entries.map .start := rfl
  rw [hwalks] at hperm hahead
  refine ⟨⟨hs, ?_, ?_⟩, ?_⟩
  · rw [hits_eq, hhs]
  · rwa [List.filterMap_map, List.map_filterMap] at hperm
  · intro e he h hh
    obtain ⟨w, hw, rfl⟩ := Option.map_eq_some_iff.mp hh
    have hend : w.ahead = [] :=
      hahead w (List.mem_filterMap.mpr ⟨.start e, List.mem_map_of_mem he, hw⟩)
    have hentry := Walk.keeps_follow o query _ _ hw
    rw [Walk.entry, hend, List.append_nil] at hentry
    exact hentry

/-! ## Calls -/

/-- The hits that are shown to a callback which never declines, and whether it
ever declined. -/
def calls (o : LookupOptions) (f : Forest α) (query : Pattern) :
    Except Fault (List (Hit α) × Bool) :=
  (hits o f query).visit (fun seen h => (seen ++ [h], true)) []

theorem visit_ok (hs seen : List (Hit α)) :
    Outcomes.visit (fun seen h => (seen ++ [h], true)) seen (hs.map .ok)
      = .ok (seen ++ hs, true) := by
  induction hs generalizing seen with
  | nil => simp [Outcomes.visit]
  | cons h hs ih => simp [Outcomes.visit, ih]

theorem calls_eq {o : LookupOptions} {f : Forest α} {query : Pattern}
    {hs : List (Hit α)} (h : hits o f query = hs.map .ok) :
    calls o f query = .ok (hs, true) := by
  rw [calls, h, visit_ok, List.nil_append]

theorem calls_perm {f : Forest α} (hf : f.Shaped) (o : LookupOptions)
    (query : Pattern) :
    ∃ cs, calls o f query = .ok (cs, true)
      ∧ cs.Perm (f.entries.filterMap (hitOn o query)) := by
  obtain ⟨⟨hs, hhs, hperm⟩, -⟩ := hits_perm hf o query
  exact ⟨hs, calls_eq hhs, hperm⟩

/-- The calls on a forest that holds one entry. -/
theorem calls_single {f : Forest α} (hf : f.Shaped) {e : List Key × List α}
    (he : f.entries = [e]) (o : LookupOptions) (query : Pattern) :
    calls o f query = .ok ((hitOn o query e).toList, true) := by
  obtain ⟨cs, hcs, hperm⟩ := calls_perm hf o query
  rw [he, List.filterMap_cons, List.filterMap_nil] at hperm
  cases hhit : hitOn o query e with
  | none =>
      rw [hhit] at hperm
      rw [hcs, hperm.eq_nil]
      rfl
  | some h =>
      rw [hhit] at hperm
      rw [hcs, hperm.eq_singleton]
      rfl

theorem calls_only {e : List Key × List α} (he : Key.Completes 1 e.1)
    (hvs : e.2 ≠ []) (o : LookupOptions) (query : Pattern) :
    calls o (Forest.only e) query = .ok ((hitOn o query e).toList, true) :=
  calls_single (Forest.shaped_only he hvs) (Forest.entries_only he) o query

/-- Hits of different entries have different sequences. -/
theorem nodup_hitOn {f : Forest α} (hf : f.Shaped) (o : LookupOptions)
    (query : Pattern) :
    ((f.entries.filterMap (hitOn o query)).map Hit.keys).Nodup := by
  obtain ⟨-, hkeys⟩ := hits_perm hf o query
  refine List.pairwise_map.mpr (List.pairwise_filterMap.mpr ?_)
  refine hf.entries_ordered.imp_of_mem fun hd he hde h hh h' hh' => ?_
  have hd' := congrArg Prod.fst (hkeys _ hd h hh)
  have he' := congrArg Prod.fst (hkeys _ he h' hh')
  rw [show h.keys = _ from hd', show h'.keys = _ from he']
  exact hde.ne

/-- **A search matches every entry on its own.** On a forest that insertion
built, it ends without a fault, and its calls are, up to order, one for each
entry that has a call when it is searched alone, and the same one. No sequence
is reported twice. -/
theorem calls_alone [BEq α] {f : Forest α} (hf : f.Built) (o : LookupOptions)
    (query : Pattern) :
    ∃ (cs : List (Hit α)) (alone : List Key × List α → Option (Hit α)),
      calls o f query = .ok (cs, true)
      ∧ cs.Perm (f.entries.filterMap alone)
      ∧ (cs.map Hit.keys).Nodup
      ∧ ∀ e ∈ f.entries,
          (Forest.only e).entries = [e] ∧ (Forest.only e).check = .ok ()
          ∧ calls o (Forest.only e) query = .ok ((alone e).toList, true)
          ∧ ∀ h ∈ alone e, (h.keys, h.values) = e := by
  obtain ⟨cs, hcs, hperm⟩ := calls_perm hf.shaped o query
  obtain ⟨-, hkeys⟩ := hits_perm hf.shaped o query
  refine ⟨cs, hitOn o query, hcs, hperm, ?_, fun e he => ?_⟩
  · exact (hperm.map Hit.keys).nodup_iff.mpr (nodup_hitOn hf.shaped o query)
  · have hcompletes := hf.shaped.completes e he
    have hvalues := hf.shaped.values_ne_nil e he
    exact ⟨Forest.entries_only hcompletes,
      Forest.check_eq_ok_iff.mpr (Forest.shaped_only hcompletes hvalues),
      calls_only hcompletes hvalues o query, hkeys e he⟩

/-- A stored star and an exact key below one path. The exact key is
reported first. -/
theorem calls_alone_two :
    ∃ (f : Forest Nat) (alone : List Key × List Nat → Option (Hit Nat)),
      f.Built ∧ f.entries = [([.lam, .star 0], [1]), ([.lam, .sort], [2])]
      ∧ calls .standard f (.lam .sort)
          = .ok ([⟨[.lam, .sort], [2], 1⟩, ⟨[.lam, .star 0], [1], 0⟩], true)
      ∧ [⟨[.lam, .sort], [2], 1⟩, ⟨[.lam, .star 0], [1], 0⟩].Perm
        (f.entries.filterMap alone)
      ∧ calls .standard (Forest.only ([.lam, .sort], [2])) (.lam .sort)
          = .ok ((alone ([.lam, .sort], [2])).toList, true) := by
  have hstar : Key.check [.lam, .star 0] = .ok () := by decide
  have hsort : Key.check [.lam, .sort] = .ok () := by decide
  have hfirst : Forest.empty.insert [.lam, .star 0] 1
      = .ok (Forest.empty.set .lam (.path [.star 0] (.leaf [1]))) := rfl
  have hsecond : (Forest.empty.set .lam (.path [.star 0] (.leaf [1]))).insert
      [.lam, .sort] 2
      = .ok ((Forest.empty.set .lam (.path [.star 0] (.leaf [1]))).set .lam
          (.node [(.star 0, .leaf [1]), (.sort, .leaf [2])])) := rfl
  have hbuilt := (Forest.Built.empty.insert hstar hfirst).insert hsort hsecond
  obtain ⟨cs, alone, hcs, hperm, -, hall⟩ :=
    calls_alone hbuilt .standard (.lam .sort)
  cases hcs
  exact ⟨_, alone, hbuilt, rfl, rfl, hperm,
    (hall ([.lam, .sort], [2]) (by decide)).2.2.1⟩

end Search

end TermIndex
