import TermIndex.Proofs.MappedSearch
import TermIndex.Proofs.Visiting

/-!
# Values do not steer

Lookups in a mapped index are those in the original one with the values mapped
at the end, however many values the map makes equal: hits are merged by their
keys (`lookupPattern_map`, `lookupWhile_map`).

Insertion alone looks at values, and only for equality. It commutes with a map
that neither makes values equal nor tells equal ones apart (`insertKeys_map`).

The indexes that can be reached are those that come from new ones by insertions
and maps, in any order (`Reachable`). They all pass the check, so that no lookup
in them fails (`map_transparent`).
-/

namespace TermIndex

variable {α β σ : Type}

/-! ## Outcomes -/

namespace Outcomes

variable (g : α → β) (os : Outcomes α)

theorem collect_mapOk : (mapOk g os).collect = os.collect.map (List.map g) := by
  unfold collect mapOk
  induction os with
  | nil => rfl
  | cons o os ih =>
      rw [List.map_cons, List.mapM_cons, List.mapM_cons, ih]
      cases o with
      | error e => rfl
      | ok a =>
          cases os.mapM id with
          | error e => rfl
          | ok as => rfl

theorem visit_mapOk (f : σ → β → σ × Bool) (s : σ) :
    (mapOk g os).visit f s = os.visit (fun s a => f s (g a)) s := by
  unfold mapOk
  induction os generalizing s with
  | nil => rfl
  | cons o os ih =>
      cases o with
      | error e => rfl
      | ok a =>
          rw [List.map_cons, Except.map, visit, visit]
          simp only [ih]

end Outcomes

/-! ## Lookups -/

namespace Index

variable (f : α → β) (ix : Index α)

theorem mergeHit_map (groups : List (Hit α)) (h : Hit α) :
    mergeHit (groups.map (Hit.map f)) (h.map f)
      = (mergeHit groups h).map (Hit.map f) := by
  induction groups with
  | nil => rfl
  | cons g rest ih =>
      rw [List.map_cons, mergeHit, mergeHit, ih, apply_ite (List.map _)]
      rfl

theorem foldl_mergeHit_map (hs groups : List (Hit α)) :
    (hs.map (Hit.map f)).foldl mergeHit (groups.map (Hit.map f))
      = (hs.foldl mergeHit groups).map (Hit.map f) := by
  induction hs generalizing groups with
  | nil => rfl
  | cons h hs ih =>
      rw [List.map_cons, List.foldl_cons, List.foldl_cons, mergeHit_map, ih]

theorem ranked_map (hs : List (Hit α)) :
    Search.ranked (hs.map (Hit.map f)) = (Search.ranked hs).map (Hit.map f) := by
  unfold Search.ranked
  refine (List.map_mergeSort (f := Hit.map f) ?_).symm
  exact fun a _ b _ => rfl

theorem limited_map (o : LookupOptions) (hs : List (Hit α)) :
    o.limited (hs.map (Hit.map f)) = (o.limited hs).map (Hit.map f) := by
  unfold LookupOptions.limited
  rw [List.filter_map]
  cases o.maxResults with
  | none => rfl
  | some n => exact List.map_take.symm

theorem lookupPattern_eq_limited (q : Pattern) (o : LookupOptions) :
    ix.lookupPattern q o
      = (Search.hits o ix.forest q).collect.map
        fun hs => o.limited (Search.ranked (hs.foldl mergeHit [])) := by
  rw [lookupPattern]
  unfold LookupOptions.limited
  cases (Search.hits o ix.forest q).collect with
  | error e => rfl
  | ok hs =>
      cases o.maxResults with
      | none => rfl
      | some n => rfl

theorem lookupPattern_map (q : Pattern) (o : LookupOptions) :
    (ix.map f).lookupPattern q o
      = (ix.lookupPattern q o).map (List.map (Hit.map f)) := by
  rw [lookupPattern_eq_limited, lookupPattern_eq_limited, map,
    Search.hits_map, Outcomes.collect_mapOk]
  cases (Search.hits o ix.forest q).collect with
  | error e => rfl
  | ok hs =>
      have hmerged := foldl_mergeHit_map f hs []
      simp only [Except.map, ← limited_map, ← ranked_map, ← hmerged]
      rfl

/-- A callback is called on the mapped index as it is on the original one, with
the values mapped before it sees them. -/
theorem lookupWhile_map (q : Pattern) (o : LookupOptions)
    (g : σ → Hit β → σ × Bool) (s : σ) :
    (ix.map f).lookupWhile q o g s
      = ix.lookupWhile q o (fun s h => g s (h.map f)) s := by
  rw [lookupWhile, lookupWhile, Search.visitHits_eq, Search.visitHits_eq, map,
    Search.hits_map, Outcomes.visit_mapOk]

end Index

/-! ## Insertion -/

/-- Values are equal if and only if what they are mapped to is. -/
def KeepsEquality [BEq α] [BEq β] (f : α → β) : Prop :=
  ∀ a b, (f a == f b) = (a == b)

section

variable [BEq α] [BEq β] {f : α → β}

namespace Trie

theorem mergeValue_map (hf : KeepsEquality f) (value : α) (vs : List α) :
    mergeValue (f value) (vs.map f) = (mergeValue value vs).map f := by
  induction vs with
  | nil => rfl
  | cons v vs ih =>
      rw [List.map_cons, mergeValue, mergeValue, hf, ih,
        apply_ite (List.map f)]
      rfl

mutual

theorem insert_map (hf : KeepsEquality f) (value : α) :
    ∀ (ks : List Key) (t : Trie α),
      (t.map f).insert ks (f value) = (t.insert ks value).map (map f)
  | ks, .leaf values => by
      rw [map, insert, insert, mergeValue_map hf, apply_ite (Except.map (map f))]
      rfl
  | [], .node branches => by
      rw [map, insert, insert]
      rfl
  | k :: rest, .node branches => by
      rw [map, insert, insert, Forest.branchKeys_mapAll]
      cases Key.place (branchKeys branches) k with
      | found i =>
          dsimp only
          rw [insertAt_map hf value i rest branches]
          cases insertAt i rest value branches with
          | error e => rfl
          | ok bs => rfl
      | missing i =>
          dsimp only [Except.map, map]
          rw [mapAll_eq_map, mapAll_eq_map, List.map_insertIdx, map_single]
  | ks, .path run child => by
      rw [map, insert, insert]
      rcases splitCommon run ks with ⟨common, _ | ⟨p, run'⟩, rest⟩
      · dsimp only
        rw [insert_map hf value rest child]
        cases insert rest value child with
        | error e => rfl
        | ok t => rfl
      · cases rest with
        | nil => rfl
        | cons k rest =>
            dsimp only [Except.map]
            rw [map_along, map_fork, map_along, map_single]

theorem insertAt_map (hf : KeepsEquality f) (value : α) :
    ∀ (i : Nat) (ks : List Key) (bs : List (Key × Trie α)),
      insertAt i ks (f value) (mapAll f bs)
        = (insertAt i ks value bs).map (mapAll f)
  | i, ks, [] => by
      rw [mapAll, insertAt, insertAt]
      rfl
  | 0, ks, (k, t) :: rest => by
      rw [mapAll, insertAt, insertAt, insert_map hf value ks t]
      cases insert ks value t with
      | error e => rfl
      | ok t' => rfl
  | i + 1, ks, (k, t) :: rest => by
      rw [mapAll, insertAt, insertAt, insertAt_map hf value i ks rest]
      cases insertAt i ks value rest with
      | error e => rfl
      | ok bs => rfl

end

end Trie

namespace Forest

omit [BEq α] [BEq β] in
theorem setIn_mapAll (k : Key) (t : Trie α) (bs : List (Key × Trie α)) :
    setIn k (t.map f) (Trie.mapAll f bs) = Trie.mapAll f (setIn k t bs) := by
  induction bs with
  | nil => rfl
  | cons b rest ih =>
      obtain ⟨k', t'⟩ := b
      rw [Trie.mapAll, setIn, setIn]
      cases compare k k' with
      | lt => rfl
      | eq => rfl
      | gt => simp only [Trie.mapAll, ih]

omit [BEq α] [BEq β] in
theorem set_map (forest : Forest α) (k : Key) (t : Trie α) :
    (forest.map f).set k (t.map f) = (forest.set k t).map f := by
  rw [map, map, set, set]
  congr 1
  exact setIn_mapAll k t forest.branches

theorem insert_map (hf : KeepsEquality f) (forest : Forest α) (ks : List Key)
    (value : α) :
    (forest.map f).insert ks (f value)
      = (forest.insert ks value).map (map f) := by
  cases ks with
  | nil => rfl
  | cons k rest =>
      rw [insert, insert, get?_map]
      cases forest.get? k with
      | none =>
          change Except.ok _ = Except.ok _
          rw [← set_map, Trie.map_single]
      | some t =>
          dsimp only [Option.map_some]
          rw [Trie.insert_map hf]
          cases t.insert rest value with
          | error e => rfl
          | ok t' => exact congrArg Except.ok (set_map forest k t')

end Forest

namespace Index

/-- Inserting and mapping may change places. -/
theorem insertKeys_map (hf : KeepsEquality f) (ix : Index α) (ks : List Key)
    (value : α) :
    (ix.map f).insertKeys ks (f value)
      = (ix.insertKeys ks value).map (Except.map (map f)) := by
  rw [insertKeys, insertKeys, map, Forest.insert_map hf]
  cases Key.check ks with
  | error e => rfl
  | ok _ =>
      cases ix.forest.insert ks value with
      | error e => rfl
      | ok forest => rfl

end Index

end

/-! ## Reachable indexes -/

namespace Index

/-- The indexes that come from new ones by insertions, changes of the rules and
maps of the values. -/
inductive Reachable : {α : Type} → Index α → Prop where
  | new {α : Type} (settings : Settings) : Reachable (empty settings : Index α)
  | rules {α : Type} {ix : Index α} (rules : List Conversion) :
      Reachable ix → Reachable (ix.withRules rules)
  | perform {α : Type} [BEq α] {ix ix' : Index α} (op : Insertion α) :
      Reachable ix → ix.perform op = .ok ix' → Reachable ix'
  | map {α β : Type} {ix : Index α} (f : α → β) :
      Reachable ix → Reachable (ix.map f)

section

variable [BEq α] {ix ix' : Index α}

theorem checked_insertPattern (hix : ix.check = .ok ()) (p : Pattern)
    (value : α) :
    ∃ ix', ix.insertPattern p value = .ok ix' ∧ ix'.check = .ok () := by
  obtain ⟨f, hinsert, hshaped, -⟩ :=
    (Forest.check_eq_ok_iff.mp hix).insert_checked p.check_keys value
  refine ⟨{ ix with forest := f }, ?_, Forest.check_eq_ok_iff.mpr hshaped⟩
  rw [insertPattern, hinsert]
  rfl

theorem checked_insertPatterns (hix : ix.check = .ok ()) (ps : List Pattern)
    (value : α) :
    ∃ ix', ps.foldlM (fun ix p => ix.insertPattern p value) ix = .ok ix'
      ∧ ix'.check = .ok () := by
  induction ps generalizing ix with
  | nil => exact ⟨ix, rfl, hix⟩
  | cons p ps ih =>
      obtain ⟨ix₁, hinsert, h₁⟩ := checked_insertPattern hix p value
      obtain ⟨ix', hrest, h'⟩ := ih h₁
      refine ⟨ix', ?_, h'⟩
      rw [List.foldlM_cons, hinsert]
      exact hrest

theorem checked_insertKeys (hix : ix.check = .ok ()) {ks : List Key}
    (hks : Key.check ks = .ok ()) (value : α) :
    ∃ ix', ix.insertKeys ks value = .ok (.ok ix') ∧ ix'.check = .ok () := by
  obtain ⟨f, hinsert, hshaped, -⟩ :=
    (Forest.check_eq_ok_iff.mp hix).insert_checked hks value
  refine ⟨{ ix with forest := f }, ?_, Forest.check_eq_ok_iff.mpr hshaped⟩
  rw [insertKeys, hks, hinsert]
  rfl

theorem checked_perform (hix : ix.check = .ok ()) {op : Insertion α}
    (h : ix.perform op = .ok ix') : ix'.check = .ok () := by
  cases op with
  | keys ks value =>
      rw [perform] at h
      cases hks : Key.check ks with
      | error e =>
          rw [insertKeys, hks] at h
          cases h
          exact hix
      | ok _ =>
          obtain ⟨ix₁, hinsert, h₁⟩ := checked_insertKeys hix hks value
          rw [hinsert] at h
          cases h
          exact h₁
  | pattern p value =>
      obtain ⟨ix₁, hinsert, h₁⟩ := checked_insertPattern hix p value
      obtain rfl := Except.ok.inj (hinsert.symm.trans h)
      exact h₁
  | term host t value =>
      rw [perform, insert] at h
      rcases encodings_cases ix host t with ⟨ps, hps⟩ | hnone
      · obtain ⟨ix₁, hinsert, h₁⟩ := checked_insertPatterns hix ps value
        rw [hps] at h
        obtain rfl := Except.ok.inj (hinsert.symm.trans h)
        exact h₁
      · rw [hnone] at h
        cases h

end

theorem check_map (f : α → β) (ix : Index α) :
    (ix.map f).check = ix.check :=
  ix.forest.check_map f

/-- Whatever is done to an index, it passes the check. -/
theorem Reachable.check {ix : Index α} (h : Reachable ix) :
    ix.check = .ok () := by
  induction h with
  | new settings => rfl
  | rules rules _ ih => exact ih
  | perform op _ hperform ih => exact checked_perform ih hperform
  | map f _ ih => rw [check_map, ih]

/-- In a reachable index no search fails. -/
theorem Reachable.hits {ix : Index α} (h : Reachable ix) (q : Pattern)
    (o : LookupOptions) :
    ∃ hs : List (Hit α), Search.hits o ix.forest q = hs.map .ok := by
  obtain ⟨hs, hhits, -, -⟩ := exists_hits h.check q o
  exact ⟨hs, hhits⟩

/-- **Values never influence a search.** A map of the values of a reachable
index keeps its size, its sequences in their order and its check. A lookup
returns what it did, and a callback is called as it was, with the values mapped
and all else the same. Inserting commutes with a map that neither makes values
equal nor tells equal ones apart: accepted sequences give the same index, and
rejected ones the same error. -/
theorem map_transparent {ix : Index α} (hix : Reachable ix) (f : α → β) :
    (ix.map f).size = ix.size
    ∧ (ix.map f).entries = ix.entries.map (fun e => (e.1, e.2.map f))
    ∧ ix.check = .ok () ∧ (ix.map f).check = .ok ()
    ∧ (∀ q o, ∃ hs, ix.lookupPattern q o = .ok hs
      ∧ (ix.map f).lookupPattern q o = .ok (hs.map (Hit.map f)))
    ∧ (∀ q o (g : σ → Hit β → σ × Bool) s, ∃ answer,
      ix.lookupWhile q o (fun s h => g s (h.map f)) s = .ok answer
      ∧ (ix.map f).lookupWhile q o g s = .ok answer)
    ∧ ∀ [BEq α] [BEq β], KeepsEquality f → ∀ ks value,
      (Key.check ks = .ok () → ∃ ix', ix.insertKeys ks value = .ok (.ok ix')
        ∧ (ix.map f).insertKeys ks (f value) = .ok (.ok (ix'.map f)))
      ∧ ∀ e, Key.check ks = .error e → ix.insertKeys ks value = .error e
        ∧ (ix.map f).insertKeys ks (f value) = .error e := by
  refine ⟨ix.forest.numLeaves_map f, ix.forest.entries_map f, hix.check,
    (hix.map f).check, fun q o => ?_, fun q o g s => ?_,
    fun hf ks value => ⟨fun hks => ?_, fun e hks => ⟨?_, ?_⟩⟩⟩
  · obtain ⟨hs, hhits⟩ := hix.hits q o
    refine ⟨_, lookupPattern_eq hhits, ?_⟩
    rw [lookupPattern_map, lookupPattern_eq hhits]
    rfl
  · obtain ⟨hs, hhits⟩ := hix.hits q o
    rw [lookupWhile_map, lookupWhile, Search.visitHits_eq, hhits]
    obtain ⟨s', -, goOn, hvisit, -, -⟩ :=
      visit_recording (fun s h => g s (h.map f)) hs s []
    exact ⟨(s', goOn), hvisit, hvisit⟩
  · obtain ⟨ix', hinsert, -⟩ := checked_insertKeys hix.check hks value
    refine ⟨ix', hinsert, ?_⟩
    rw [insertKeys_map hf, hinsert]
    rfl
  · rw [insertKeys, hks]
    rfl
  · rw [insertKeys, hks]
    rfl

/-- Two sequences keep apart when their values become equal, and so do their
hits. Values that stay different are inserted as before. -/
theorem map_transparent_merging :
    ∃ (ix ix' : Index Nat) (q : Pattern) (zero ten : Nat → Nat),
      q = .pi .sort (.star (some ⟨0⟩))
      ∧ zero = (fun _ => 0) ∧ ten = (fun n => n + 10)
      ∧ Reachable ix
      ∧ ix.entries
        = [([.pi, .sort, .hidden], [6]), ([.pi, .sort, .sort], [5])]
      ∧ (ix.map zero).entries
        = [([.pi, .sort, .hidden], [0]), ([.pi, .sort, .sort], [0])]
      ∧ (ix.map zero).lookupPattern q .standard
        = .ok [⟨[.pi, .sort, .hidden], [0], 3⟩, ⟨[.pi, .sort, .sort], [0], 2⟩]
      ∧ (ix.map zero).lookupWhile q .standard
          (fun scores h => (scores ++ [h.score], true)) [] = .ok ([3, 2], true)
      ∧ KeepsEquality ten ∧ Key.check [.sort] = .ok ()
      ∧ ix.insertKeys [.sort] 7 = .ok (.ok ix')
      ∧ (ix.map ten).insertKeys [.sort] 17 = .ok (.ok (ix'.map ten))
      ∧ Key.check [.pi, .sort] = .error (.truncated 1)
      ∧ (ix.map ten).insertKeys [.pi, .sort] 17 = .error (.truncated 1) := by
  let q : Pattern := .pi .sort (.star (some ⟨0⟩))
  have hten : KeepsEquality fun n => n + 10 := by
    intro m n
    simp
  obtain ⟨ix₁, h₁⟩ : ∃ ix₁ : Index Nat,
      (empty .standard).perform (.keys [.pi, .sort, .sort] 5) = .ok ix₁ :=
    ⟨_, rfl⟩
  obtain ⟨ix, h₂⟩ : ∃ ix,
      ix₁.perform (.keys [.pi, .sort, .hidden] 6) = .ok ix := by
    cases h₁
    exact ⟨_, rfl⟩
  have hix : Reachable ix := .perform _ (.perform _ (.new .standard) h₁) h₂
  have hplain : ix.entries
      = [([.pi, .sort, .hidden], [6]), ([.pi, .sort, .sort], [5])] := by
    cases h₁
    cases h₂
    rfl
  obtain ⟨-, hentries, -, -, hpattern, hwhile, -⟩ :=
    map_transparent hix fun _ => 0
  let high : Hit Nat := ⟨[.pi, .sort, .hidden], [6], 3⟩
  let low : Hit Nat := ⟨[.pi, .sort, .sort], [5], 2⟩
  have hhits : Search.hits .standard ix.forest q = [high, low].map .ok := by
    cases h₁
    cases h₂
    rfl
  have hranked : Search.ranked [high, low] = [high, low] :=
    List.mergeSort_of_pairwise (by simp [high, low])
  obtain ⟨hs, hlisted, hmapped⟩ := hpattern q .standard
  have hmerged : [high, low].foldl mergeHit [] = [high, low] := rfl
  obtain rfl : [high, low] = hs := by
    rw [lookupPattern_eq hhits, hmerged, hranked,
      LookupOptions.limited_eq rfl rfl] at hlisted
    exact Except.ok.inj hlisted
  obtain ⟨answer, hplainly, hcalls⟩ := hwhile q .standard
    (fun scores h => (scores ++ [h.score], true)) []
  have hanswer : answer = ([3, 2], true) := by
    cases h₁
    cases h₂
    exact (Except.ok.inj hplainly).symm
  obtain ⟨-, -, -, -, -, -, hinsert⟩ :=
    map_transparent (σ := Nat) hix fun n => n + 10
  obtain ⟨ix', hkeys, hkeys'⟩ := (hinsert hten [.sort] 7).1 (by decide)
  obtain ⟨-, hrejected⟩ :=
    (hinsert hten [.pi, .sort] 7).2 (.truncated 1) (by decide)
  rw [hplain] at hentries
  rw [hanswer] at hcalls
  exact ⟨ix, ix', q, fun _ => 0, fun n => n + 10, rfl, rfl, rfl, hix, hplain,
    hentries, hmapped, hcalls, hten, by decide, hkeys, hkeys', by decide,
    hrejected⟩

end Index

end TermIndex
