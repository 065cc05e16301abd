import TermIndex.Proofs.Entries
import TermIndex.Search.Unify

/-!
# Searches in a mapped forest

A map of the values changes nothing but the values. Every function on tries,
positions and threads commutes with it: what a function sees of a value is
passed on and never looked at. So a search of the mapped forest is the search of
the original one with the values mapped at the end (`hits_map`), whatever shape
the tries have.
-/

namespace TermIndex

variable {α β : Type}

/-! ## Tries -/

namespace Trie

variable (f : α → β)

theorem mapAll_eq_map (bs : List (Key × Trie α)) :
    mapAll f bs = bs.map fun b => (b.1, b.2.map f) := by
  induction bs with
  | nil => rfl
  | cons b bs ih =>
      obtain ⟨k, t⟩ := b
      rw [mapAll, ih, List.map_cons]

theorem length_mapAll (bs : List (Key × Trie α)) :
    (mapAll f bs).length = bs.length := by
  rw [mapAll_eq_map, List.length_map]

theorem map_along (ks : List Key) (child : Trie α) :
    (along ks child).map f = along ks (child.map f) := by
  unfold along
  split
  · rfl
  · rw [map]

theorem map_single (ks : List Key) (value : α) :
    (single ks value).map f = single ks (f value) := by
  rw [single, map_along, map, List.map_singleton, single]

theorem map_fork (a b : Key × Trie α) :
    (fork a b).map f = fork (a.1, a.2.map f) (b.1, b.2.map f) := by
  unfold fork
  split
  · simp only [map, mapAll]
  · simp only [map, mapAll]

theorem isPath_map (t : Trie α) : (t.map f).isPath = t.isPath := by
  cases t with
  | leaf _ => rfl
  | path _ _ => rfl
  | node _ => rfl

theorem values?_map (t : Trie α) :
    (t.map f).values? = t.values?.map (List.map f) := by
  cases t with
  | leaf _ => rfl
  | path _ _ => rfl
  | node _ => rfl

theorem branch?_mapAll (bs : List (Key × Trie α)) (k : Key) :
    branch? (mapAll f bs) k = (branch? bs k).map (map f) := by
  unfold branch?
  rw [Forest.branchKeys_mapAll]
  cases Key.place (branchKeys bs) k with
  | found i => simp [mapAll_eq_map, Function.comp_def]
  | missing i => rfl

mutual

theorem entriesFrom_map : ∀ (front : List Key) (t : Trie α),
    (t.map f).entriesFrom front
      = (t.entriesFrom front).map fun e => (e.1, e.2.map f)
  | front, .leaf values => by
      rw [map, entriesFrom, entriesFrom, List.map_singleton]
  | front, .path keys child => by
      rw [map, entriesFrom, entriesFrom, entriesFrom_map]
  | front, .node branches => by
      rw [map, entriesFrom, entriesFrom, entriesFromAll_map]

theorem entriesFromAll_map : ∀ (front : List Key) (bs : List (Key × Trie α)),
    entriesFromAll front (mapAll f bs)
      = (entriesFromAll front bs).map fun e => (e.1, e.2.map f)
  | front, [] => rfl
  | front, (k, t) :: rest => by
      rw [mapAll, entriesFromAll, entriesFromAll, entriesFrom_map,
        entriesFromAll_map, List.map_append]

end

mutual

theorem check_map : ∀ (pending : Nat) (t : Trie α),
    (t.map f).check pending = t.check pending
  | pending, .leaf values => by
      rw [map, check, check, List.isEmpty_map]
  | pending, .path keys child => by
      rw [map, check, check, isPath_map]
      simp only [check_map _ child]
  | pending, .node branches => by
      have hkeys : (mapAll f branches).map Prod.fst = branches.map Prod.fst :=
        Forest.branchKeys_mapAll f branches
      rw [map, check, check, length_mapAll, hkeys, checkAll_map]

theorem checkAll_map : ∀ (pending : Nat) (bs : List (Key × Trie α)),
    checkAll pending (mapAll f bs) = checkAll pending bs
  | pending, [] => rfl
  | pending, (k, t) :: rest => by
      rw [mapAll, checkAll, checkAll]
      simp only [check_map _ t, checkAll_map pending rest]

end

end Trie

namespace Forest

variable (f : α → β) (forest : Forest α)

theorem entries_map :
    (forest.map f).entries
      = forest.entries.map fun e => (e.1, e.2.map f) :=
  Trie.entriesFromAll_map f [] forest.branches

theorem numLeaves_map : (forest.map f).numLeaves = forest.numLeaves := by
  rw [numLeaves_eq_length, numLeaves_eq_length, entries_map, List.length_map]

theorem check_map : (forest.map f).check = forest.check :=
  Trie.checkAll_map f 1 forest.branches

theorem get?_map (k : Key) :
    (forest.map f).get? k = (forest.get? k).map (Trie.map f) := by
  change (Trie.mapAll f forest.branches).lookup k = (forest.get? k).map _
  rw [get?, Trie.mapAll_eq_map]
  induction forest.branches with
  | nil => rfl
  | cons b rest ih =>
      rw [List.map_cons, List.lookup_cons, List.lookup_cons]
      cases k == b.1 with
      | true => rfl
      | false => exact ih

end Forest

/-! ## Positions -/

namespace Position

def map (f : α → β) : Position α → Position β
  | .root forest => .root (forest.map f)
  | .inside t => .inside (t.map f)

variable (f : α → β) (p : Position α)

theorem isRoot_map : (p.map f).isRoot = p.isRoot := by
  cases p with
  | root _ => rfl
  | inside _ => rfl

theorem values?_map : (p.map f).values? = p.values?.map (List.map f) := by
  cases p with
  | root _ => rfl
  | inside t => exact t.values?_map f

theorem fault?_map : (p.map f).fault? = p.fault? := by
  rcases p with _ | _ | ⟨_ | _, _⟩ | _
  · rfl
  · rfl
  · rfl
  · rfl
  · rfl

theorem child?_map (k : Key) :
    (p.map f).child? k = (p.child? k).map (map f) := by
  rcases p with forest | _ | ⟨_ | ⟨k', ks⟩, child⟩ | branches
  · simp [map, child?, Forest.get?_map, Function.comp_def]
  · rfl
  · rfl
  · simp only [map, Trie.map, child?]
    split
    · rw [Option.map_some, map, Trie.map_along]
    · rfl
  · simp [map, Trie.map, child?, Trie.branch?_mapAll, Function.comp_def]

theorem leadingStars_mapAll (bs : List (Key × Trie α)) :
    leadingStars (Trie.mapAll f bs)
      = (leadingStars bs).map fun s => (s.1, s.2.map f) := by
  induction bs with
  | nil => rfl
  | cons b rest ih =>
      obtain ⟨k, t⟩ := b
      cases k with
      | star id =>
          simp only [Trie.mapAll, leadingStars, List.map_cons, ih]
          rfl
      | _ => rfl

theorem starChildren_map :
    (p.map f).starChildren
      = p.starChildren.map fun s => (s.1, s.2.map f) := by
  rcases p with forest | _ | ⟨_ | ⟨k, ks⟩, child⟩ | branches
  · simp only [map, starChildren, Forest.before, Forest.map, Trie.mapAll_eq_map,
      List.takeWhile_map, List.filterMap_map, List.map_filterMap,
      Function.comp_def, Option.map_map]
  · rfl
  · rfl
  · cases k with
    | star id =>
        simp only [map, Trie.map, starChildren, List.map_singleton,
          Trie.map_along]
    | _ => rfl
  · exact leadingStars_mapAll f branches

end Position

/-! ## Skipping subtrees -/

namespace Outcomes

variable {γ δ : Type}

theorem mapOk_append (g : α → β) (os qs : Outcomes α) :
    mapOk g (os ++ qs) = mapOk g os ++ mapOk g qs :=
  List.map_append ..

theorem mapOk_mapOk (g : α → β) (h : β → γ) (os : Outcomes α) :
    mapOk h (mapOk g os) = mapOk (h ∘ g) os := by
  unfold mapOk
  rw [List.map_map]
  congr 1
  funext o
  cases o with
  | error e => rfl
  | ok a => rfl

/-- What follows commutes with a map if it does so from every outcome. -/
theorem mapOk_andThen {g : α → β} {h : γ → δ} {next : α → Outcomes γ}
    {next' : β → Outcomes δ} (hnext : ∀ a, next' (g a) = mapOk h (next a))
    (os : Outcomes α) :
    (mapOk g os).andThen next' = mapOk h (os.andThen next) := by
  induction os with
  | nil => rfl
  | cons o os ih =>
      unfold andThen mapOk at ih ⊢
      rw [List.map_cons, List.flatMap_cons, List.flatMap_cons, List.map_append,
        ih]
      cases o with
      | error e => rfl
      | ok a => exact congrArg (· ++ _) (hnext a)

end Outcomes

open Outcomes

namespace Trie

variable (f : α → β)

mutual

theorem skips_map : ∀ (pending : Nat) (t : Trie α),
    (t.map f).skips pending
      = mapOk (fun s => (s.1, s.2.map f)) (t.skips pending)
  | 0, t => by
      rw [skips, skips]
      rfl
  | _ + 1, .leaf _ => by
      rw [map, skips, skips]
      rfl
  | _ + 1, .path [] _ => by
      rw [map, skips, skips]
      rfl
  | pending + 1, .path (k :: ks) child => by
      rw [map, skips, skips]
      · dsimp only
        split
        · rw [← map_along]
          rfl
        · rw [skips_map _ child, mapOk_mapOk, mapOk_mapOk]
          rfl
      · nofun
      · nofun
  | pending + 1, .node branches => by
      rw [map, skips, skips, skipsAll_map]

theorem skipsAll_map : ∀ (pending : Nat) (bs : List (Key × Trie α)),
    skipsAll pending (mapAll f bs)
      = mapOk (fun s => (s.1, s.2.map f)) (skipsAll pending bs)
  | pending, [] => rfl
  | pending, (k, t) :: rest => by
      rw [mapAll, skipsAll, skipsAll, skips_map _ t, skipsAll_map pending rest,
        mapOk_append, mapOk_mapOk, mapOk_mapOk]
      rfl

end

end Trie

theorem Position.skips_map (f : α → β) (p : Position α) :
    (p.map f).skips = mapOk (fun s => (s.1, s.2.map f)) p.skips := by
  cases p with
  | root forest => exact Trie.skipsAll_map f 0 forest.branches
  | inside t => exact Trie.skips_map f 1 t

/-! ## Searching -/

namespace Thread

def map (f : α → β) (t : Thread α) : Thread β :=
  { t with here := t.here.map f }

variable (f : α → β) (t : Thread α)

theorem starsAllowed_map (o : LookupOptions) :
    (t.map f).starsAllowed o = t.starsAllowed o := by
  unfold starsAllowed map
  rw [Position.isRoot_map]

theorem exact_map (k : Key) : (t.map f).exact k = (t.exact k).map (map f) := by
  unfold exact
  rw [Option.map_map, map, Position.child?_map, Option.map_map]
  rfl

theorem takenBy_map (p : Pattern) :
    (t.map f).takenBy p = (t.takenBy p).map (map f) := by
  unfold takenBy
  rw [map, Position.starChildren_map, List.filterMap_map, List.map_filterMap]
  congr 1
  funext s
  dsimp only [Function.comp_apply]
  cases t.stars.lookup s.1 with
  | none => rfl
  | some bound => rw [apply_ite (Option.map (map f))]; rfl

theorem skipped_map (m : Option MVar) (ks : List Key) (below : Trie α) :
    (t.map f).skipped m ks (below.map f)
      = (t.skipped m ks below).map (map f) := by
  unfold skipped
  cases m with
  | none => rfl
  | some m =>
      dsimp only [map]
      cases t.mvars.lookup m with
      | none => rfl
      | some bound => rw [apply_ite (Option.map _)]; rfl

end Thread

def Hit.map (f : α → β) (h : Hit α) : Hit β :=
  ⟨h.keys, h.values.map f, h.score⟩

namespace Search

variable (f : α → β) (o : LookupOptions)

theorem around_map {p : Pattern} {below : Thread α → Outcomes (Thread α)}
    {below' : Thread β → Outcomes (Thread β)}
    (hbelow : ∀ t, below' (t.map f) = mapOk (Thread.map f) (below t))
    (t : Thread α) :
    around o p below' (t.map f) = mapOk (Thread.map f) (around o p below t) := by
  have hstars : (if t.starsAllowed o then ((t.takenBy p).map (Thread.map f)).map
        .ok else [] : Outcomes (Thread β))
      = mapOk (Thread.map f)
        (if t.starsAllowed o then (t.takenBy p).map .ok else []) := by
    split
    · rw [mapOk, List.map_map, List.map_map]
      rfl
    · rfl
  have hexact : p.key?.bind (t.map f).exact
      = (p.key?.bind t.exact).map (Thread.map f) := by
    cases p.key? with
    | none => rfl
    | some k => exact t.exact_map f k
  have hfault : (t.map f).here.fault? = t.here.fault? := t.here.fault?_map f
  unfold around
  rw [hfault, hexact, Thread.starsAllowed_map, Thread.takenBy_map, hstars]
  cases t.here.fault? with
  | some e => rfl
  | none =>
      cases p.key?.bind t.exact with
      | none => rfl
      | some next =>
          dsimp only [Option.map_some]
          rw [hbelow, mapOk_append]

theorem skipping_map (m : Option MVar) (t : Thread α) :
    skipping o m (t.map f) = mapOk (Thread.map f) (skipping o m t) := by
  have hskips : (t.map f).here.skips
      = mapOk (fun s => (s.1, s.2.map f)) t.here.skips :=
    t.here.skips_map f
  unfold skipping
  rw [Thread.starsAllowed_map, hskips]
  split
  · refine mapOk_andThen (fun s => ?_) t.here.skips
    dsimp only
    rw [Thread.skipped_map]
    cases t.skipped m s.1 s.2 with
    | none => rfl
    | some next => rfl
  · rfl

mutual

theorem unify_map : ∀ (p : Pattern) (t : Thread α),
    unify o p (t.map f) = mapOk (Thread.map f) (unify o p t)
  | .star m, t => by
      rw [unify, unify]
      split
      · exact skipping_map f o m t
      · exact around_map f o (fun _ => rfl) t
  | .app h args, t => by
      rw [unify, unify]
      exact around_map f o (unifyAll_map args) t
  | .lam body, t => by
      rw [unify, unify]
      exact around_map f o (unify_map body) t
  | .pi domain body, t => by
      rw [unify, unify]
      refine around_map f o (fun t => ?_) t
      rw [unify_map domain]
      exact mapOk_andThen (unify_map body) _
  | .proj st i value args, t => by
      rw [unify, unify]
      refine around_map f o (fun t => ?_) t
      rw [unify_map value]
      exact mapOk_andThen (unifyAll_map args) _
  | .hidden, t | .fixed _, t | .lit _, t | .sort, t => by
      rw [unify, unify]
      exact around_map f o (fun _ => rfl) t

theorem unifyAll_map : ∀ (ps : List Pattern) (t : Thread α),
    unifyAll o ps (t.map f) = mapOk (Thread.map f) (unifyAll o ps t)
  | [], t => by
      rw [unifyAll, unifyAll]
      rfl
  | p :: ps, t => by
      rw [unifyAll, unifyAll, unify_map p]
      exact mapOk_andThen (unifyAll_map ps) _

end

theorem finish_map (t : Thread α) :
    finish (t.map f) = (finish t).map (Hit.map f) := by
  have hvalues : (t.map f).here.values? = t.here.values?.map (List.map f) :=
    t.here.values?_map f
  unfold finish
  rw [hvalues]
  cases t.here.values? with
  | none => rfl
  | some values => rfl

/-- A search finds the same in the mapped forest, in the same order and with the
same scores. -/
theorem hits_map (forest : Forest α) (q : Pattern) :
    hits o (forest.map f) q = mapOk (Hit.map f) (hits o forest q) := by
  have hstart : Thread.start (forest.map f) = (Thread.start forest).map f := rfl
  unfold hits
  split
  · rfl
  · rw [hstart, unify_map]
    refine mapOk_andThen (fun t => ?_) _
    rw [finish_map]
    rfl

end Search

end TermIndex
