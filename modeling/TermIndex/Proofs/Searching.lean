import TermIndex.Proofs.FiniteMap
import TermIndex.Proofs.Matching

/-!
# Searching matches every entry on its own

A thread stands for a walk along every entry below its position
(`Thread.spread`). One step of the search takes all these walks one step on:
`Follows n step one` says that the outcomes of `step` spread out to the walks
that `one` leads to, up to order, and that none of them is a fault. The number
`n` of subtrees that the step consumes carries the shape of the forest along.

The three ways on are simulated one by one, and `follows_unify` puts them
together along the query. Only the order is not kept: the search tries the
exact key before the stars, which come first among the entries.
-/

namespace TermIndex

variable {α : Type}

namespace Thread

/-! ## Threads and walks -/

/-- The walk of a thread along one entry below its position. -/
def walk (s : Thread α) (e : List Key × List α) : Walk α :=
  ⟨e.1, e.2, s.walked, s.stars, s.mvars, s.score⟩

/-- The walks along all entries below the position of a thread. -/
def spread (s : Thread α) : List (Walk α) := s.here.entries.map s.walk

/-- A thread at a place of the right shape, where this many subtrees are owed.
It is at the root if it has not walked. -/
structure Sound (n : Nat) (s : Thread α) : Prop where
  shaped : s.here.Shaped n
  isRoot : s.here.isRoot = s.walked.isEmpty

theorem sound_start {f : Forest α} (h : f.Shaped) : (start f).Sound 1 :=
  ⟨⟨rfl, h⟩, rfl⟩

/-- The walks of a thread may use wildcards if the thread may. -/
theorem filterMap_starsAllowed {β : Type} {n : Nat} {s : Thread α}
    (h : s.Sound n) (o : LookupOptions) (step : Walk α → Option β) :
    (s.spread.filterMap fun w => if w.starsAllowed o then step w else none)
      = if s.starsAllowed o then s.spread.filterMap step else [] := by
  have hallowed : ∀ w ∈ s.spread, w.starsAllowed o = s.starsAllowed o := by
    intro w hw
    obtain ⟨e, -, rfl⟩ := List.mem_map.mp hw
    rw [Thread.starsAllowed, h.isRoot]
    rfl
  rw [List.filterMap_congr fun w hw => by rw [hallowed w hw]]
  cases s.starsAllowed o with
  | false => exact List.filterMap_none _
  | true => rfl

theorem sound_inside {n : Nat} {s : Thread α} {t : Trie α}
    (ht : Trie.Shaped n t)
    (hhere : s.here = .inside t) (hwalked : s.walked ≠ []) : s.Sound n := by
  refine ⟨?_, ?_⟩
  · rw [hhere]
    exact ht
  · rw [hhere]
    simpa [Position.isRoot] using hwalked.symm

theorem filterMap_walk {next : Option (Thread α)}
    {es : List (List Key × List α)} (h : ∀ s ∈ next, s.here.entries = es) :
    es.filterMap (fun e => next.map fun s => s.walk e)
      = next.toList.flatMap spread := by
  cases next with
  | none => simp
  | some s => simp [spread, h s rfl]

/-! ## The ways on -/

/-- The thread that a stored star leads to, if it can take the subtree `p`. -/
def take (s : Thread α) (p : Pattern) (id : Nat) (here : Position α) :
    Option (Thread α) :=
  match s.stars.lookup id with
  | some bound =>
    if bound = p then some (s.advance [.star id] here p.size) else none
  | none =>
    some { s.advance [.star id] here 0 with stars := (id, p) :: s.stars }

theorem takenBy_eq (s : Thread α) (p : Pattern) :
    s.takenBy p = s.here.starChildren.filterMap fun c => s.take p c.1 c.2 := rfl

theorem take_eq_some {s t : Thread α} {p : Pattern} {id : Nat}
    {here : Position α} (h : s.take p id here = some t) :
    t.here = here ∧ t.walked = s.walked ++ [.star id] := by
  unfold take at h
  split at h
  · split at h
    · cases h
      exact ⟨rfl, rfl⟩
    · cases h
  · cases h
    exact ⟨rfl, rfl⟩

theorem skipped_eq_some {s next : Thread α} {m : Option MVar}
    {ks : List Key} {t : Trie α} (h : s.skipped m ks t = some next) :
    next.here = .inside t ∧ next.walked = s.walked ++ ks := by
  cases m with
  | none =>
      cases h
      exact ⟨rfl, rfl⟩
  | some m =>
      simp only [Thread.skipped] at h
      split at h
      · split at h
        · cases h
          exact ⟨rfl, rfl⟩
        · cases h
      · cases h
        exact ⟨rfl, rfl⟩

theorem exact_walk (s : Thread α) (k c : Key) (t : Trie α)
    (e : List Key × List α) :
    (s.walk (Trie.under [c] e)).exact k
      = if c = k then some
        ((s.advance [k] (.inside t) (if k = .lam then 0 else 1)).walk e)
        else none := by
  by_cases hk : c = k
  · subst hk
    rw [if_pos rfl]
    exact if_pos rfl
  · rw [if_neg hk]
    exact if_neg hk

theorem taken_walk (s : Thread α) (p : Pattern) (id : Nat) (here : Position α)
    (e : List Key × List α) :
    (s.walk (Trie.under [.star id] e)).taken p
      = (s.take p id here).map fun t => t.walk e := by
  unfold take
  cases hid : s.stars.lookup id with
  | none => simp [Walk.taken, walk, Trie.under, hid, advance, Walk.advance]
  | some bound =>
      by_cases hbound : bound = p
      · simp [Walk.taken, walk, Trie.under, hid, hbound, advance, Walk.advance]
      · simp [Walk.taken, walk, Trie.under, hid, hbound]

theorem skipped_walk (s : Thread α) (m : Option MVar)
    (ks : List Key) (t : Trie α) (e : List Key × List α) :
    (s.walk (Trie.under ks e)).skipped m ks e.1
      = (s.skipped m ks t).map fun s => s.walk e := by
  cases m with
  | none => rfl
  | some m =>
      unfold Thread.skipped
      cases hm : s.mvars.lookup m with
      | none => simp [Walk.skipped, walk, Trie.under, hm, advance, Walk.advance]
      | some bound =>
          by_cases hbound : bound = ks
          · simp [Walk.skipped, walk, Trie.under, hm, hbound, advance,
              Walk.advance]
          · simp [Walk.skipped, walk, Trie.under, hm, hbound]

theorem skip_walk (s : Thread α) (m : Option MVar) {ks : List Key}
    (hks : Key.Completes 1 ks) (t : Trie α) (e : List Key × List α) :
    (s.walk (Trie.under ks e)).skip m
      = (s.skipped m ks t).map fun s => s.walk e := by
  have htake : Key.takeSubtrees 1 (s.walk (Trie.under ks e)).ahead
      = (ks, 0, e.1) :=
    Key.takeSubtrees_append hks e.1
  rw [← skipped_walk, Walk.skip, htake]
  rfl

/-! ## Below the branches of a position -/

section

variable {n : Nat} {s : Thread α} {bs : List (Key × Trie α)}

theorem spread_filterMap_branches {β : Type} (hbs : s.here.Branching n bs)
    (step : Walk α → Option β) :
    s.spread.filterMap step
      = bs.flatMap fun b =>
          b.2.entries.filterMap fun e =>
            step (s.walk (Trie.under [b.1] e)) := by
  rw [spread, hbs.entries, List.filterMap_map, Trie.branchEntries,
    List.filterMap_flatMap]
  simp only [List.filterMap_map]
  rfl

/-- The thread behind the exact key stands for the walks behind it. -/
theorem spread_exact (hbs : s.here.Branching n bs) (k : Key) :
    (s.exact k).toList.flatMap spread
      = s.spread.filterMap fun w => w.exact k := by
  have hwalk : ∀ b : Key × Trie α,
      (b.2.entries.filterMap fun e => (s.walk (Trie.under [b.1] e)).exact k)
        = if b.1 = k then
            (s.advance [k] (.inside b.2) (if k = .lam then 0 else 1)).spread
          else [] := by
    intro b
    simp only [s.exact_walk k b.1 b.2]
    by_cases hk : b.1 = k
    · simp only [if_pos hk]
      exact congrFun List.filterMap_eq_map b.2.entries
    · simp only [if_neg hk]
      exact List.filterMap_none _
  rw [spread_filterMap_branches hbs]
  simp only [hwalk]
  rw [Trie.flatMap_lookup hbs.increasing k
    fun t => (s.advance [k] (.inside t) (if k = .lam then 0 else 1)).spread,
    Thread.exact, hbs.child?]
  cases bs.lookup k <;> simp

/-- The threads behind stored stars stand for the walks behind them. -/
theorem spread_takenBy (hbs : s.here.Branching n bs) (p : Pattern) :
    (s.takenBy p).flatMap spread = s.spread.filterMap fun w => w.taken p := by
  rw [spread_filterMap_branches hbs, takenBy_eq, hbs.starChildren,
    Position.starBranches, List.filterMap_filterMap,
    List.filterMap_eq_flatMap_toList, List.flatMap_assoc]
  refine List.flatMap_congr fun b _ => ?_
  cases hid : b.1.starId? with
  | none =>
      have htaken : ∀ e, (s.walk (Trie.under [b.1] e)).taken p = none := by
        intro e
        cases hb : b.1 with
        | star id =>
            rw [hb] at hid
            cases hid
        | _ => rfl
      simp [htaken]
  | some id =>
      have htaken := s.taken_walk p id (.inside b.2)
      rw [← Key.starId?_eq_some_iff.mp hid] at htaken
      simp only [htaken, Option.map_some, Option.bind_some]
      refine (filterMap_walk fun t ht => ?_).symm
      rw [(take_eq_some ht).1]
      rfl

/-- The threads behind a skipped subtree stand for the walks behind it. -/
theorem spread_skipped {rs : List (List Key × Trie α)}
    (hentries : s.here.entries = Trie.skippedEntries rs)
    (hrs : ∀ r ∈ rs, Key.Completes 1 r.1) (m : Option MVar) :
    (rs.filterMap fun r => s.skipped m r.1 r.2).flatMap spread
      = s.spread.filterMap fun w => w.skip m := by
  rw [spread, hentries, List.filterMap_map, Trie.skippedEntries,
    List.filterMap_flatMap,
    List.filterMap_eq_flatMap_toList, List.flatMap_assoc]
  refine List.flatMap_congr fun r hr => ?_
  rw [List.filterMap_map]
  have hskip : ((fun w : Walk α => w.skip m) ∘ s.walk) ∘ Trie.under r.1
      = fun e => (s.skipped m r.1 r.2).map fun t => t.walk e :=
    funext fun e => s.skip_walk m (hrs r hr) r.2 e
  rw [hskip]
  refine (filterMap_walk fun t ht => ?_).symm
  rw [(skipped_eq_some ht).1]
  rfl

end

end Thread

/-! ## Outcomes that spread out to walks -/

theorem Outcomes.andThen_ok {β γ : Type} (bs : List β) (f : β → Outcomes γ) :
    Outcomes.andThen (bs.map .ok) f = bs.flatMap f := by
  simp [Outcomes.andThen, List.flatMap_map]

open Thread

/-- The outcomes are no faults, and together they stand for the walks. -/
def SpreadsTo (j : Nat) (os : Outcomes (Thread α))
    (ws : List (Walk α)) : Prop :=
  ∃ ts : List (Thread α), os = ts.map .ok ∧ (∀ t ∈ ts, t.Sound j)
    ∧ (ts.flatMap spread).Perm ws

namespace SpreadsTo

variable {j : Nat} {os os' : Outcomes (Thread α)} {ws ws' : List (Walk α)}

theorem nil : SpreadsTo j ([] : Outcomes (Thread α)) [] :=
  ⟨[], rfl, List.forall_mem_nil _, List.Perm.refl _⟩

theorem single {s : Thread α} (h : s.Sound j) : SpreadsTo j [.ok s] s.spread :=
  ⟨[s], rfl, List.forall_mem_singleton.mpr h, by simp⟩

theorem perm (h : SpreadsTo j os ws) (hws : ws.Perm ws') :
    SpreadsTo j os ws' := by
  obtain ⟨ts, hos, hts, hspread⟩ := h
  exact ⟨ts, hos, hts, hspread.trans hws⟩

theorem append (h : SpreadsTo j os ws) (h' : SpreadsTo j os' ws') :
    SpreadsTo j (os ++ os') (ws ++ ws') := by
  obtain ⟨ts, rfl, hts, hspread⟩ := h
  obtain ⟨ts', rfl, hts', hspread'⟩ := h'
  refine ⟨ts ++ ts', List.map_append.symm,
    List.forall_mem_append.mpr ⟨hts, hts'⟩, ?_⟩
  rw [List.flatMap_append]
  exact hspread.append hspread'

/-- Going on from every outcome takes every walk on. -/
theorem andThen {i : Nat} {next : Thread α → Outcomes (Thread α)}
    {one : Walk α → Option (Walk α)} (h : SpreadsTo i os ws)
    (hnext : ∀ s, Sound i s → SpreadsTo j (next s) (s.spread.filterMap one)) :
    SpreadsTo j (os.andThen next) (ws.filterMap one) := by
  obtain ⟨ts, rfl, hts, hspread⟩ := h
  refine perm ?_ (hspread.filterMap one)
  clear hspread
  induction ts with
  | nil => exact nil
  | cons t ts ih =>
      obtain ⟨ht, hts⟩ := List.forall_mem_cons.mp hts
      rw [List.flatMap_cons, List.filterMap_append]
      exact (hnext t ht).append (ih hts)

end SpreadsTo

/-- A step of the search, on `n` subtrees, takes every walk one step on. -/
def Follows (n : Nat) (step : Thread α → Outcomes (Thread α))
    (one : Walk α → Option (Walk α)) : Prop :=
  ∀ (s : Thread α) (j : Nat), s.Sound (n + j) →
    SpreadsTo j (step s) (s.spread.filterMap one)

theorem follows_ok : Follows 0 (fun s : Thread α => [.ok s]) some := by
  intro s j hs
  rw [Nat.zero_add] at hs
  rw [List.filterMap_some]
  exact .single hs

theorem Follows.andThen {n m : Nat} {step next : Thread α → Outcomes (Thread α)}
    {one other : Walk α → Option (Walk α)} (h : Follows n step one)
    (h' : Follows m next other) :
    Follows (n + m) (fun s => (step s).andThen next)
      fun w => (one w).bind other := by
  intro s j hs
  rw [Nat.add_assoc] at hs
  rw [← List.filterMap_filterMap]
  exact (h s (m + j) hs).andThen fun t ht => h' t j ht

/-! ## Nodes of the query -/

/-- Two partial functions that are never both defined gather what one does that
tries the first and then the second. -/
theorem filterMap_append_perm {β γ : Type} {f g : β → Option γ} : ∀ {xs : List β},
    (∀ x ∈ xs, f x = none ∨ g x = none) →
      (xs.filterMap f ++ xs.filterMap g).Perm
        (xs.filterMap fun x => (f x).or (g x))
  | [], _ => List.Perm.refl _
  | x :: xs, h => by
      obtain ⟨hx, hxs⟩ := List.forall_mem_cons.mp h
      have ih := filterMap_append_perm hxs
      cases hf : f x with
      | none =>
          cases hg : g x with
          | none => simpa [hf, hg] using ih
          | some z =>
              simp only [List.filterMap_cons, hf, hg, Option.none_or]
              exact List.perm_middle.trans (ih.cons z)
      | some y =>
          have hg : g x = none := hx.resolve_left (by simp [hf])
          simp only [List.filterMap_cons, hf, hg, Option.some_or,
            List.cons_append]
          exact ih.cons y

theorem sound_exact {j : Nat} {s next : Thread α}
    {bs : List (Key × Trie α)} {k : Key}
    (hbs : s.here.Branching j bs) (h : s.exact k = some next) :
    next.Sound (j + k.arity) := by
  rw [Thread.exact, hbs.child?] at h
  obtain ⟨here, hhere, rfl⟩ := Option.map_eq_some_iff.mp h
  obtain ⟨t, ht, rfl⟩ := Option.map_eq_some_iff.mp hhere
  obtain ⟨pre, post, rfl, -⟩ := List.lookup_eq_some_iff.mp ht
  exact sound_inside (hbs.shaped (k, t) (by simp)) rfl (by simp [advance])

theorem sound_takenBy {j : Nat} {s next : Thread α} {bs : List (Key × Trie α)}
    {p : Pattern}
    (hbs : s.here.Branching j bs) (h : next ∈ s.takenBy p) : next.Sound j := by
  rw [takenBy_eq, hbs.starChildren] at h
  obtain ⟨⟨id, here⟩, hc, htake⟩ := List.mem_filterMap.mp h
  obtain ⟨b, hb, hstar⟩ := List.mem_filterMap.mp hc
  obtain ⟨id', hid, hpair⟩ := Option.map_eq_some_iff.mp hstar
  obtain ⟨rfl, rfl⟩ := Prod.mk.inj hpair
  obtain ⟨hhere, hwalked⟩ := take_eq_some htake
  have hshaped := hbs.shaped b hb
  rw [Key.starId?_eq_some_iff.mp hid] at hshaped
  exact sound_inside hshaped hhere (by simp [hwalked])

theorem spreadsTo_takenBy {j : Nat} {s : Thread α} {bs : List (Key × Trie α)}
    (hs : s.Sound (j + 1)) (hbs : s.here.Branching j bs) (o : LookupOptions)
    (p : Pattern) :
    SpreadsTo j (if s.starsAllowed o then (s.takenBy p).map .ok else [])
      (s.spread.filterMap fun w =>
        if w.starsAllowed o then w.taken p else none) := by
  rw [filterMap_starsAllowed hs]
  cases s.starsAllowed o with
  | false => exact SpreadsTo.nil
  | true =>
      exact ⟨s.takenBy p, rfl, fun t ht => sound_takenBy hbs ht,
        List.Perm.of_eq (spread_takenBy hbs p)⟩

/-- A node that is no wildcard of the query: `below` goes on behind its key. -/
theorem Follows.around {n : Nat} {below : Thread α → Outcomes (Thread α)}
    {one : Walk α → Option (Walk α)} (h : Follows n below one)
    (o : LookupOptions) {p : Pattern} (hp : ∀ k ∈ p.key?, k.arity = n) :
    Follows 1 (Search.around o p below) (Walk.around o p one) := by
  intro s j hs
  rw [Nat.add_comm] at hs
  obtain ⟨bs, hbs⟩ := hs.shaped.branching
  have hways : (s.spread.filterMap (fun w => (p.key?.bind w.exact).bind one)
      ++ s.spread.filterMap fun w =>
        if w.starsAllowed o then w.taken p else none).Perm
        (s.spread.filterMap (Walk.around o p one)) := by
    refine filterMap_append_perm fun w _ => ?_
    rcases Walk.around_exclusive p one w with hnone | hnone
    · exact Or.inl hnone
    · refine Or.inr ?_
      rw [hnone, ite_self]
  unfold Search.around
  rw [hbs.fault?]
  -- The outcomes behind the exact key come first. Among the walks they stand
  -- behind those that a star leads to.
  refine SpreadsTo.perm
    (SpreadsTo.append ?_ (spreadsTo_takenBy hs hbs o p)) hways
  cases hk : p.key? with
  | none => simpa using SpreadsTo.nil
  | some k =>
      obtain rfl := hp k hk
      simp only [Option.bind_some]
      rw [← List.filterMap_filterMap, ← spread_exact hbs k]
      cases hnext : s.exact k with
      | none => simpa using SpreadsTo.nil
      | some next =>
          have hsound := sound_exact hbs hnext
          rw [Nat.add_comm] at hsound
          simpa using h next j hsound

theorem follows_skipping (o : LookupOptions) (m : Option MVar) :
    Follows 1 (Search.skipping o m : Thread α → Outcomes (Thread α))
      (Walk.skipping o m) := by
  intro s j hs
  unfold Search.skipping Walk.skipping
  rw [filterMap_starsAllowed hs]
  cases s.starsAllowed o with
  | false => exact SpreadsTo.nil
  | true =>
      obtain ⟨rs, hskips, hrs, hentries⟩ := hs.shaped.skips
      refine ⟨rs.filterMap fun r => s.skipped m r.1 r.2, ?_, ?_, ?_⟩
      · rw [hskips, List.map_filterMap, List.filterMap_eq_flatMap_toList]
        exact Outcomes.andThen_ok rs _
      · intro t ht
        obtain ⟨r, hr, hskipped⟩ := List.mem_filterMap.mp ht
        obtain ⟨hhere, hwalked⟩ := skipped_eq_some hskipped
        refine sound_inside (hrs r hr).2 hhere ?_
        obtain ⟨k, ks, hks, -⟩ := (hrs r hr).1.exists_cons
        rw [hwalked, hks]
        simp
      · exact List.Perm.of_eq
          (spread_skipped hentries (fun r hr => (hrs r hr).1) m)

/-! ## The query -/

mutual

/-- The search through one pattern of the query matches every entry on
its own. -/
theorem follows_unify (o : LookupOptions) : ∀ p : Pattern,
    Follows 1 (Search.unify o p : Thread α → Outcomes (Thread α))
      (Walk.follow o p)
  | .star m => by
      unfold Search.unify Walk.follow
      split
      · exact follows_skipping o m
      · exact (follows_ok.around o nofun)
  | .app h args => by
      unfold Search.unify Walk.follow
      exact (follows_unifyAll o args).around o
        (by simp [Pattern.key?, Key.arity])
  | .lam body => by
      unfold Search.unify Walk.follow
      exact (follows_unify o body).around o (by simp [Pattern.key?, Key.arity])
  | .pi domain body => by
      unfold Search.unify Walk.follow
      exact ((follows_unify o domain).andThen (follows_unify o body)).around o
        (by simp [Pattern.key?, Key.arity])
  | .proj s i value args => by
      unfold Search.unify Walk.follow
      exact ((follows_unify o value).andThen (follows_unifyAll o args)).around o
        (by simp [Pattern.key?, Key.arity, Nat.add_comm])
  | .hidden | .fixed _ | .lit _ | .sort => by
      unfold Search.unify Walk.follow
      exact follows_ok.around o (by simp [Pattern.key?, Key.arity])

theorem follows_unifyAll (o : LookupOptions) : ∀ ps : List Pattern,
    Follows ps.length (Search.unifyAll o ps : Thread α → Outcomes (Thread α))
      (Walk.followAll o ps)
  | [] => follows_ok
  | p :: ps => by
      rw [List.length_cons, Nat.add_comm]
      exact (follows_unify o p).andThen (follows_unifyAll o ps)

end

end TermIndex
