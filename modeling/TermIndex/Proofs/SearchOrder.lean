import TermIndex.Proofs.Lookups

/-!
# The order in which hits are found

A search tries the key of a node before the stored stars, and goes through the
stars, and through what a wildcard skips, in the order of the keys. So which of
two hits is found first can be read off their sequences, at the first key in
which they differ: `ahead` is what a query has ahead of it there, and `Tries`
which of the two keys comes first. `Sooner` compares sequences in this way.

One step of a search on its first pattern gives threads that are in this order,
however they go on (`exists_ways`). By induction on the query, so are all
threads that come out (`unifyAll_sooner`) and the hits (`hits_sooner`).
-/

namespace TermIndex

variable {α : Type}

/-! ## What is ahead of a search -/

/-- The pattern is a wildcard that skips stored subtrees. -/
def Pattern.isLive (o : LookupOptions) : Pattern → Bool
  | .star m => m.isNone || o.unify
  | _ => false

theorem Pattern.isLive_star {o : LookupOptions} {m : Option MVar} :
    (Pattern.star m).isLive o = true ↔ o.Live m := by
  simp [isLive, LookupOptions.Live]

theorem Pattern.isLive_eq_false_iff {o : LookupOptions} {p : Pattern} :
    p.isLive o = false ↔ ∀ m, p = .star m → ¬ o.Live m := by
  rw [← Bool.not_eq_true]
  constructor
  · rintro h m rfl hm
    exact h (isLive_star.mpr hm)
  · intro h hp
    cases p with
    | star m => exact h m rfl (isLive_star.mp hp)
    | _ => cases hp

/-- What is left of a pattern behind a key. A wildcard that skips the key goes
on to skip the subtrees below it, and a star takes the whole pattern. -/
def Pattern.behind (o : LookupOptions) (p : Pattern) (k : Key) : List Pattern :=
  if p.isLive o then List.replicate k.arity (.star none)
  else if k.isStar then [] else p.children

namespace Search

/-- The patterns that are ahead of a search behind some keys. -/
def ahead (o : LookupOptions) : List Pattern → List Key → List Pattern
  | ps, [] => ps
  | [], _ :: _ => []
  | p :: ps, k :: ks => ahead o (p.behind o k ++ ps) ks

/-- Behind these keys, a wildcard of the query is skipping a stored subtree. -/
def skipsBehind (o : LookupOptions) (ps : List Pattern) (front : List Key) :
    Bool :=
  (ahead o ps front).head?.any (Pattern.isLive o)

/-- A search tries the key `k` before `l`, either while it skips a stored
subtree or for a node of the query. -/
def Tries (skipping : Bool) (k l : Key) : Prop :=
  if skipping then k.precedes l = true
  else ∃ j, l = .star j ∧ ∀ i, k = .star i → i < j

/-- With these patterns ahead, a search finds the first sequence before the
second one. -/
inductive Sooner (o : LookupOptions) :
    List Pattern → List Key → List Key → Prop
  | here {p : Pattern} {ps : List Pattern} {k l : Key} {ks ls : List Key}
      (h : Tries (p.isLive o) k l) : Sooner o (p :: ps) (k :: ks) (l :: ls)
  | behind {p : Pattern} {ps : List Pattern} {k : Key} {ks ls : List Key}
      (h : Sooner o (p.behind o k ++ ps) ks ls) :
      Sooner o (p :: ps) (k :: ks) (k :: ls)

variable {o : LookupOptions} {p : Pattern} {ps : List Pattern}
  {ks ls front : List Key} {k l : Key}

theorem Tries.asymm {skipping : Bool} (h : Tries skipping k l)
    (h' : Tries skipping l k) : False := by
  cases skipping with
  | true => exact Key.precedes_irrefl k (Key.precedes_trans h h')
  | false =>
      obtain ⟨j, rfl, hj⟩ := h
      obtain ⟨i, rfl, hi⟩ := h'
      exact Nat.lt_asymm (hj i rfl) (hi j rfl)

theorem Tries.ne {skipping : Bool} (h : Tries skipping k l) : k ≠ l := by
  rintro rfl
  exact h.asymm h

theorem tries_live (hp : p.isLive o = true) (h : k.precedes l = true) :
    Tries (p.isLive o) k l := by
  rw [hp]
  exact h

theorem tries_star (hp : p.isLive o = false) {j : Nat}
    (h : ∀ i, k = .star i → i < j) : Tries (p.isLive o) k (.star j) := by
  rw [hp]
  exact ⟨j, rfl, h⟩

theorem Sooner.under (h : Sooner o (ahead o ps front) ks ls) :
    Sooner o ps (front ++ ks) (front ++ ls) := by
  induction front generalizing ps with
  | nil => exact h
  | cons k front ih =>
      cases ps with
      | nil => cases h
      | cons p ps => exact .behind (ih h)

/-- Sequences are compared at the first key in which they differ. -/
theorem Sooner.tries (h : Sooner o ps (front ++ k :: ks) (front ++ l :: ls))
    (hkl : k ≠ l) : Tries (skipsBehind o ps front) k l := by
  induction front generalizing ps with
  | nil =>
      cases h with
      | here h => exact h
      | behind _ => exact absurd rfl hkl
  | cons c front ih =>
      cases h with
      | here h => exact absurd rfl h.ne
      | behind h => exact ih h

/-- There is such a key. -/
theorem Sooner.exists_split (h : Sooner o ps ks ls) :
    ∃ front k l ks' ls', ks = front ++ k :: ks' ∧ ls = front ++ l :: ls'
      ∧ Tries (skipsBehind o ps front) k l := by
  induction h with
  | here h => exact ⟨[], _, _, _, _, rfl, rfl, h⟩
  | @behind p ps c ks ls _ ih =>
      obtain ⟨front, k, l, ks', ls', rfl, rfl, h⟩ := ih
      exact ⟨c :: front, k, l, ks', ls', rfl, rfl, h⟩

/-! ## Skipping -/

/-- `n` subtrees that are skipped, whatever they are. -/
def wildcards (n : Nat) : List Pattern := List.replicate n (.star none)

theorem behind_wildcards (k : Key) (n : Nat) (ps : List Pattern) :
    Pattern.behind o (.star none) k ++ (wildcards n ++ ps)
      = wildcards (n + k.arity) ++ ps := by
  rw [← List.append_assoc, Nat.add_comm]
  exact congrArg (· ++ ps) List.replicate_append_replicate

/-- Wildcards are used up by complete trees. -/
theorem ahead_wildcards {n : Nat} (h : Key.Completes n front)
    (ps : List Pattern) : ahead o (wildcards n ++ ps) front = ps := by
  induction front generalizing n with
  | nil =>
      obtain rfl : n = 0 := Except.ok.inj h
      rfl
  | cons k front ih =>
      obtain ⟨j, rfl, hfront⟩ := Key.completes_cons_iff.mp h
      change ahead o (Pattern.behind o (.star none) k ++ (wildcards j ++ ps))
        front = ps
      rw [behind_wildcards]
      exact ih hfront

/-- Complete trees that are skipped are tried in the order of their keys. -/
theorem sooner_wildcards {n : Nat} (h : Key.Before ks ls)
    (hks : Key.Completes n ks) (hls : Key.Completes n ls) (ps : List Pattern)
    (xs ys : List Key) :
    Sooner o (wildcards n ++ ps) (ks ++ xs) (ls ++ ys) := by
  induction h generalizing n with
  | nil =>
      obtain rfl : n = 0 := Except.ok.inj hks
      cases hls.eq_nil
  | @cons k ks ls _ ih =>
      obtain ⟨j, rfl, hks⟩ := Key.completes_cons_iff.mp hks
      have hsooner := ih hks hls
      rw [← behind_wildcards] at hsooner
      exact .behind hsooner
  | @rel k ks l ls hkl =>
      obtain ⟨j, rfl, -⟩ := Key.completes_cons_iff.mp hks
      exact .here (tries_live rfl hkl)

/-- A live wildcard is like an anonymous one. -/
theorem behind_live {m : Option MVar} (hm : o.Live m) (k : Key) :
    Pattern.behind o (.star m) k = Pattern.behind o (.star none) k := by
  rw [Pattern.behind, if_pos (Pattern.isLive_star.mpr hm)]
  rfl

theorem ahead_live {m : Option MVar} (hm : o.Live m)
    (hfront : Key.Completes 1 front) (ps : List Pattern) :
    ahead o (.star m :: ps) front = ps := by
  obtain ⟨k, rest, rfl, -⟩ := hfront.exists_cons
  rw [ahead, behind_live hm]
  exact ahead_wildcards hfront ps

theorem sooner_live {m : Option MVar} (hm : o.Live m) (h : Key.Before ks ls)
    (hks : Key.Completes 1 ks) (hls : Key.Completes 1 ls) (ps : List Pattern)
    (xs ys : List Key) :
    Sooner o (.star m :: ps) (ks ++ xs) (ls ++ ys) := by
  obtain ⟨k, ks, rfl, -⟩ := hks.exists_cons
  obtain ⟨l, ls, rfl, -⟩ := hls.exists_cons
  have hsooner : Sooner o (.star none :: ps) (k :: (ks ++ xs))
      (l :: (ls ++ ys)) := sooner_wildcards h hks hls ps xs ys
  cases hsooner with
  | here hkl => exact .here (tries_live (Pattern.isLive_star.mpr hm) hkl)
  | behind hbehind =>
      rw [← behind_live hm] at hbehind
      exact .behind hbehind

end Search

/-! ## Skipped subtrees are in order -/

namespace Trie

/-- What was skipped comes in strictly increasing order of its keys. -/
def SkipsInOrder (os : Outcomes (List Key × Trie α)) : Prop :=
  os.Pairwise fun a b => ∀ r r', a = .ok r → b = .ok r' → Key.Before r.1 r'.1

theorem skipsInOrder_ok {rs : List (List Key × Trie α)} :
    SkipsInOrder (rs.map .ok)
      ↔ rs.Pairwise fun r r' => Key.Before r.1 r'.1 := by
  rw [SkipsInOrder, List.pairwise_map]
  refine List.Pairwise.iff fun r r' => ⟨fun h => h r r' rfl rfl, ?_⟩
  rintro h _ _ ⟨⟩ ⟨⟩
  exact h

/-- What is skipped behind some keys begins with them. -/
theorem mem_mapOk_under {front : List Key} {os : Outcomes (List Key × Trie α)}
    {r : List Key × Trie α} :
    .ok r ∈ (os.mapOk fun (more, t) => (front ++ more, t)) ↔
      ∃ r', .ok r' ∈ os ∧ r = (front ++ r'.1, r'.2) := by
  rw [Outcomes.mapOk, List.mem_map]
  constructor
  · rintro ⟨a, ha, heq⟩
    cases a with
    | error e => cases heq
    | ok r' =>
        cases heq
        exact ⟨r', ha, rfl⟩
  · rintro ⟨r', hr', rfl⟩
    exact ⟨.ok r', hr', rfl⟩

theorem SkipsInOrder.under {os : Outcomes (List Key × Trie α)}
    (h : SkipsInOrder os) (front : List Key) :
    SkipsInOrder (os.mapOk fun (more, t) => (front ++ more, t)) := by
  refine h.map _ fun a b hab r r' hr hr' => ?_
  cases a with
  | error e => cases hr
  | ok c =>
      cases b with
      | error e => cases hr'
      | ok d =>
          cases hr
          cases hr'
          exact (hab c d rfl rfl).append_left front

theorem skipsAll_eq (n : Nat) (bs : List (Key × Trie α)) :
    skipsAll n bs = bs.flatMap fun b =>
      (b.2.skips (n + b.1.arity)).mapOk fun (more, t) =>
        ([b.1] ++ more, t) := by
  induction bs with
  | nil => rfl
  | cons b bs ih =>
      rw [skipsAll, ih]
      rfl

theorem skipsInOrder_branches {n : Nat} {bs : List (Key × Trie α)}
    (hincreasing : Key.Increasing (branchKeys bs))
    (h : ∀ b ∈ bs, SkipsInOrder (b.2.skips (n + b.1.arity))) :
    SkipsInOrder (skipsAll n bs) := by
  rw [skipsAll_eq]
  refine List.pairwise_flatMap.mpr ⟨fun b hb => (h b hb).under [b.1], ?_⟩
  refine (branchKeys_pairwise.mp hincreasing).imp ?_
  rintro b c hbc _ ha _ ha' r r' rfl rfl
  obtain ⟨a, -, rfl⟩ := mem_mapOk_under.mp ha
  obtain ⟨a', -, rfl⟩ := mem_mapOk_under.mp ha'
  exact Key.before_of_precedes hbc a.1 a'.1

theorem Shaped.skipsInOrder {N : Nat} {t : Trie α} (h : Shaped N t) :
    ∀ n, SkipsInOrder (t.skips n) := by
  have hzero : ∀ t : Trie α, SkipsInOrder (t.skips 0) := by
    intro t
    rw [skips_zero]
    exact List.pairwise_singleton _ _
  induction h with
  | leaf _ =>
      rintro (_ | n)
      · exact hzero _
      · exact .nil
  | @path _ _ ks child hks _ _ _ ih =>
      rintro (_ | n)
      · exact hzero _
      · rw [skips_path hks]
        split
        · exact List.pairwise_singleton _ _
        · exact (ih _).under _
  | node _ hincreasing _ ih =>
      rintro (_ | n)
      · exact hzero _
      · exact skipsInOrder_branches hincreasing fun b hb => ih b hb _

end Trie

theorem Position.Shaped.skipsInOrder {n : Nat} {p : Position α}
    (h : p.Shaped n) : Trie.SkipsInOrder p.skips := by
  cases p with
  | root f =>
      exact Trie.skipsInOrder_branches f.increasing fun b hb =>
        (h.2 b hb).skipsInOrder _
  | inside t => exact Trie.Shaped.skipsInOrder h 1

/-! ## A search, one pattern at a time -/

namespace Outcomes

variable {β γ δ : Type}

theorem andThen_ok_self (os : Outcomes β) :
    os.andThen (fun b => [.ok b]) = os := by
  induction os with
  | nil => rfl
  | cons a os ih =>
      rw [andThen, List.flatMap_cons]
      change _ ++ andThen os _ = _
      rw [ih]
      cases a <;> rfl

theorem andThen_assoc (os : Outcomes β) (f : β → Outcomes γ)
    (g : γ → Outcomes δ) :
    (os.andThen f).andThen g = os.andThen fun b => (f b).andThen g := by
  unfold andThen
  rw [List.flatMap_assoc]
  refine List.flatMap_congr fun a _ => ?_
  cases a with
  | error e => rfl
  | ok b => rfl

end Outcomes

namespace Search

variable {o : LookupOptions} {p : Pattern} {ps : List Pattern}

theorem unifyAll_nil :
    (unifyAll o [] : Thread α → Outcomes (Thread α)) = fun s => [.ok s] := by
  funext s
  rw [unifyAll]

theorem unifyAll_singleton (p : Pattern) (s : Thread α) :
    unifyAll o [p] s = unify o p s := by
  rw [unifyAll, unifyAll_nil, Outcomes.andThen_ok_self]

theorem unifyAll_append (ps qs : List Pattern) (s : Thread α) :
    unifyAll o (ps ++ qs) s = (unifyAll o ps s).andThen (unifyAll o qs) := by
  induction ps generalizing s with
  | nil =>
      rw [unifyAll_nil]
      exact (List.append_nil _).symm
  | cons p ps ih =>
      rw [List.cons_append, unifyAll, unifyAll, Outcomes.andThen_assoc]
      exact congrArg _ (funext ih)

theorem unify_eq_around (hp : p.isLive o = false) (s : Thread α) :
    unify o p s = around o p (unifyAll o p.children) s := by
  cases p with
  | star m =>
      have hor : ¬ (m = none ∨ o.unify = true) :=
        Pattern.isLive_eq_false_iff.mp hp m rfl
      rw [unify, if_neg hor, Pattern.children, unifyAll_nil]
  | lam body =>
      rw [unify, Pattern.children]
      exact congrArg (around o _ · s) (funext (unifyAll_singleton body)).symm
  | pi domain body =>
      rw [unify, Pattern.children]
      refine congrArg (around o _ · s) (funext fun s => ?_)
      rw [unifyAll, funext (unifyAll_singleton body)]
  | proj st i value args => rw [unify, Pattern.children]; rfl
  | app h args => rw [unify, Pattern.children]
  | _ => rw [unify, Pattern.children, unifyAll_nil]

/-! ## One step -/

/-- The ways on from a thread through the first pattern: the keys that are
passed, and the threads behind them. However these go on, they are in order. -/
structure Ways (o : LookupOptions) (p : Pattern) (ps : List Pattern) (j : Nat)
    (s : Thread α) (rs : List (List Key × Thread α)) : Prop where
  lists : unifyAll o (p :: ps) s
    = rs.flatMap fun r => unifyAll o (ahead o (p :: ps) r.1) r.2
  walked : ∀ r ∈ rs, r.2.walked = s.walked ++ r.1
  sound : ∀ r ∈ rs, r.2.Sound ((ahead o (p :: ps) r.1).length + j)
  rest : ∀ r ∈ rs, ahead o (p :: ps) r.1 = ps
    ∨ ∃ k, p.key? = some k ∧ ahead o (p :: ps) r.1 = p.children ++ ps
  sooner : rs.Pairwise fun r r' => ∀ xs ys,
    Sooner o (p :: ps) (r.1 ++ xs) (r'.1 ++ ys)

theorem Ways.of_nil {j : Nat} {s : Thread α}
    (h : unifyAll o (p :: ps) s = []) : Ways o p ps j s [] :=
  ⟨h, List.forall_mem_nil _, List.forall_mem_nil _, List.forall_mem_nil _, .nil⟩

/-! A live wildcard -/

/-- The way past a stored subtree. -/
def past (s : Thread α) (m : Option MVar) (r : List Key × Trie α) :
    Option (List Key × Thread α) :=
  (s.skipped m r.1 r.2).map fun next => (r.1, next)

theorem past_eq_some {s : Thread α} {m : Option MVar} {r : List Key × Trie α}
    {w : List Key × Thread α} (h : past s m r = some w) :
    w.1 = r.1 ∧ s.skipped m r.1 r.2 = some w.2 := by
  obtain ⟨next, hnext, rfl⟩ := Option.map_eq_some_iff.mp h
  exact ⟨rfl, hnext⟩

theorem unifyAll_live {m : Option MVar} (hm : o.Live m) {s : Thread α}
    {rs : List (List Key × Trie α)} (hrs : s.here.skips = rs.map .ok) :
    unifyAll o (.star m :: ps) s
      = if s.starsAllowed o then
          (rs.filterMap (past s m)).flatMap fun w => unifyAll o ps w.2
        else [] := by
  have hor : m = none ∨ o.unify = true := hm
  rw [unifyAll, unify, if_pos hor, skipping]
  cases s.starsAllowed o with
  | false => rfl
  | true =>
      rw [if_pos rfl, if_pos rfl, hrs, Outcomes.andThen_ok, Outcomes.andThen,
        List.flatMap_assoc, List.filterMap_eq_flatMap_toList,
        List.flatMap_assoc]
      refine List.flatMap_congr fun r _ => ?_
      obtain ⟨ks, t⟩ := r
      rw [past]
      dsimp only
      cases s.skipped m ks t with
      | none => rfl
      | some next => rfl

/-- A live wildcard goes through the stored subtrees in order. -/
theorem ways_live {m : Option MVar} (hm : o.Live m) {j : Nat} {s : Thread α}
    (hs : s.Sound (ps.length + j + 1)) :
    ∃ ws, Ways o (.star m) ps j s ws := by
  rw [Nat.add_comm] at hs
  obtain ⟨rs, hrs, hcomplete, -⟩ := hs.shaped.skips
  have hordered := Trie.skipsInOrder_ok.mp (hrs ▸ hs.shaped.skipsInOrder)
  have hall : unifyAll o (.star m :: ps) s = _ := unifyAll_live hm hrs
  cases hallowed : s.starsAllowed o with
  | false => exact ⟨[], .of_nil (by rw [hall, hallowed]; rfl)⟩
  | true =>
      have hways : ∀ w ∈ rs.filterMap (past s m), Key.Completes 1 w.1
          ∧ ∃ t, Trie.Shaped (ps.length + j) t
            ∧ s.skipped m w.1 t = some w.2 := by
        intro w hw
        obtain ⟨r, hr, hpast⟩ := List.mem_filterMap.mp hw
        obtain ⟨hkeys, hnext⟩ := past_eq_some hpast
        rw [hkeys]
        exact ⟨(hcomplete r hr).1, r.2, (hcomplete r hr).2, hnext⟩
      have hahead : ∀ w ∈ rs.filterMap (past s m),
          ahead o (.star m :: ps) w.1 = ps :=
        fun w hw => ahead_live hm (hways w hw).1 ps
      refine ⟨rs.filterMap (past s m), ?_, ?_, ?_, ?_, ?_⟩
      · rw [hall, if_pos hallowed]
        exact List.flatMap_congr fun w hw => by rw [hahead w hw]
      · intro w hw
        obtain ⟨-, t, -, hnext⟩ := hways w hw
        exact (Thread.skipped_eq_some hnext).2
      · intro w hw
        obtain ⟨hks, t, ht, hnext⟩ := hways w hw
        obtain ⟨hhere, hwalked⟩ := Thread.skipped_eq_some hnext
        obtain ⟨k, rest, hcons, -⟩ := hks.exists_cons
        rw [hahead w hw]
        refine Thread.sound_inside ht hhere ?_
        rw [hwalked, hcons]
        simp
      · exact fun w hw => Or.inl (hahead w hw)
      · refine List.pairwise_filterMap.mpr ?_
        refine hordered.imp_of_mem fun hr hr' hbefore w hw w' hw' xs ys => ?_
        rw [(past_eq_some hw).1, (past_eq_some hw').1]
        exact sooner_live hm hbefore (hcomplete _ hr).1 (hcomplete _ hr').1 ps
          xs ys

/-! A node that is no live wildcard -/

/-- The way on behind the key of a node. -/
def into (s : Thread α) (p : Pattern) : Option (List Key × Thread α) :=
  p.key?.bind fun k => (s.exact k).map fun next => ([k], next)

/-- The way on behind a stored star that takes the pattern. -/
def taking (s : Thread α) (p : Pattern) (c : Nat × Position α) :
    Option (List Key × Thread α) :=
  (s.take p c.1 c.2).map fun next => ([.star c.1], next)

def starWays (o : LookupOptions) (s : Thread α) (p : Pattern) :
    List (List Key × Thread α) :=
  if s.starsAllowed o then s.here.starChildren.filterMap (taking s p) else []

theorem into_eq_some {s : Thread α} {w : List Key × Thread α}
    (h : into s p = some w) :
    ∃ k, p.key? = some k ∧ s.exact k = some w.2 ∧ w.1 = [k] := by
  obtain ⟨k, hk, hmap⟩ := Option.bind_eq_some_iff.mp h
  obtain ⟨next, hnext, rfl⟩ := Option.map_eq_some_iff.mp hmap
  exact ⟨k, hk, hnext, rfl⟩

theorem taking_eq_some {s : Thread α} {c : Nat × Position α}
    {w : List Key × Thread α} (h : taking s p c = some w) :
    w.1 = [.star c.1] ∧ s.take p c.1 c.2 = some w.2 := by
  obtain ⟨next, hnext, rfl⟩ := Option.map_eq_some_iff.mp h
  exact ⟨rfl, hnext⟩

theorem unifyAll_node (hp : p.isLive o = false) {s : Thread α}
    (hfault : s.here.fault? = none) :
    unifyAll o (p :: ps) s
      = ((into s p).toList.flatMap fun w => unifyAll o (p.children ++ ps) w.2)
        ++ (starWays o s p).flatMap fun w => unifyAll o ps w.2 := by
  rw [unifyAll, unify_eq_around hp, around, hfault, starWays]
  dsimp only
  rw [Outcomes.andThen, List.flatMap_append]
  congr 1
  · rw [into]
    cases p.key? with
    | none => rfl
    | some k =>
        simp only [Option.bind_some]
        cases s.exact k with
        | none => rfl
        | some next =>
            simp only [Option.map_some, Option.toList_some,
              List.flatMap_cons, List.flatMap_nil, List.append_nil]
            exact (unifyAll_append p.children ps next).symm
  · split
    · rw [Thread.takenBy_eq, List.flatMap_map,
        List.filterMap_eq_flatMap_toList, List.filterMap_eq_flatMap_toList,
        List.flatMap_assoc, List.flatMap_assoc]
      refine List.flatMap_congr fun c _ => ?_
      rw [taking]
      cases s.take p c.1 c.2 with
      | none => rfl
      | some next => rfl
    · rfl

theorem ahead_into {k : Key} (hk : p.key? = some k) :
    ahead o (p :: ps) [k] = p.children ++ ps := by
  have hlive : p.isLive o = false :=
    Pattern.isLive_eq_false_iff.mpr (Pattern.ne_star_of_key hk)
  have hstar : k.isStar = false := by
    cases p <;> cases hk <;> rfl
  rw [ahead, ahead, Pattern.behind, hlive, hstar]
  rfl

theorem ahead_star (hp : p.isLive o = false) (id : Nat) :
    ahead o (p :: ps) [.star id] = ps := by
  rw [ahead, ahead, Pattern.behind, hp]
  rfl

/-- Stars are taken in the order of their numbers. -/
theorem pairwise_starChildren {j : Nat} {here : Position α}
    {bs : List (Key × Trie α)} (hbs : here.Branching j bs) :
    here.starChildren.Pairwise fun c c' => c.1 < c'.1 := by
  rw [hbs.starChildren]
  refine List.pairwise_filterMap.mpr ?_
  refine (Trie.branchKeys_pairwise.mp hbs.increasing).imp ?_
  intro b b' hbefore c hc c' hc'
  obtain ⟨i, hi, rfl⟩ := Option.map_eq_some_iff.mp hc
  obtain ⟨i', hi', rfl⟩ := Option.map_eq_some_iff.mp hc'
  rw [Key.starId?_eq_some_iff.mp hi, Key.starId?_eq_some_iff.mp hi'] at hbefore
  exact Key.star_precedes_star.mp hbefore

theorem of_mem_starWays {s : Thread α} {w : List Key × Thread α}
    (h : w ∈ starWays o s p) :
    ∃ c ∈ s.here.starChildren, w.1 = [.star c.1]
      ∧ s.take p c.1 c.2 = some w.2 := by
  unfold starWays at h
  split at h
  · obtain ⟨c, hc, htaking⟩ := List.mem_filterMap.mp h
    exact ⟨c, hc, taking_eq_some htaking⟩
  · cases h

theorem pairwise_starWays {j : Nat} {s : Thread α} {bs : List (Key × Trie α)}
    (hbs : s.here.Branching j bs) (hp : p.isLive o = false) :
    (starWays o s p).Pairwise fun w w' => ∀ xs ys,
      Sooner o (p :: ps) (w.1 ++ xs) (w'.1 ++ ys) := by
  unfold starWays
  split
  · refine List.pairwise_filterMap.mpr ((pairwise_starChildren hbs).imp ?_)
    intro c c' hlt w hw w' hw' xs ys
    rw [(taking_eq_some hw).1, (taking_eq_some hw').1]
    refine .here (tries_star hp ?_)
    rintro i ⟨⟩
    exact hlt
  · exact .nil

/-- Behind the key of a node, its children are ahead. -/
theorem into_spec {j : Nat} {s : Thread α} {bs : List (Key × Trie α)}
    (hbs : s.here.Branching (ps.length + j) bs) {w : List Key × Thread α}
    (h : into s p = some w) :
    ∃ k, p.key? = some k ∧ w.1 = [k]
      ∧ ahead o (p :: ps) w.1 = p.children ++ ps
      ∧ w.2.walked = s.walked ++ w.1
      ∧ w.2.Sound ((p.children ++ ps).length + j) := by
  obtain ⟨k, hk, hnext, hkeys⟩ := into_eq_some h
  obtain ⟨here, -, hadvance⟩ := Option.map_eq_some_iff.mp hnext
  have hsound := sound_exact hbs hnext
  refine ⟨k, hk, hkeys, by rw [hkeys, ahead_into hk], ?_, ?_⟩
  · rw [← hadvance, hkeys]
    rfl
  · rw [List.length_append, Pattern.length_children hk]
    rwa [show k.arity + ps.length + j = ps.length + j + k.arity by omega]

/-- Behind a star, what follows the node is ahead. -/
theorem starWays_spec {j : Nat} {s : Thread α} {bs : List (Key × Trie α)}
    (hbs : s.here.Branching (ps.length + j) bs) (hp : p.isLive o = false)
    {w : List Key × Thread α} (h : w ∈ starWays o s p) :
    ∃ id, w.1 = [.star id] ∧ ahead o (p :: ps) w.1 = ps
      ∧ w.2.walked = s.walked ++ w.1 ∧ w.2.Sound (ps.length + j) := by
  obtain ⟨c, hc, hkeys, htake⟩ := of_mem_starWays h
  refine ⟨c.1, hkeys, by rw [hkeys, ahead_star hp], ?_, ?_⟩
  · rw [hkeys]
    exact (Thread.take_eq_some htake).2
  · refine sound_takenBy (p := p) hbs ?_
    rw [Thread.takenBy_eq]
    exact List.mem_filterMap.mpr ⟨c, hc, htake⟩

/-- A node goes on behind its key first, and then behind the stars in order. -/
theorem ways_node (hp : p.isLive o = false) {j : Nat} {s : Thread α}
    (hs : s.Sound (ps.length + j + 1)) : ∃ ws, Ways o p ps j s ws := by
  obtain ⟨bs, hbs⟩ := hs.shaped.branching
  have hinto := fun w (hw : w ∈ (into s p).toList) =>
    into_spec (o := o) hbs (Option.mem_toList.mp hw)
  have hstars := fun w (hw : w ∈ starWays o s p) => starWays_spec hbs hp hw
  refine ⟨(into s p).toList ++ starWays o s p, ?_, ?_, ?_, ?_, ?_⟩
  · rw [unifyAll_node hp hbs.fault?, List.flatMap_append]
    congr 1
    · refine List.flatMap_congr fun w hw => ?_
      obtain ⟨-, -, -, hahead, -⟩ := hinto w hw
      rw [hahead]
    · refine List.flatMap_congr fun w hw => ?_
      obtain ⟨-, -, hahead, -⟩ := hstars w hw
      rw [hahead]
  · intro w hw
    rcases List.mem_append.mp hw with hw | hw
    · obtain ⟨-, -, -, -, hwalked, -⟩ := hinto w hw
      exact hwalked
    · obtain ⟨-, -, -, hwalked, -⟩ := hstars w hw
      exact hwalked
  · intro w hw
    rcases List.mem_append.mp hw with hw | hw
    · obtain ⟨-, -, -, hahead, -, hsound⟩ := hinto w hw
      rwa [hahead]
    · obtain ⟨-, -, hahead, -, hsound⟩ := hstars w hw
      rwa [hahead]
  · intro w hw
    rcases List.mem_append.mp hw with hw | hw
    · obtain ⟨k, hk, -, hahead, -⟩ := hinto w hw
      exact Or.inr ⟨k, hk, hahead⟩
    · obtain ⟨-, -, hahead, -⟩ := hstars w hw
      exact Or.inl hahead
  · refine List.pairwise_append.mpr ⟨?_, pairwise_starWays hbs hp, ?_⟩
    · cases into s p with
      | none => exact .nil
      | some w => exact List.pairwise_singleton _ _
    · intro w hw w' hw' xs ys
      obtain ⟨k, hk, hkeys, -⟩ := hinto w hw
      obtain ⟨id, hkeys', -⟩ := hstars w' hw'
      rw [hkeys, hkeys']
      refine .here (tries_star hp ?_)
      rintro i rfl
      cases Pattern.starId?_of_key hk

/-- One step: the ways on from a thread through the first pattern. -/
theorem exists_ways (p : Pattern) (ps : List Pattern) {j : Nat} {s : Thread α}
    (hs : s.Sound (ps.length + j + 1)) : ∃ ws, Ways o p ps j s ws := by
  cases hp : p.isLive o with
  | false => exact ways_node hp hs
  | true =>
      cases p with
      | star m => exact ways_live (Pattern.isLive_star.mp hp) hs
      | _ => cases hp

/-! ## Whole searches -/

/-- The threads that come out of a search, with the keys that each passed, are
in order. -/
def FindsInOrder (o : LookupOptions) (ps : List Pattern) (s : Thread α)
    (os : Outcomes (Thread α)) : Prop :=
  ∃ fs : List (List Key × Thread α), os = fs.map (fun f => .ok f.2)
    ∧ (∀ f ∈ fs, f.2.walked = s.walked ++ f.1)
    ∧ fs.Pairwise fun f f' => Sooner o ps f.1 f'.1

/-- If what is behind each way is in order, all of it is. -/
theorem Ways.findsInOrder {j : Nat} {s : Thread α}
    {ws : List (List Key × Thread α)} (h : Ways o p ps j s ws)
    (hbehind : ∀ w ∈ ws, FindsInOrder o (ahead o (p :: ps) w.1) w.2
      (unifyAll o (ahead o (p :: ps) w.1) w.2)) :
    FindsInOrder o (p :: ps) s (unifyAll o (p :: ps) s) := by
  obtain ⟨hlists, hwalked, -, -, hsooner⟩ := h
  rw [hlists]
  clear hlists
  suffices hall : ∃ fs : List (List Key × Thread α),
      (ws.flatMap fun w => unifyAll o (ahead o (p :: ps) w.1) w.2)
        = fs.map (fun f => .ok f.2)
      ∧ (∀ f ∈ fs, f.2.walked = s.walked ++ f.1
        ∧ ∃ w ∈ ws, ∃ ks, f.1 = w.1 ++ ks)
      ∧ fs.Pairwise fun f f' => Sooner o (p :: ps) f.1 f'.1 by
    obtain ⟨fs, hfs, hkeys, hordered⟩ := hall
    exact ⟨fs, hfs, fun f hf => (hkeys f hf).1, hordered⟩
  induction ws with
  | nil => exact ⟨[], rfl, List.forall_mem_nil _, .nil⟩
  | cons w ws ih =>
      obtain ⟨hw, hws⟩ := List.forall_mem_cons.mp hwalked
      obtain ⟨hb, hbs⟩ := List.forall_mem_cons.mp hbehind
      obtain ⟨hfirst, hrest⟩ := List.pairwise_cons.mp hsooner
      obtain ⟨fs, hfs, hkeys, hordered⟩ := ih hbs hws hrest
      obtain ⟨gs, hgs, hgkeys, hgordered⟩ := hb
      refine ⟨gs.map (fun g => (w.1 ++ g.1, g.2)) ++ fs, ?_, ?_, ?_⟩
      · rw [List.flatMap_cons, hgs, hfs, List.map_append, List.map_map]
        rfl
      · intro f hf
        rcases List.mem_append.mp hf with hf | hf
        · obtain ⟨g, hg, rfl⟩ := List.mem_map.mp hf
          refine ⟨?_, w, List.mem_cons_self .., g.1, rfl⟩
          rw [hgkeys g hg, hw, List.append_assoc]
        · obtain ⟨hwalk, v, hv, hks⟩ := hkeys f hf
          exact ⟨hwalk, v, List.mem_cons_of_mem _ hv, hks⟩
      · refine List.pairwise_append.mpr ⟨?_, hordered, ?_⟩
        · exact hgordered.map _ fun g g' hg => hg.under
        · intro f hf f' hf'
          obtain ⟨g, -, rfl⟩ := List.mem_map.mp hf
          obtain ⟨-, v, hv, ks, hks⟩ := hkeys f' hf'
          rw [hks]
          exact hfirst v hv _ _

/-- A whole search, by induction on the query. -/
theorem unifyAll_sooner (ps : List Pattern) : ∀ {j : Nat} {s : Thread α},
    s.Sound (ps.length + j) → FindsInOrder o ps s (unifyAll o ps s) := by
  induction ps using Pattern.nodes_induction with
  | nil =>
      intro j s _
      rw [unifyAll_nil]
      refine ⟨[([], s)], rfl, ?_, List.pairwise_singleton _ _⟩
      exact List.forall_mem_singleton.mpr (List.append_nil _).symm
  | star m ps ih =>
      intro j s hs
      rw [List.length_cons, Nat.add_right_comm] at hs
      obtain ⟨ws, hways⟩ := exists_ways (o := o) (.star m) ps hs
      refine hways.findsInOrder fun w hw => ?_
      have hsound := hways.sound w hw
      rcases hways.rest w hw with hahead | ⟨k, hk, -⟩
      · rw [hahead] at hsound ⊢
        exact ih hsound
      · cases hk
  | node p k ps _ ih ihbelow =>
      intro j s hs
      rw [List.length_cons, Nat.add_right_comm] at hs
      obtain ⟨ws, hways⟩ := exists_ways (o := o) p ps hs
      refine hways.findsInOrder fun w hw => ?_
      have hsound := hways.sound w hw
      rcases hways.rest w hw with hahead | ⟨k', -, hahead⟩
      · rw [hahead] at hsound ⊢
        exact ih hsound
      · rw [hahead] at hsound ⊢
        exact ihbelow hsound

theorem keys_of_finish {t : Thread α} {h : Hit α} (hfinish : finish t = .ok h) :
    h.keys = t.walked := by
  unfold finish at hfinish
  split at hfinish
  · cases hfinish
    rfl
  · cases hfinish

/-- The hits of a search are in order. -/
theorem hits_sooner {f : Forest α} (hf : f.Shaped) (o : LookupOptions)
    (query : Pattern) {hs : List (Hit α)} (hhs : hits o f query = hs.map .ok) :
    hs.Pairwise fun g h => Sooner o [query] g.keys h.keys := by
  obtain ⟨fs, hfs, hwalked, hordered⟩ :=
    unifyAll_sooner (o := o) (j := 0) [query] (Thread.sound_start hf)
  have hfinish : fs.map (fun f => finish f.2) = hs.map .ok := by
    rw [← hhs, hits_eq, ← unifyAll_singleton, hfs, Outcomes.andThen,
      List.flatMap_map, List.map_eq_flatMap]
  have hpairwise : (hs.map Except.ok).Pairwise
      fun a b : Except Fault (Hit α) => ∀ g h, a = .ok g → b = .ok h →
        Sooner o [query] g.keys h.keys := by
    rw [← hfinish]
    refine List.pairwise_map.mpr (hordered.imp_of_mem ?_)
    intro f f' hmem hmem' hff' g h hg hh
    rw [keys_of_finish hg, keys_of_finish hh, hwalked f hmem,
      hwalked f' hmem']
    exact hff'
  exact (List.pairwise_map.mp hpairwise).imp fun hgh => hgh _ _ rfl rfl

end Search

end TermIndex
