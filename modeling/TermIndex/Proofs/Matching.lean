import TermIndex.Search.Unify
import TermIndex.Proofs.Skipping

/-!
# Matching one sequence

`follow` matches a query with a single stored sequence: the search without its
branching. Of the three ways on, at most one is open. A star of the sequence
has no key of the query to match exactly (`around_exclusive`), and a wildcard
of the query skips the one complete tree that comes next.

A walk keeps the sequence it belongs to. What it has walked and what is ahead of
it are always the whole of it (`keeps_follow`).
-/

namespace TermIndex

/-- A walk along one stored sequence, part way through: a thread with the rest
of the sequence in the place of its position. -/
structure Walk (α : Type) where
  ahead : List Key
  values : List α
  walked : List Key
  stars : List (Nat × Pattern)
  mvars : List (MVar × List Key)
  score : Nat

namespace Walk

variable {α : Type}

/-- The walk at the beginning of an entry. -/
def start (e : List Key × List α) : Walk α := ⟨e.1, e.2, [], [], [], 0⟩

/-- The entry that a walk goes along. -/
def entry (w : Walk α) : List Key × List α := (w.walked ++ w.ahead, w.values)

/-- The hit of a walk that is at its end. -/
def hit (w : Walk α) : Hit α := ⟨w.walked, w.values, w.score⟩

def starsAllowed (w : Walk α) (o : LookupOptions) : Bool :=
  ! w.walked.isEmpty || o.allowRootStar

/-- The walk after passing some keys, with a bonus. -/
def advance (w : Walk α) (keys ahead : List Key) (bonus : Nat) : Walk α :=
  { w with ahead, walked := w.walked ++ keys, score := w.score + bonus }

/-! ## Three ways on -/

/-- The key of the query's node comes next. -/
def exact (w : Walk α) (k : Key) : Option (Walk α) :=
  match w.ahead with
  | k' :: rest =>
    if k' = k then some (w.advance [k] rest (if k = .lam then 0 else 1))
    else none
  | [] => none

/-- A star that comes next takes the subtree `p` of the query. -/
def taken (w : Walk α) (p : Pattern) : Option (Walk α) :=
  match w.ahead with
  | .star id :: rest =>
    match w.stars.lookup id with
    | some bound =>
      if bound = p then some (w.advance [.star id] rest p.size) else none
    | none =>
      some { w.advance [.star id] rest 0 with stars := (id, p) :: w.stars }
  | _ => none

def skipped (w : Walk α) (m : Option MVar) (keys ahead : List Key) :
    Option (Walk α) :=
  let next := w.advance keys ahead (if keys.head? = some .hidden then 1 else 0)
  match m with
  | none => some next
  | some m => match w.mvars.lookup m with
    | some bound => if bound = keys then some next else none
    | none => some { next with mvars := (m, keys) :: w.mvars }

/-- A wildcard skips the complete tree that comes next. -/
def skip (w : Walk α) (m : Option MVar) : Option (Walk α) :=
  let (keys, owed, ahead) := Key.takeSubtrees 1 w.ahead
  if owed = 0 then w.skipped m keys ahead else none

/-! ## Following a query -/

/-- Follows a node that is no wildcard of the query: its key and then its
children, by `below`, or a star of the sequence. -/
def around (o : LookupOptions) (p : Pattern) (below : Walk α → Option (Walk α))
    (w : Walk α) : Option (Walk α) :=
  ((p.key?.bind w.exact).bind below).or
    (if w.starsAllowed o then w.taken p else none)

def skipping (o : LookupOptions) (m : Option MVar) (w : Walk α) :
    Option (Walk α) :=
  if w.starsAllowed o then w.skip m else none

mutual

/-- The walk behind the part of the sequence that one pattern of the
query matches. -/
def follow (o : LookupOptions) : Pattern → Walk α → Option (Walk α)
  | .star m =>
    if m = none ∨ o.unify then skipping o m else around o (.star m) some
  | .app h args => around o (.app h args) (followAll o args)
  | .lam body => around o (.lam body) (follow o body)
  | .pi domain body =>
    around o (.pi domain body) fun w =>
      (follow o domain w).bind (follow o body)
  | .proj st i value args =>
    around o (.proj st i value args) fun w =>
      (follow o value w).bind (followAll o args)
  | .hidden => around o .hidden some
  | .fixed m => around o (.fixed m) some
  | .lit l => around o (.lit l) some
  | .sort => around o .sort some

def followAll (o : LookupOptions) : List Pattern → Walk α → Option (Walk α)
  | [] => some
  | p :: ps => fun w => (follow o p w).bind (followAll o ps)

end

/-! ## At most one way is open -/

theorem exact_eq_some {w w' : Walk α} {k : Key} (h : w.exact k = some w') :
    ∃ rest, w.ahead = k :: rest
      ∧ w' = w.advance [k] rest (if k = .lam then 0 else 1) := by
  unfold exact at h
  split at h
  · next k' rest hahead =>
      split at h
      · next hk =>
          subst hk
          exact ⟨rest, hahead, (Option.some.inj h).symm⟩
      · cases h
  · cases h

theorem taken_eq_some {w w' : Walk α} {p : Pattern} (h : w.taken p = some w') :
    ∃ id rest, w.ahead = .star id :: rest
      ∧ w'.entry = (w.advance [.star id] rest 0).entry := by
  unfold taken at h
  split at h
  · next id rest hahead =>
      refine ⟨id, rest, hahead, ?_⟩
      split at h
      · split at h
        · rw [← Option.some.inj h]
          rfl
        · cases h
      · rw [← Option.some.inj h]
        rfl
  · cases h

theorem key?_ne_star {p : Pattern} {id : Nat} : p.key? ≠ some (.star id) := by
  cases p <;> simp [Pattern.key?]

/-- A key of the query that matches exactly leaves no star to take it. -/
theorem around_exclusive (p : Pattern) (below : Walk α → Option (Walk α))
    (w : Walk α) :
    (p.key?.bind w.exact).bind below = none ∨ w.taken p = none := by
  cases htaken : w.taken p with
  | none => exact Or.inr rfl
  | some w' =>
      obtain ⟨id, rest, hahead, -⟩ := taken_eq_some htaken
      left
      cases hkey : p.key? with
      | none => rfl
      | some k =>
          cases hexact : w.exact k with
          | none => simp [hexact]
          | some w'' =>
              obtain ⟨rest', hahead', -⟩ := exact_eq_some hexact
              obtain rfl : Key.star id = k :=
                (List.cons.inj (hahead.symm.trans hahead')).1
              exact (key?_ne_star hkey).elim

/-! ## The entry stays -/

theorem entry_advance {w : Walk α} {keys ahead : List Key}
    (h : w.ahead = keys ++ ahead)
    (bonus : Nat) : (w.advance keys ahead bonus).entry = w.entry := by
  simp [entry, advance, h]

/-- The step keeps the entry of a walk. -/
def Keeps (step : Walk α → Option (Walk α)) : Prop :=
  ∀ w w', step w = some w' → w'.entry = w.entry

theorem keeps_some : Keeps (some : Walk α → Option (Walk α)) := fun w w' h => by
  rw [Option.some.inj h]

theorem Keeps.bind {step next : Walk α → Option (Walk α)} (h : Keeps step)
    (h' : Keeps next) :
    Keeps fun w => (step w).bind next := by
  intro w w' hw
  obtain ⟨v, hv, hnext⟩ := Option.bind_eq_some_iff.mp hw
  rw [h' v w' hnext, h w v hv]

theorem Keeps.around {o : LookupOptions} {p : Pattern}
    {below : Walk α → Option (Walk α)}
    (h : Keeps below) : Keeps (around o p below) := by
  intro w w' hw
  rcases Option.or_eq_some_iff.mp hw with hexact | ⟨-, htaken⟩
  · obtain ⟨v, hv, hbelow⟩ := Option.bind_eq_some_iff.mp hexact
    obtain ⟨k, -, hk⟩ := Option.bind_eq_some_iff.mp hv
    obtain ⟨rest, hahead, rfl⟩ := exact_eq_some hk
    rw [h _ w' hbelow, entry_advance hahead]
  · split at htaken
    · obtain ⟨id, rest, hahead, hentry⟩ := taken_eq_some htaken
      rw [hentry, entry_advance hahead]
    · cases htaken

theorem entry_skipped {w w' : Walk α} {m : Option MVar} {keys ahead : List Key}
    (hahead : w.ahead = keys ++ ahead) (h : w.skipped m keys ahead = some w') :
    w'.entry = w.entry := by
  cases m with
  | none =>
      rw [← Option.some.inj h]
      exact entry_advance hahead _
  | some m =>
      simp only [skipped] at h
      split at h
      · split at h
        · rw [← Option.some.inj h]
          exact entry_advance hahead _
        · cases h
      · rw [← Option.some.inj h]
        exact entry_advance hahead 0

theorem keeps_skipping (o : LookupOptions) (m : Option MVar) :
    Keeps (skipping o m : Walk α → Option (Walk α)) := by
  intro w w' hw
  unfold skipping at hw
  split at hw
  · obtain ⟨hsplit, -, -⟩ := Key.takeSubtrees_spec 1 w.ahead
    unfold skip at hw
    split at hw
    next keys owed ahead htake =>
      rw [htake] at hsplit
      split at hw
      · exact entry_skipped hsplit hw
      · cases hw
  · cases hw

mutual

theorem keeps_follow (o : LookupOptions) :
    ∀ p : Pattern, Keeps (follow o p : Walk α → Option (Walk α))
  | .star m => by
      unfold follow
      split
      · exact keeps_skipping o m
      · exact keeps_some.around
  | .app h args => by
      unfold follow
      exact (keeps_followAll o args).around
  | .lam body => by
      unfold follow
      exact (keeps_follow o body).around
  | .pi domain body => by
      unfold follow
      exact ((keeps_follow o domain).bind (keeps_follow o body)).around
  | .proj s i value args => by
      unfold follow
      exact ((keeps_follow o value).bind (keeps_followAll o args)).around
  | .hidden | .fixed _ | .lit _ | .sort => by
      unfold follow
      exact keeps_some.around

theorem keeps_followAll (o : LookupOptions) :
    ∀ ps : List Pattern, Keeps (followAll o ps : Walk α → Option (Walk α))
  | [] => by
      unfold followAll
      exact keeps_some
  | p :: ps => by
      unfold followAll
      exact (keeps_follow o p).bind (keeps_followAll o ps)

end

end Walk

end TermIndex
