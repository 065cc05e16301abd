import TermIndex.Pattern.Basic
import TermIndex.Search.Skip

/-!
# Unification of a query with a forest

A search walks a query and a forest together, depth first. There are three ways on:

- *exact*: the key of the query's node leads on, and the children follow. This is worth
  one, or nothing for a lambda;
- *stored star*: a star in the forest takes the whole subtree of the query. Its first
  occurrence is free; a later one must take an equal subtree, and is worth its size;
- *query wildcard*: a wildcard of the query skips a stored subtree. One metavariable
  must skip the same keys each time. Skipping a hidden subtree is worth one.

A thread is one such walk, part way through. Threads that reach a leaf when the query is
used up are hits.
-/

namespace TermIndex

structure LookupOptions where
  /-- Whether the metavariables of a query are wildcards. If not, only stored stars
  match them. -/
  unify : Bool
  /-- Whether a query that is only a wildcard, or a stored star on its own, may match. -/
  allowRootStar : Bool
  /-- How many of the best results are kept, if not all. -/
  maxResults : Option Nat
  /-- Results with a smaller score are dropped. -/
  minScore : Nat
deriving DecidableEq

def LookupOptions.standard : LookupOptions := ⟨true, false, none, 0⟩

structure Thread (α : Type) where
  here : Position α
  /-- The stored keys passed so far. -/
  walked : List Key
  /-- The subtree of the query that each stored star took. -/
  stars : List (Nat × Pattern)
  /-- The stored keys that each metavariable of the query skipped. -/
  mvars : List (MVar × List Key)
  score : Nat

/-- The values stored under a sequence, and how well it matched. -/
structure Hit (α : Type) where
  keys : List Key
  values : List α
  score : Nat

namespace Thread

variable {α : Type}

def start (f : Forest α) : Thread α := ⟨.root f, [], [], [], 0⟩

def starsAllowed (s : Thread α) (o : LookupOptions) : Bool :=
  ! s.here.isRoot || o.allowRootStar

/-- The thread after passing some keys, with a bonus. -/
def advance (s : Thread α) (keys : List Key) (here : Position α) (bonus : Nat) : Thread α :=
  { s with here, walked := s.walked ++ keys, score := s.score + bonus }

/-- The child of the node's key, where the children of the node go on. -/
def exact (s : Thread α) (k : Key) : Option (Thread α) :=
  (s.here.child? k).map fun here => s.advance [k] here (if k = .lam then 0 else 1)

/-- The stored stars that can take the subtree `p` of the query. -/
def takenBy (s : Thread α) (p : Pattern) : List (Thread α) :=
  s.here.starChildren.filterMap fun (id, here) =>
    match s.stars.lookup id with
    | some bound => if bound = p then some (s.advance [.star id] here p.size) else none
    | none => some { s.advance [.star id] here 0 with stars := (id, p) :: s.stars }

/-- The thread after a wildcard skipped some keys, if its metavariable did not skip others
before. -/
def skipped (s : Thread α) (m : Option MVar) (keys : List Key) (t : Trie α) :
    Option (Thread α) :=
  let next := s.advance keys (.inside t) (if keys.head? = some .hidden then 1 else 0)
  match m with
  | none => some next
  | some m => match s.mvars.lookup m with
    | some bound => if bound = keys then some next else none
    | none => some { next with mvars := (m, keys) :: s.mvars }

end Thread

namespace Search

variable {α : Type}

/-- Unifies a node that is no wildcard of the query: its key and then its children, by
`below`, or a stored star. -/
def around (o : LookupOptions) (p : Pattern) (below : Thread α → Outcomes (Thread α))
    (s : Thread α) : Outcomes (Thread α) :=
  match s.here.fault? with
  | some e => [.error e]
  | none =>
    let exact := match p.key?.bind s.exact with
      | some next => below next
      | none => []
    exact ++ if s.starsAllowed o then (s.takenBy p).map .ok else []

def skipping (o : LookupOptions) (m : Option MVar) (s : Thread α) : Outcomes (Thread α) :=
  if s.starsAllowed o then
    s.here.skips.andThen fun (keys, t) => ((s.skipped m keys t).map .ok).toList
  else []

mutual

/-- Every way on from a thread through one pattern of the query. -/
def unify (o : LookupOptions) : Pattern → Thread α → Outcomes (Thread α)
  | .star m =>
    if m = none ∨ o.unify then skipping o m else around o (.star m) fun s => [.ok s]
  | .app h args => around o (.app h args) (unifyAll o args)
  | .lam body => around o (.lam body) (unify o body)
  | .pi domain body =>
    around o (.pi domain body) fun s => (unify o domain s).andThen (unify o body)
  | .proj st i value args =>
    around o (.proj st i value args) fun s => (unify o value s).andThen (unifyAll o args)
  | .hidden => around o .hidden fun s => [.ok s]
  | .fixed m => around o (.fixed m) fun s => [.ok s]
  | .lit l => around o (.lit l) fun s => [.ok s]
  | .sort => around o .sort fun s => [.ok s]

def unifyAll (o : LookupOptions) : List Pattern → Thread α → Outcomes (Thread α)
  | [], s => [.ok s]
  | p :: ps, s => (unify o p s).andThen (unifyAll o ps)

end

/-- A thread for which the query is used up must be at a leaf. -/
def finish (s : Thread α) : Except Fault (Hit α) :=
  match s.here.values? with
  | some values => .ok ⟨s.walked, values, s.score⟩
  | none => .error .queryEnded

/-- Every hit of a query, in the order in which the search finds them. -/
def hits (o : LookupOptions) (f : Forest α) (query : Pattern) : Outcomes (Hit α) :=
  if query.isStar && ! o.allowRootStar then []
  else (unify o query (Thread.start f)).andThen fun s => [finish s]

/-- Hits with the best score first. Equal scores keep their order. -/
def ranked (hs : List (Hit α)) : List (Hit α) :=
  hs.mergeSort fun a b => b.score ≤ a.score

/-- Every hit of a query, the best ones first. -/
def best (o : LookupOptions) (f : Forest α) (query : Pattern) :
    Except Fault (List (Hit α)) := do
  return ranked (← (hits o f query).collect)

end Search

end TermIndex
