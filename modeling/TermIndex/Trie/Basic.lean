import TermIndex.Key

/-!
# Tries

A trie stores values under sequences of keys. Runs of keys with a single continuation
are compressed into paths. A trie that is built by insertion has this shape:

- a node has at least two branches, strictly increasing by key;
- a path has at least one key, and is never directly below another path;
- a leaf has at least one value, and is reached exactly where a sequence is complete.

The type allows every shape, since a trie may also be put together by hand. `entries` is
what a trie means: its sequences with their values.
-/

namespace TermIndex

/-- Ways in which a trie, a sequence that is read, or a sequence or query that is run
through a trie, can be broken. None of them arises for checked sequences, and for tries
that are built by their insertion. The last three stop work of any kind. -/
inductive Fault where
  | fewBranches (count : Nat)
  | unordered (first second : Key)
  | emptyPath
  | nestedPath (keys : List Key)
  | emptyLeaf
  | subtreesMissing (count : Nat)
  | keyAfterEnd (key : Key)
  /-- A sequence goes on at a leaf. -/
  | keysLeft (keys : List Key)
  /-- A sequence ends at a node. -/
  | endsAtNode
  /-- A sequence ends inside a path. -/
  | endsInPath (keys path : List Key)
  | emptySequence
  /-- A query is used up where there is no leaf. -/
  | queryEnded
  /-- A search cannot leave a path without keys. -/
  | stuckInPath
  /-- A reader looks for a key behind the last one. -/
  | pastEnd (count pos : Nat)
  /-- Work that may not end was given up. -/
  | unfinished
  /-- A sum does not fit its word. -/
  | sumOverflow
  /-- A difference is below zero. -/
  | differenceOverflow
deriving DecidableEq

namespace Fault

def message : Fault → String
  | .fewBranches n => "node with " ++ toString n ++ " children"
  | .unordered a b => "node children out of order: " ++ a.render ++ " then " ++ b.render
  | .emptyPath => "empty path"
  | .nestedPath ks => "path " ++ Key.renderAll ks ++ " contains another path"
  | .emptyLeaf => "empty leaf"
  | .subtreesMissing n => "leaf reached with " ++ toString n ++ " subtrees missing"
  | .keyAfterEnd k => "key " ++ k.render ++ " after the sequence is complete"
  | .keysLeft ks => "key mismatch: leaf reached with keys left: " ++ Key.renderAll ks
  | .endsAtNode => "key mismatch: node reached with no keys left"
  | .endsInPath ks path =>
    "key mismatch: sequence " ++ Key.renderAll ks ++ " ends inside path " ++ Key.renderAll path
  | .emptySequence => "cannot insert an empty key sequence"
  | .queryEnded => "key mismatch: query ended before a leaf"
  | .stuckInPath => "index out of bounds: the len is 0 but the index is 0"
  | .pastEnd n pos =>
    "index out of bounds: the len is " ++ toString n ++ " but the index is " ++ toString pos
  | .unfinished => "reduction did not finish"
  | .sumOverflow => "attempt to add with overflow"
  | .differenceOverflow => "attempt to subtract with overflow"

end Fault

inductive Trie (α : Type) where
  | leaf (values : List α)
  | path (keys : List Key) (child : Trie α)
  | node (branches : List (Key × Trie α))

namespace Trie

variable {α β : Type}

/-- The child below some keys, which may be none. -/
def along (keys : List Key) (child : Trie α) : Trie α :=
  if keys.isEmpty then child else .path keys child

def single (keys : List Key) (value : α) : Trie α := along keys (.leaf [value])

def values? : Trie α → Option (List α)
  | .leaf values => some values
  | _ => none

mutual

def numLeaves : Trie α → Nat
  | .leaf _ => 1
  | .path _ child => numLeaves child
  | .node branches => numLeavesAll branches

def numLeavesAll : List (Key × Trie α) → Nat
  | [] => 0
  | (_, t) :: rest => numLeaves t + numLeavesAll rest

end

mutual

/-- The trie of the same shape that holds `f` of each value. -/
def map (f : α → β) : Trie α → Trie β
  | .leaf values => .leaf (values.map f)
  | .path keys child => .path keys (map f child)
  | .node branches => .node (mapAll f branches)

def mapAll (f : α → β) : List (Key × Trie α) → List (Key × Trie β)
  | [] => []
  | (k, t) :: rest => (k, map f t) :: mapAll f rest

end

mutual

/-- Every stored sequence with its values, each sequence after the keys in `front`. -/
def entriesFrom (front : List Key) : Trie α → List (List Key × List α)
  | .leaf values => [(front, values)]
  | .path keys child => entriesFrom (front ++ keys) child
  | .node branches => entriesFromAll front branches

def entriesFromAll (front : List Key) : List (Key × Trie α) → List (List Key × List α)
  | [] => []
  | (k, t) :: rest => entriesFrom (front ++ [k]) t ++ entriesFromAll front rest

end

def entries (t : Trie α) : List (List Key × List α) := t.entriesFrom []

end Trie

end TermIndex
