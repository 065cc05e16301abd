import TermIndex.Forest

/-!
# Positions

A place that a search has reached: the root of a forest, or a trie inside it. Half way
along a path it is the trie of the keys that are left.

A position is seen in three ways: all its children, the child of one key, and the
children of stars, which come first.
-/

namespace TermIndex

inductive Position (α : Type) where
  | root (f : Forest α)
  | inside (t : Trie α)

namespace Position

variable {α : Type}

def isRoot : Position α → Bool
  | .root _ => true
  | .inside _ => false

def values? : Position α → Option (List α)
  | .root _ => none
  | .inside t => t.values?

/-- A path without keys leads nowhere, not even to its child. -/
def fault? : Position α → Option Fault
  | .inside (.path [] _) => some .stuckInPath
  | _ => none

/-- Every child, with the key that leads to it. -/
def children : Position α → List (Key × Position α)
  | .root f => f.branches.map fun b => (b.1, .inside b.2)
  | .inside (.node branches) => branches.map fun b => (b.1, .inside b.2)
  | .inside (.path (k :: ks) child) => [(k, .inside (.along ks child))]
  | .inside _ => []

def child? (k : Key) : Position α → Option (Position α)
  | .root f => (f.get? k).map .inside
  | .inside (.node branches) => (Trie.branch? branches k).map .inside
  | .inside (.path (k' :: ks) child) =>
    if k' = k then some (.inside (.along ks child)) else none
  | .inside _ => none

/-- The branches at the front that belong to stars, with the numbers of the stars. -/
def leadingStars : List (Key × Trie α) → List (Nat × Position α)
  | (.star id, t) :: rest => (id, .inside t) :: leadingStars rest
  | _ => []

/-- The children that stars lead to, with the numbers of the stars. -/
def starChildren : Position α → List (Nat × Position α)
  | .root f =>
    (f.before .firstNonStar).filterMap fun b => b.1.starId?.map fun id => (id, .inside b.2)
  | .inside (.node branches) => leadingStars branches
  | .inside (.path (.star id :: ks) child) => [(id, .inside (.along ks child))]
  | .inside _ => []

end Position

end TermIndex
