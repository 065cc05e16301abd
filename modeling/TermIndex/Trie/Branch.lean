import TermIndex.Trie.Basic

/-!
# Finding a branch

The branches of a node are ordered by key, so a key is found by halving: `lastUpTo` is
the place that halving ends at, the last branch whose key does not come after the key
that is looked for. On branches out of order the answer is whatever halving meets.
-/

namespace TermIndex

/-- Halves the places from `base` to `base + size` until one is left, keeping the upper
half when its first place is not too far. As many rounds as there are places are enough. -/
def lastUpTo (near : Nat → Bool) (rounds base size : Nat) : Nat :=
  match rounds with
  | 0 => base
  | rounds + 1 =>
    if size ≤ 1 then base
    else
      let half := size / 2
      lastUpTo near rounds (if near (base + half) then base + half else base) (size - half)

/-- Where a key is among others, or where it belongs. -/
inductive Place where
  | found (i : Nat)
  | missing (i : Nat)
deriving DecidableEq

namespace Key

/-- The place of a key among keys in increasing order. -/
def place (ks : List Key) (k : Key) : Place :=
  let near i := match ks[i]? with
    | some k' => (compare k' k).isLE
    | none => false
  let i := lastUpTo near ks.length 0 ks.length
  match ks[i]? with
  | some k' => if k' = k then .found i else if k'.precedes k then .missing (i + 1) else .missing i
  | none => .missing 0

end Key

namespace Trie

variable {α : Type}

def branchKeys (branches : List (Key × Trie α)) : List Key := branches.map Prod.fst

def branch? (branches : List (Key × Trie α)) (k : Key) : Option (Trie α) :=
  match Key.place (branchKeys branches) k with
  | .found i => branches[i]?.map Prod.snd
  | .missing _ => none

end Trie

end TermIndex
