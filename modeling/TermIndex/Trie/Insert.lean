import TermIndex.Trie.Branch

/-!
# Insertion

A value goes to the leaf at the end of its sequence. Where the sequence leaves the trie,
a new branch is added to the node there, or the path there is split in two.

Sequences are complete trees in prefix order, so none is the beginning of another. A
sequence that ends before a leaf, or goes on after one, is a fault.
-/

namespace TermIndex

/-- The longest common beginning of two lists, and what follows it in each. -/
def splitCommon {κ : Type} [DecidableEq κ] : List κ → List κ → List κ × List κ × List κ
  | a :: as, b :: bs =>
    if a = b then
      let (common, as, bs) := splitCommon as bs
      (a :: common, as, bs)
    else ([], a :: as, b :: bs)
  | as, bs => ([], as, bs)

namespace Trie

variable {α : Type} [BEq α]

/-- Adds a value to a leaf. It takes the place of the first value equal to it, or else
goes to the end. -/
def mergeValue (value : α) : List α → List α
  | [] => [value]
  | v :: vs => if v == value then value :: vs else v :: mergeValue value vs

/-- The node with the two branches, in order of their keys. -/
def fork (a b : Key × Trie α) : Trie α :=
  if b.1.precedes a.1 then .node [b, a] else .node [a, b]

mutual

/-- The trie with `value` added at the end of `keys`. -/
def insert (keys : List Key) (value : α) : Trie α → Except Fault (Trie α)
  | .leaf values =>
    if keys.isEmpty then .ok (.leaf (mergeValue value values))
    else .error (.keysLeft keys)
  | .node branches =>
    match keys with
    | [] => .error .endsAtNode
    | k :: rest =>
      match Key.place (branchKeys branches) k with
      | .found i => return .node (← insertAt i rest value branches)
      | .missing i => .ok (.node (branches.insertIdx i (k, single rest value)))
  | .path run child =>
    match splitCommon run keys with
    | (_, [], rest) => return .path run (← insert rest value child)
    | (_, _ :: _, []) => .error (.endsInPath keys run)
    | (common, p :: run, k :: rest) =>
      .ok (along common (fork (p, along run child) (k, single rest value)))

/-- The branches with `value` added below the branch at place `i`. -/
def insertAt (i : Nat) (keys : List Key) (value : α) :
    List (Key × Trie α) → Except Fault (List (Key × Trie α))
  | [] => .ok []
  | (k, t) :: rest =>
    match i with
    | 0 => return (k, ← insert keys value t) :: rest
    | i + 1 => return (k, t) :: (← insertAt i keys value rest)

end

end Trie

end TermIndex
