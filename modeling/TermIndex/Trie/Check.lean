import TermIndex.Trie.Basic

/-!
# Checking the shape of a trie

`check` walks a trie from the left and reports the first way in which its shape is
broken, or its sequences are not complete trees. What is owed is a number without a limit
here, and a word of 64 bits in `Words.Counts`.
-/

namespace TermIndex

namespace Key

/-- The number of subtrees owed after a key, given the number owed before it. -/
def spend (pending : Nat) (k : Key) : Except Fault Nat :=
  if pending = 0 then .error (.keyAfterEnd k) else .ok (pending - 1 + k.arity)

def spendAll (pending : Nat) (ks : List Key) : Except Fault Nat := ks.foldlM spend pending

def checkOrder : List Key → Except Fault Unit
  | a :: b :: rest =>
    if a.precedes b then checkOrder (b :: rest) else .error (.unordered a b)
  | _ => .ok ()

end Key

namespace Trie

variable {α : Type}

def isPath : Trie α → Bool
  | .path .. => true
  | _ => false

mutual

/-- Checks a trie at a place where `pending` subtrees are owed. -/
def check (pending : Nat) : Trie α → Except Fault Unit
  | .leaf values =>
    if values.isEmpty then .error .emptyLeaf
    else if pending ≠ 0 then .error (.subtreesMissing pending)
    else .ok ()
  | .path keys child =>
    if keys.isEmpty then .error .emptyPath
    else if child.isPath then .error (.nestedPath keys)
    else do check (← Key.spendAll pending keys) child
  | .node branches =>
    if branches.length < 2 then .error (.fewBranches branches.length)
    else do
      Key.checkOrder (branches.map Prod.fst)
      checkAll pending branches

def checkAll (pending : Nat) : List (Key × Trie α) → Except Fault Unit
  | [] => .ok ()
  | (k, t) :: rest => do
    check (← Key.spend pending k) t
    checkAll pending rest

end

end Trie

end TermIndex
