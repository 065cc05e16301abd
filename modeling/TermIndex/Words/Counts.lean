import TermIndex.Index
import TermIndex.Pattern.Reader
import TermIndex.Words.Arithmetic

/-!
# Counts in words

What depends on the number of subtrees that a sequence owes, with this number as a word:
where subtrees end, the checks of sequences and tries, and the insertion of a sequence
that is checked first. Arities are part of the keys, so the sum of a few of them may not
fit.

A number that wraps around to zero makes a sequence look complete.
-/

namespace TermIndex

namespace Key

/-! ## Sequences -/

def subtreesLengthIn? (o : Overflow) : Nat → List Key → OptionT (Except Fault) Nat
  | 0, _ => return 0
  | _ + 1, [] => failure
  | pending + 1, k :: ks => do
    let owed ← Word.add o Word.counts pending k.arity
    return (← subtreesLengthIn? o owed ks) + 1

def subtreeLengthIn? (o : Overflow) (ks : List Key) (start : Nat) :
    OptionT (Except Fault) Nat :=
  subtreesLengthIn? o 1 (ks.drop start)

/-- What the check says of a sequence, if counting it does not overflow. -/
def checkFromIn (o : Overflow) (pos pending : Nat) :
    List Key → Except Fault (Except KeyError Unit)
  | [] => return if pending = 0 then .ok () else .error (.truncated pending)
  | k :: ks =>
    if pending = 0 then return .error (.trailing pos)
    else if k.badArity then return .error (.badArity pos)
    else do checkFromIn o (pos + 1) (← Word.add o Word.counts (pending - 1) k.arity) ks

def checkIn (o : Overflow) (ks : List Key) : Except Fault (Except KeyError Unit) :=
  if ks.isEmpty then return .error .empty else checkFromIn o 0 1 ks

/-! ## Tries -/

def spendIn (o : Overflow) (pending : Nat) (k : Key) : Except Fault Nat :=
  if pending = 0 then .error (.keyAfterEnd k)
  else Word.add o Word.counts (pending - 1) k.arity

def spendAllIn (o : Overflow) (pending : Nat) (ks : List Key) : Except Fault Nat :=
  ks.foldlM (spendIn o) pending

end Key

namespace Trie

variable {α : Type}

mutual

def checkIn (o : Overflow) (pending : Nat) : Trie α → Except Fault Unit
  | .leaf values =>
    if values.isEmpty then .error .emptyLeaf
    else if pending ≠ 0 then .error (.subtreesMissing pending)
    else .ok ()
  | .path keys child =>
    if keys.isEmpty then .error .emptyPath
    else if child.isPath then .error (.nestedPath keys)
    else do checkIn o (← Key.spendAllIn o pending keys) child
  | .node branches =>
    if branches.length < 2 then .error (.fewBranches branches.length)
    else do
      Key.checkOrder (branches.map Prod.fst)
      checkAllIn o pending branches

def checkAllIn (o : Overflow) (pending : Nat) : List (Key × Trie α) → Except Fault Unit
  | [] => .ok ()
  | (k, t) :: rest => do
    checkIn o (← Key.spendIn o pending k) t
    checkAllIn o pending rest

end

end Trie

def Forest.checkIn {α : Type} (o : Overflow) (f : Forest α) : Except Fault Unit :=
  Trie.checkAllIn o 1 f.branches

/-! ## Reading and inserting -/

/-- The pattern that a sequence spells out, if it passes the check. -/
def Pattern.ofKeysIn (o : Overflow) (ks : List Key) :
    Except Fault (Except KeyError Pattern) := do
  match ← Key.checkIn o ks with
  | .error e => return .error e
  | .ok () =>
    match readAt ks 0 with
    | .ok p => return .ok p.item
    | .error (.starOutOfRange pos) => return .error (.starOutOfRange pos)
    | .error (.pastEnd pos) => .error (.pastEnd ks.length pos)

namespace Index

variable {α : Type}

def checkIn (o : Overflow) (ix : Index α) : Except Fault Unit := ix.forest.checkIn o

/-- The index with a value added under a sequence of keys, if that passes the check. -/
def insertKeysIn [BEq α] (o : Overflow) (ix : Index α) (ks : List Key) (value : α) :
    Except Fault (Except KeyError (Index α)) := do
  match ← Key.checkIn o ks with
  | .error e => return .error e
  | .ok () => return .ok { ix with forest := ← ix.forest.insert ks value }

end Index

end TermIndex
