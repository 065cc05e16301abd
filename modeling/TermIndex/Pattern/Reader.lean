import TermIndex.Pattern.Flatten
import TermIndex.Trie.Basic

/-!
# Reading patterns back

A sequence is read from its front. Each key says what kind of node it is, and so which
trees are read behind it. A reader takes the next key without looking whether there is
one, so a sequence is checked before it is read.

Reading moves forward only, which is what it returns beside the pattern: the position
behind it, and that this is no earlier one.
-/

namespace TermIndex

/-- Why reading ends inside a tree. -/
inductive ReadError where
  /-- There is no key at this position. -/
  | pastEnd (pos : Nat)
  /-- The star at this position has a number that no metavariable has. -/
  | starOutOfRange (pos : Nat)
deriving DecidableEq

/-- What was read, and the position behind it. -/
structure Progress (β : Type) (start : Nat) where
  item : β
  next : Nat
  le : start ≤ next

namespace Pattern

/-- The largest number of a metavariable, and so of a star that can be read back as one,
`2 ^ 32 - 1`. -/
def maxStarId : Nat := 4294967295

mutual

/-- Reads the tree that begins at `pos`. Star `n` is read as the wildcard of
metavariable `n`. -/
def readAt (ks : List Key) (pos : Nat) : Except ReadError (Progress Pattern (pos + 1)) :=
  match h : ks[pos]? with
  | none => throw (.pastEnd pos)
  | some (.star id) => do
    if maxStarId < id then
      throw (.starOutOfRange pos)
    return ⟨.star (some ⟨id⟩), pos + 1, Nat.le_refl _⟩
  | some .hidden => return ⟨.hidden, pos + 1, Nat.le_refl _⟩
  | some (.app head n) => do
    let args ← readMany ks (pos + 1) n
    return ⟨.app head args.item, args.next, args.le⟩
  | some (.lit l) => return ⟨.lit l, pos + 1, Nat.le_refl _⟩
  | some .sort => return ⟨.sort, pos + 1, Nat.le_refl _⟩
  | some .lam => do
    let body ← readAt ks (pos + 1)
    return ⟨.lam body.item, body.next, Nat.le_of_succ_le body.le⟩
  | some .pi => do
    let domain ← readAt ks (pos + 1)
    let body ← readAt ks domain.next
    return ⟨.pi domain.item body.item, body.next,
      Nat.le_trans (Nat.le_of_succ_le domain.le) (Nat.le_of_succ_le body.le)⟩
  | some (.proj struct index n) => do
    let value ← readAt ks (pos + 1)
    let args ← readMany ks value.next (n - 1)
    return ⟨.proj struct index value.item args.item, args.next,
      Nat.le_trans (Nat.le_of_succ_le value.le) args.le⟩
termination_by (ks.length - pos, 0)
decreasing_by
  all_goals
    have hpos := (List.getElem?_eq_some_iff.mp h).1
    refine Prod.Lex.left _ _ ?_
    first
    | omega
    | have hle := domain.le; omega
    | have hle := value.le; omega

/-- Reads `n` trees, of which the first begins at `pos`. -/
def readMany (ks : List Key) (pos : Nat) :
    (n : Nat) → Except ReadError (Progress (List Pattern) pos)
  | 0 => return ⟨[], pos, Nat.le_refl _⟩
  | n + 1 => do
    let p ← readAt ks pos
    let ps ← readMany ks p.next n
    return ⟨p.item :: ps.item, ps.next, Nat.le_trans (Nat.le_of_succ_le p.le) ps.le⟩
termination_by n => (ks.length - pos, n + 1)
decreasing_by
  · exact Prod.Lex.right _ (Nat.succ_pos _)
  · have hle : ks.length - p.next ≤ ks.length - pos :=
      Nat.sub_le_sub_left (Nat.le_of_succ_le p.le) _
    rcases Nat.lt_or_eq_of_le hle with hlt | heq
    · exact Prod.Lex.left _ _ hlt
    · rw [heq]
      exact Prod.Lex.right _ (Nat.lt_succ_self _)

end

/-- The pattern that a sequence spells out, or what is wrong with the sequence. -/
def ofKeys (ks : List Key) : Except KeyError (Except Fault Pattern) := do
  Key.check ks
  match readAt ks 0 with
  | .ok p => return .ok p.item
  | .error (.starOutOfRange pos) => throw (.starOutOfRange pos)
  | .error (.pastEnd pos) => return .error (.pastEnd ks.length pos)

end Pattern

end TermIndex
