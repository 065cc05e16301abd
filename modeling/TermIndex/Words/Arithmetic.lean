import TermIndex.Trie.Basic

/-!
# Words

Indices of bound variables are words of 32 bits, arities and counts are words of 64.
Elsewhere they are numbers without a limit, which is what they stand for. Here are the sum
and the difference of two words as they are computed, and what becomes of one that does
not fit: a program that is built with overflow checks stops, and one that is built
without them keeps the low bits.

Numbers that only count what is in memory, such as lengths, positions and scores, always
fit. The others are those that can be taken from a term or a key: see `Words.Loose`,
`Words.Whnf` and `Words.Counts`.
-/

namespace TermIndex

/-- What becomes of a result that does not fit its word. -/
inductive Overflow where
  /-- The program stops with a fault. -/
  | faults
  /-- The low bits are kept. -/
  | wraps
deriving DecidableEq

namespace Word

/-- The number of words that an index can be. -/
def indices : Nat := 4294967296

/-- The number of words that a count can be. -/
def counts : Nat := 18446744073709551616

/-- The sum of two words, of which there are `size`. -/
def add (o : Overflow) (size a b : Nat) : Except Fault Nat :=
  if a + b < size then .ok (a + b)
  else match o with
    | .faults => .error .sumOverflow
    | .wraps => .ok ((a + b) % size)

/-- The difference of two words, of which there are `size`. -/
def sub (o : Overflow) (size a b : Nat) : Except Fault Nat :=
  if b ≤ a then .ok (a - b)
  else match o with
    | .faults => .error .differenceOverflow
    | .wraps => .ok (size + a - b)

end Word

end TermIndex
