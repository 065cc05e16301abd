/-!
# Character classes

A class of characters is a list of ranges of code points, both ends included,
in increasing order. Membership walks the list and gives up at the first range
that starts above the character, so that small code points are settled at once.
-/

namespace TermIndex

/-- Increasing ranges of code points, each given by its first and last member. -/
structure CharClass where
  ranges : List (Nat × Nat)

namespace CharClass

def covers (n : Nat) : List (Nat × Nat) → Bool
  | [] => false
  | (first, last) :: rest =>
    if n < first then false else if n ≤ last then true else covers n rest

def contains (k : CharClass) (c : Char) : Bool := covers c.toNat k.ranges

end CharClass

end TermIndex
