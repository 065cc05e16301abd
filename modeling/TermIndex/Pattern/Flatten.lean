import TermIndex.Pattern.Basic

/-!
# Flattening

A pattern is stored as the sequence of its keys in prefix order. This takes two steps:
`slots` lists the nodes in prefix order and leaves the wildcards with their
metavariables, and `numbered` replaces each wildcard by a star, numbered by the first
occurrence of its metavariable. An anonymous wildcard always gets a new number.
-/

namespace TermIndex

/-- A place in a flattened pattern: a key, or a wildcard that is not yet numbered. -/
inductive Slot where
  | wild (m : Option MVar)
  | key (k : Key)
deriving DecidableEq

namespace Slot

/-- The keys of a list of slots, given the wildcards met before it in order of their
numbers, and the wildcards met after it. -/
def numberedFrom (seen : List (Option MVar)) : List Slot → List Key × List (Option MVar)
  | [] => ([], seen)
  | .key k :: rest =>
    let (ks, seen) := numberedFrom seen rest
    (k :: ks, seen)
  | .wild none :: rest =>
    let (ks, after) := numberedFrom (seen ++ [none]) rest
    (.star seen.length :: ks, after)
  | .wild (some m) :: rest =>
    match seen.idxOf? (some m) with
    | some id =>
      let (ks, after) := numberedFrom seen rest
      (.star id :: ks, after)
    | none =>
      let (ks, after) := numberedFrom (seen ++ [some m]) rest
      (.star seen.length :: ks, after)

end Slot

namespace Pattern

mutual

def slots : Pattern → List Slot
  | .star m => [.wild m]
  | .hidden | .fixed _ => [.key .hidden]
  | .app h args => .key (.app h args.length) :: slotsAll args
  | .lit l => [.key (.lit l)]
  | .sort => [.key .sort]
  | .lam body => .key .lam :: slots body
  | .pi domain body => .key .pi :: (slots domain ++ slots body)
  | .proj s i value args =>
    .key (.proj s i (args.length + 1)) :: (slots value ++ slotsAll args)

def slotsAll : List Pattern → List Slot
  | [] => []
  | p :: ps => slots p ++ slotsAll ps

end

def keys (p : Pattern) : List Key := (Slot.numberedFrom [] p.slots).1

/-- The number of different wildcards of a pattern. -/
def numStars (p : Pattern) : Nat := (Slot.numberedFrom [] p.slots).2.length

/-! ## Trees of a sequence -/

/-- Puts one key in front of the trees that follow it. The key takes as many of them as
its arity says. -/
def graft : Key → List Pattern → List Pattern
  | .star id, ps => .star (some ⟨id⟩) :: ps
  | .app h n, ps => .app h (ps.take n) :: ps.drop n
  | .lit l, ps => .lit l :: ps
  | .sort, ps => .sort :: ps
  | .lam, body :: ps => .lam body :: ps
  | .pi, domain :: body :: ps => .pi domain body :: ps
  | .proj s i n, value :: ps => .proj s i value (ps.take (n - 1)) :: ps.drop (n - 1)
  | _, ps => .hidden :: ps

/-- The trees that a sequence of complete trees spells out. -/
def readAll (ks : List Key) : List Pattern := ks.foldr graft []

end Pattern

end TermIndex
