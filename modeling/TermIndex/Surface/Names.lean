import TermIndex.Term.Basic
import TermIndex.Surface.Numeral

/-!
# Variable names

The metavariables and free variables of a text are written by name. A name that is a
numeral stands for that number. Every other name is numbered by its first use, above
a base that keeps small numerals apart, and keeps its number from then on.
-/

namespace TermIndex.Surface

/-- The number of the first variable whose name is not a numeral, `2 ^ 20`. -/
def namedBase : Nat := 1048576

/-- The number of the variable called `name`, given the names met before in order of
first use, and those names with this one added if it is new. -/
def numberOf (known : List String) (name : String) : Nat × List String :=
  match numeral? maxId name.toList with
  | some n => (n, known)
  | none => match known.idxOf? name with
    | some i => (namedBase + i, known)
    | none => (namedBase + known.length, known ++ [name])

/-- The names met so far, in order of first use. -/
structure Names where
  mvars : List String
  fvars : List String
deriving DecidableEq

namespace Names

def empty : Names := ⟨[], []⟩

def mvar (ns : Names) (name : String) : MVar × Names :=
  let (id, mvars) := numberOf ns.mvars name
  (⟨id⟩, { ns with mvars })

def fvar (ns : Names) (name : String) : FVar × Names :=
  let (id, fvars) := numberOf ns.fvars name
  (⟨id⟩, { ns with fvars })

end Names

end TermIndex.Surface
