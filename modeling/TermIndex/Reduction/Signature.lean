import TermIndex.Term.Basic

/-!
# Signatures

What is known about the constants of the host: definitions to unfold, structures to
project from, and constants that hide everything below them. Nothing is known about
types. A later entry for a name takes the place of an earlier one.
-/

namespace TermIndex

/-- How values of a structure are built: by a constructor whose fields come after its
parameters. -/
structure StructInfo where
  constructor : Name
  numParams : Nat
deriving DecidableEq

structure Signature where
  definitions : List (Name × Term)
  structures : List (Name × StructInfo)
  hiddenNames : List Name
deriving DecidableEq

namespace Signature

def empty : Signature := ⟨[], [], []⟩

/-- Registers a definition. The value is usually a lambda. -/
def define (sig : Signature) (name : Name) (value : Term) : Signature :=
  { sig with definitions := (name, value) :: sig.definitions }

def declareStruct (sig : Signature) (name : Name) (info : StructInfo) : Signature :=
  { sig with structures := (name, info) :: sig.structures }

def hide (sig : Signature) (name : Name) : Signature :=
  { sig with hiddenNames := name :: sig.hiddenNames }

def definition? (sig : Signature) (name : Name) : Option Term :=
  sig.definitions.lookup name

def struct? (sig : Signature) (name : Name) : Option StructInfo :=
  sig.structures.lookup name

def hides (sig : Signature) (name : Name) : Bool :=
  sig.hiddenNames.contains name

end Signature

end TermIndex
