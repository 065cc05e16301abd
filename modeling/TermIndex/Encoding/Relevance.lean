import TermIndex.Term.Basic

/-!
# Relevance of arguments

Some arguments of an application say nothing that the others do not say, and are
indexed as wildcards. The decision is made from how the function declares its
parameters: instance arguments and out-parameters are never relevant, implicit arguments
only if they are types, explicit arguments unless they are proofs. An argument with no
declared parameter is always relevant.
-/

namespace TermIndex

structure Param where
  info : BinderInfo
  /-- Whether the other arguments of a class determine this one. -/
  isOutParam : Bool
deriving DecidableEq

structure ParamTable where
  params : List (Name × List Param)
  types : List Name
  proofs : List Name
deriving DecidableEq

namespace ParamTable

def empty : ParamTable := ⟨[], [], []⟩

/-- Registers the parameters of a function, in place of earlier ones. -/
def setParams (table : ParamTable) (name : Name) (params : List Param) : ParamTable :=
  { table with params := (name, params) :: table.params }

/-- The parameters that the leading binders of a type declare. A domain of the form
`outParam T` marks an out-parameter. -/
def paramsOf : Term → List Param
  | .pi _ info domain body => ⟨info, domain.head = .const "outParam"⟩ :: paramsOf body
  | _ => []

def declare (table : ParamTable) (name : Name) (type : Term) : ParamTable :=
  table.setParams name (paramsOf type)

def addType (table : ParamTable) (name : Name) : ParamTable :=
  { table with types := name :: table.types }

def addProof (table : ParamTable) (name : Name) : ParamTable :=
  { table with proofs := name :: table.proofs }

def param? (table : ParamTable) (head : Term) (index : Nat) : Option Param :=
  match head with
  | .const name => do (← table.params.lookup name)[index]?
  | _ => none

def isType (table : ParamTable) (t : Term) : Bool :=
  t.isSortLike || match t, t.head with
    | .pi .., _ => true
    | _, .const name => table.types.contains name
    | _, _ => false

def isProof (table : ParamTable) (t : Term) : Bool :=
  match t.head with
  | .const name => table.proofs.contains name
  | _ => false

/-- Whether the argument of `head` at `index` is left out of the index. -/
def irrelevant (table : ParamTable) (head : Term) (index : Nat) (arg : Term) : Bool :=
  match table.param? head index with
  | none => false
  | some param =>
    param.isOutParam || match param.info with
      | .inst => true
      | .implicit | .strict => ! table.isType arg
      | .default => table.isProof arg

end ParamTable

end TermIndex
