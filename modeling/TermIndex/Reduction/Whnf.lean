import TermIndex.Reduction.Signature
import TermIndex.Term.Contract

/-!
# Weak head normal form

A policy says which steps may be taken at the head of a term: beta contracts a lambda
with its argument, zeta puts the value of a `let` into its body, delta unfolds a defined
constant, and projection takes a field out of a constructor application. A constant that
the signature hides ends the reduction with no term at all.

A reduction takes at most `maxSteps` steps and then stops where it is. A beta step
contracts the head as far as it goes, and a projection step first reduces the projected
value, with steps of its own; both may go on forever. `whnf` therefore takes the number
of steps that may be nested, and has no answer when they run out.

Indices, and the places of fields, are numbers without a limit here. See `Words.Whnf` for
reduction with words.
-/

namespace TermIndex

structure Policy where
  beta : Bool
  zeta : Bool
  delta : Bool
  proj : Bool
deriving DecidableEq

namespace Policy

def all : Policy := ⟨true, true, true, true⟩

def none : Policy := ⟨false, false, false, false⟩

end Policy

inductive Reduct where
  | term (t : Term)
  /-- The term has no structure that the index should look at. -/
  | hidden
deriving DecidableEq

/-- What one step at the head of a term comes to. -/
inductive Step where
  | next (t : Term)
  /-- No step can be taken. -/
  | stop
  | hidden
deriving DecidableEq

/-- The most steps that one reduction takes at the head. -/
def maxSteps : Nat := 512

namespace Signature

/-- The field of a reduced value, if that is an application of the structure's
constructor which has the field. -/
def field? (info : StructInfo) (index : Nat) : Reduct → Option Term
  | .term t => if t.head = .const info.constructor then t.args[info.numParams + index]? else none
  | .hidden => none

/-- One step at the head of a term, where `normal` reduces the value of a projection and
`fuel` bounds a beta step. -/
def step (sig : Signature) (policy : Policy) (fuel : Nat) (normal : Term → Option Reduct)
    (t : Term) : Option Step :=
  match t with
  | .letE _ _ value body =>
    some (if policy.zeta then .next (body.instantiate value) else .stop)
  | _ =>
    match t.head with
    | .lam .. =>
      if policy.beta ∧ 0 < t.numArgs then (t.headBeta fuel).map .next else some .stop
    | .const n =>
      if sig.hides n then some .hidden
      else if policy.delta then
        match sig.definition? n with
        | some value => some (.next (value.mkApp t.args))
        | none => some .stop
      else some .stop
    | .proj s i value =>
      if policy.proj then
        match sig.struct? s with
        | some info => do
          match field? info i (← normal value) with
          | some field => some (.next (field.mkApp t.args))
          | none => some .stop
        | none => some .stop
      else some .stop
    | _ => some .stop

def reduce (sig : Signature) (policy : Policy) (fuel steps : Nat) (t : Term) :
    Option Reduct :=
  match steps, fuel with
  | 0, _ => some (.term t)
  | _ + 1, 0 => none
  | steps + 1, fuel + 1 => do
    match ← sig.step policy fuel (sig.reduce policy fuel maxSteps) t with
    | .next t' => sig.reduce policy fuel steps t'
    | .stop => some (.term t)
    | .hidden => some .hidden

def whnf (sig : Signature) (fuel : Nat) (policy : Policy) (t : Term) : Option Reduct :=
  sig.reduce policy fuel maxSteps t

end Signature

end TermIndex
