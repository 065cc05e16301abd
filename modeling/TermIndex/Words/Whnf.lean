import TermIndex.Reduction.Whnf
import TermIndex.Words.Loose

/-!
# Weak head normal form in words

Reduction with indices that are words, and with the place of a field as a count. The
answer is missing if the fuel runs out, which is no fault.
-/

namespace TermIndex.Signature

def fieldIn? (o : Overflow) (info : StructInfo) (index : Nat) :
    Reduct → OptionT (Except Fault) Term
  | .term t => do
    if t.head = .const info.constructor then
      OptionT.mk (return t.args[← Word.add o Word.counts info.numParams index]?)
    else failure
  | .hidden => failure

def stepIn (o : Overflow) (sig : Signature) (policy : Policy) (fuel : Nat)
    (normal : Term → OptionT (Except Fault) Reduct) (t : Term) :
    OptionT (Except Fault) Step :=
  match t with
  | .letE _ _ value body => do
    if policy.zeta then return .next (← body.instantiateIn o value) else return .stop
  | _ =>
    match t.head with
    | .lam .. =>
      if policy.beta ∧ 0 < t.numArgs then return .next (← t.headBetaIn o fuel)
      else return .stop
    | .const n =>
      if sig.hides n then return .hidden
      else if policy.delta then
        match sig.definition? n with
        | some value => return .next (value.mkApp t.args)
        | none => return .stop
      else return .stop
    | .proj s i value =>
      if policy.proj then
        match sig.struct? s with
        | some info => do
          let r ← normal value
          (do return .next ((← fieldIn? o info i r).mkApp t.args)) <|> return .stop
        | none => return .stop
      else return .stop
    | _ => return .stop

def reduceIn (o : Overflow) (sig : Signature) (policy : Policy) (fuel steps : Nat)
    (t : Term) : OptionT (Except Fault) Reduct :=
  match steps, fuel with
  | 0, _ => return .term t
  | _ + 1, 0 => failure
  | steps + 1, fuel + 1 => do
    match ← sig.stepIn o policy fuel (sig.reduceIn o policy fuel maxSteps) t with
    | .next t' => sig.reduceIn o policy fuel steps t'
    | .stop => return .term t
    | .hidden => return .hidden

def whnfIn (o : Overflow) (sig : Signature) (fuel : Nat) (policy : Policy) (t : Term) :
    OptionT (Except Fault) Reduct :=
  sig.reduceIn o policy fuel maxSteps t

end TermIndex.Signature
