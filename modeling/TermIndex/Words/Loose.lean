import TermIndex.Encoding.Conversion
import TermIndex.Words.Arithmetic

/-!
# Loose bound variables in words

The operations of `Term.Loose` and `Term.Contract`, and the conversions, with indices and
depths that are words. A number overflows where a variable has the largest index or where
a shift leads beyond it.

A range that wraps around to zero makes a subterm look closed. Such a subterm is left
alone, whatever is loose in it.
-/

namespace TermIndex

namespace Term

/-! ## Ranges and occurrences -/

def looseRangeIn (o : Overflow) : Term → Except Fault Nat
  | .bvar i => Word.add o Word.indices i 1
  | .app f a => do return max (← f.looseRangeIn o) (← a.looseRangeIn o)
  | .lam _ _ d b => do return max (← d.looseRangeIn o) ((← b.looseRangeIn o) - 1)
  | .pi _ _ d b => do return max (← d.looseRangeIn o) ((← b.looseRangeIn o) - 1)
  | .letE _ t v b => do
    return max (max (← t.looseRangeIn o) (← v.looseRangeIn o)) ((← b.looseRangeIn o) - 1)
  | .proj _ _ e => e.looseRangeIn o
  | .fvar _ | .mvar _ | .sort _ | .const _ | .lit _ => return 0

def hasLooseIn (o : Overflow) (t : Term) : Except Fault Bool := do
  return 0 < (← t.looseRangeIn o)

/-- The index goes up under a binder, which is not looked into if the variable is found
before. -/
def occursIn (o : Overflow) (i : Nat) : Term → Except Fault Bool
  | .bvar j => return j == i
  | .app f a => do if ← f.occursIn o i then return true else a.occursIn o i
  | .lam _ _ d b => do
    if ← d.occursIn o i then return true else b.occursIn o (← Word.add o Word.indices i 1)
  | .pi _ _ d b => do
    if ← d.occursIn o i then return true else b.occursIn o (← Word.add o Word.indices i 1)
  | .letE _ t v b => do
    if ← t.occursIn o i then return true
    else if ← v.occursIn o i then return true
    else b.occursIn o (← Word.add o Word.indices i 1)
  | .proj _ _ e => e.occursIn o i
  | .fvar _ | .mvar _ | .sort _ | .const _ | .lit _ => return false

/-! ## Replacements -/

def mapLooseIn (o : Overflow) (f : Nat → Nat → Except Fault Term) (depth : Nat) (t : Term) :
    Except Fault Term := do
  if (← t.looseRangeIn o) ≤ depth then return t
  else match t with
    | .bvar i => f i depth
    | .app g a => return .app (← g.mapLooseIn o f depth) (← a.mapLooseIn o f depth)
    | .lam n i d b =>
      return .lam n i (← d.mapLooseIn o f depth)
        (← b.mapLooseIn o f (← Word.add o Word.indices depth 1))
    | .pi n i d b =>
      return .pi n i (← d.mapLooseIn o f depth)
        (← b.mapLooseIn o f (← Word.add o Word.indices depth 1))
    | .letE n ty v b =>
      return .letE n (← ty.mapLooseIn o f depth) (← v.mapLooseIn o f depth)
        (← b.mapLooseIn o f (← Word.add o Word.indices depth 1))
    | .proj s i e => return .proj s i (← e.mapLooseIn o f depth)
    | t => return t

def raiseIn (o : Overflow) (start amount : Nat) (t : Term) : Except Fault Term :=
  if amount = 0 then return t
  else t.mapLooseIn o (fun i depth => do
    if (← Word.add o Word.indices start depth) ≤ i then
      return .bvar (← Word.add o Word.indices i amount)
    else return .bvar i) 0

def lowerIn (o : Overflow) (start amount : Nat) (t : Term) : Except Fault Term :=
  if amount = 0 then return t
  else t.mapLooseIn o (fun i depth => do
    if (← Word.add o Word.indices start depth) ≤ i then
      return .bvar (← Word.sub o Word.indices i amount)
    else return .bvar i) 0

def instantiateIn (o : Overflow) (body value : Term) : Except Fault Term :=
  body.mapLooseIn o (fun i depth =>
    if i = depth then value.raiseIn o 0 depth
    else if depth < i then return .bvar (i - 1)
    else return .bvar i) 0

def arrowIn (o : Overflow) (domain codomain : Term) : Except Fault Term := do
  return .pi "a" .default domain (← codomain.raiseIn o 0 1)

/-! ## Contractions -/

def headStepIn? (o : Overflow) : Term → OptionT (Except Fault) Term
  | .app (.lam _ _ _ body) a => body.instantiateIn o a
  | .app f a => return .app (← headStepIn? o f) a
  | _ => failure

def headBetaIn (o : Overflow) (fuel : Nat) (t : Term) : OptionT (Except Fault) Term :=
  OptionT.mk do
    match ← (headStepIn? o t).run with
    | none => return some t
    | some t' => match fuel with
      | 0 => return none
      | fuel + 1 => (headBetaIn o fuel t').run

def unbindIn? (o : Overflow) (t : Term) : OptionT (Except Fault) Term := do
  if ← t.occursIn o 0 then failure else t.lowerIn o 1 1

def dropArgIn? (o : Overflow) : Term → OptionT (Except Fault) Term
  | .app f (.bvar 0) => f.unbindIn? o
  | _ => failure

def etaContractIn? (o : Overflow) : Term → OptionT (Except Fault) Term
  | .lam _ _ _ body => do
    let inner ← etaContractIn? o body <|> return body
    inner.dropArgIn? o
  | _ => failure

end Term

/-! ## Conversions -/

namespace Conversion

def pointwiseIn? (o : Overflow) (op : Name) (body : Term) : OptionT (Except Fault) Term :=
  let front := body.args.take (body.numArgs - 2)
  let operands := body.args.drop (body.numArgs - 2)
  if body.head = .const op ∧ 2 ≤ body.numArgs then do
    return Term.mkApp (.const op)
      ((← front.mapM (Term.unbindIn? o)) ++ (← operands.mapM (Term.dropArgIn? o)))
  else failure

def convertIn? (o : Overflow) (rule : Conversion) (t : Term) : OptionT (Except Fault) Term :=
  match rule, t with
  | .pointwise op, .lam _ _ _ body => pointwiseIn? o op body
  | rule, t => OptionT.mk (return rule.convert? t)

def convertFirstIn? (o : Overflow) : List Conversion → Term → OptionT (Except Fault) Term
  | [], _ => failure
  | rule :: rules, t => rule.convertIn? o t <|> convertFirstIn? o rules t

end Conversion

end TermIndex
