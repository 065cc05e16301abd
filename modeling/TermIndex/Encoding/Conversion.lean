import TermIndex.Term.Contract

/-!
# Conversions

A fixed list of rules, tried on a term in weak head normal form just before it becomes a
node of a pattern. They bring together terms that are equal by definition and that
reduction alone keeps apart, such as `fun x => x` and `id`.
-/

namespace TermIndex

inductive Conversion where
  /-- `fun x => x` becomes the constant. -/
  | identity (name : Name)
  /-- The constant applied to three arguments, of which the second is a natural number,
  becomes that number. -/
  | numeral (name : Name)
  | literal (name : Name) (value : Literal)
  /-- `fun x => op (f x) (g x)` becomes `op f g`, for an operator whose operands are its
  last two arguments. -/
  | pointwise (name : Name)
deriving DecidableEq

namespace Conversion

/-- The pointwise rule on the body of a lambda: the operands lose the bound variable,
which no other argument may use. -/
def pointwise? (op : Name) (body : Term) : Option Term :=
  let front := body.args.take (body.numArgs - 2)
  let operands := body.args.drop (body.numArgs - 2)
  if body.head = .const op ∧ 2 ≤ body.numArgs then do
    return Term.mkApp (.const op)
      ((← front.mapM Term.unbind?) ++ (← operands.mapM Term.dropArg?))
  else none

def convert? (rule : Conversion) (t : Term) : Option Term :=
  match rule, t with
  | .identity name, .lam _ _ _ (.bvar 0) => some (.const name)
  | .identity _, _ => none
  | .numeral name, t =>
    if t.head = .const name then
      match t.args with
      | [_, .lit (.nat n), _] => some (.lit (.nat n))
      | _ => none
    else none
  | .literal name value, t => if t = .const name then some (.lit value) else none
  | .pointwise op, .lam _ _ _ body => pointwise? op body
  | .pointwise _, _ => none

def convertFirst? (rules : List Conversion) (t : Term) : Option Term :=
  rules.findSome? (convert? · t)

/-- The rules an index has unless it is told otherwise. -/
def standard : List Conversion :=
  [.identity "id", .numeral "OfNat.ofNat", .literal "Nat.zero" (.nat 0),
    .pointwise "HAdd.hAdd"]

end Conversion

end TermIndex
