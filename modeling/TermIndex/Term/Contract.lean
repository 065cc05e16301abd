import TermIndex.Term.Loose

/-!
# Contractions

The two contractions that work on a term alone: beta contraction at the head of an
application spine, and eta contraction of a lambda.

Contracting the head again and again may go on forever, so `headBeta` takes the number
of contractions it may spend and has no answer when they run out.
-/

namespace TermIndex.Term

/-! ## Beta -/

/-- Contracts the redex at the head of the spine: the head must be a lambda with at
least one argument. -/
def headStep? : Term → Option Term
  | .app (.lam _ _ _ body) a => some (body.instantiate a)
  | .app f a => (headStep? f).map (.app · a)
  | _ => none

/-- Contracts at the head until no redex is left there. -/
def headBeta (fuel : Nat) (t : Term) : Option Term :=
  match headStep? t with
  | none => some t
  | some t' => match fuel with
    | 0 => none
    | fuel + 1 => headBeta fuel t'

/-! ## Eta -/

/-- A binder's body as a term outside the binder, if it does not use the variable. -/
def unbind? (t : Term) : Option Term :=
  if t.occurs 0 then none else some (t.lower 1 1)

/-- A binder's body `f x` as the function `f` outside the binder, if the argument is
the bound variable and `f` does not use it. -/
def dropArg? : Term → Option Term
  | .app f (.bvar 0) => f.unbind?
  | _ => none

/-- Contracts `fun x => f x` to `f` when `x` does not occur in `f`. A body that is
itself a lambda is contracted first, so that `fun x y => f x y` gives `f`. -/
def etaContract? : Term → Option Term
  | .lam _ _ _ body => ((etaContract? body).getD body).dropArg?
  | _ => none

end TermIndex.Term
