import TermIndex.Name

/-!
# Terms

The expressions that are indexed and looked up. Bound variables are de Bruijn
indices: `bvar 0` refers to the closest enclosing binder. Binder names, binder
kinds and sort levels are kept so that a term can be shown; the index ignores them.
-/

namespace TermIndex

/-- A hole that unification may fill, known by its number. -/
structure MVar where
  id : Nat
deriving DecidableEq

/-- A free variable of the surrounding context, known by its number. -/
structure FVar where
  id : Nat
deriving DecidableEq

inductive Literal where
  | nat (n : Nat)
  | str (s : String)
deriving DecidableEq

/-- How a binder was declared: `(x : T)`, `{x : T}`, `{{x : T}}` or `[x : T]`. -/
inductive BinderInfo where
  | default
  | implicit
  | strict
  | inst
deriving DecidableEq

inductive Term where
  | bvar (index : Nat)
  | fvar (x : FVar)
  | mvar (m : MVar)
  | sort (level : Nat)
  | const (name : Name)
  | app (fn arg : Term)
  | lam (name : Name) (info : BinderInfo) (domain body : Term)
  | pi (name : Name) (info : BinderInfo) (domain body : Term)
  | letE (name : Name) (type value body : Term)
  | lit (l : Literal)
  | proj (struct : Name) (index : Nat) (value : Term)
deriving DecidableEq

namespace Term

/-! ## Application spines -/

/-- The function of an application, with all its arguments stripped. -/
def head : Term → Term
  | .app f _ => f.head
  | t => t

/-- The arguments of an application, first argument first. -/
def args : Term → List Term
  | .app f a => f.args ++ [a]
  | _ => []

def numArgs : Term → Nat
  | .app f _ => f.numArgs + 1
  | _ => 0

/-- `f` applied to each of `as` in turn. -/
def mkApp (f : Term) (as : List Term) : Term := as.foldl .app f

theorem mkApp_concat (f : Term) (as : List Term) (a : Term) :
    f.mkApp (as ++ [a]) = .app (f.mkApp as) a := by
  simp [mkApp]

/-- A term is its head applied to its arguments. -/
theorem mkApp_head_args (t : Term) : t.head.mkApp t.args = t := by
  induction t with
  | app f a ihf _ => rw [head, args, mkApp_concat, ihf]
  | _ => rfl

theorem length_args (t : Term) : t.args.length = t.numArgs := by
  induction t with
  | app f a ihf _ => simp [args, numArgs, ihf]
  | _ => rfl

/-! ## Kinds of terms -/

def isMVar : Term → Bool
  | .mvar _ => true
  | _ => false

/-- Sorts, and function types that end in a sort. Such a term can only be a type. -/
def isSortLike : Term → Bool
  | .sort _ => true
  | .pi _ _ _ body => body.isSortLike
  | _ => false

end Term

end TermIndex
