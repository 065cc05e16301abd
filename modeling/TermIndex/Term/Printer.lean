import TermIndex.Term.Basic
import TermIndex.Text.Quoted

/-!
# Terms as text

Every application spine, binder and projection is written in its own parentheses.
Binder kinds are not shown, and of a sort level only whether it is zero.
-/

namespace TermIndex

instance : ToString MVar := ⟨fun m => "?" ++ toString m.id⟩

instance : ToString FVar := ⟨fun x => "$" ++ toString x.id⟩

namespace Literal

/-- A natural number in decimal, a string in quotes. -/
def render : Literal → String
  | .nat n => toString n
  | .str s => Quoted.quote s

end Literal

namespace Term

/-- The text of a term. Inside a spine the parentheses of an application are left
out, so that `f a b` is written `(f a b)` and not `((f a) b)`. -/
def renderIn (inSpine : Bool) : Term → String
  | .bvar i => "#" ++ toString i
  | .fvar x => toString x
  | .mvar m => toString m
  | .sort 0 => "Prop"
  | .sort (_ + 1) => "Type"
  | .const n => n.text
  | .app f a =>
    let spine := f.renderIn true ++ " " ++ a.renderIn false
    if inSpine then spine else "(" ++ spine ++ ")"
  | .lam n _ d b =>
    "(fun (" ++ n.text ++ " : " ++ d.renderIn false ++ ") => " ++ b.renderIn false ++ ")"
  | .pi n _ d b =>
    "(forall (" ++ n.text ++ " : " ++ d.renderIn false ++ "), " ++ b.renderIn false ++ ")"
  | .letE n t v b =>
    "(let " ++ n.text ++ " : " ++ t.renderIn false ++ " := " ++ v.renderIn false ++ "; "
      ++ b.renderIn false ++ ")"
  | .lit l => l.render
  | .proj s i e => "(proj " ++ s.text ++ " " ++ toString i ++ " " ++ e.renderIn false ++ ")"

def render (t : Term) : String := t.renderIn false

end Term

end TermIndex
