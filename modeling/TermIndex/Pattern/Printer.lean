import TermIndex.Pattern.Basic

/-!
# Patterns as text
-/

namespace TermIndex

def Head.render : Head → String
  | .const n => n.text
  | .fvar x => toString x
  | .bvar i => "#" ++ toString i

namespace Pattern

mutual

/-- The text of a pattern. A head without arguments is written without parentheses. -/
def render : Pattern → String
  | .star (some m) => "*" ++ toString m.id
  | .star none => "*"
  | .hidden => "◾"
  | .fixed m => toString m
  | .app h [] => h.render
  | .app h args => "(" ++ h.render ++ renderArgs args ++ ")"
  | .lit l => l.render
  | .sort => "Sort"
  | .lam body => "(λ " ++ render body ++ ")"
  | .pi domain body => "(∀ " ++ render domain ++ " " ++ render body ++ ")"
  | .proj s i value args =>
    "(" ++ s.text ++ "." ++ toString i ++ " " ++ render value ++ renderArgs args ++ ")"

def renderArgs : List Pattern → String
  | [] => ""
  | p :: ps => " " ++ render p ++ renderArgs ps

end

end Pattern

end TermIndex
