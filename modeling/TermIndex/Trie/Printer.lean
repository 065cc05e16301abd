import TermIndex.Trie.Basic

/-!
# Tries as text

One line for each branch, path and leaf, indented by depth. The values of a leaf are
shown by a function that the caller gives.
-/

namespace TermIndex.Trie

variable {α : Type}

def indent (depth : Nat) : String := "".pushn ' ' (2 * depth)

mutual

def lines (showValues : List α → String) (depth : Nat) : Trie α → String
  | .leaf values => indent depth ++ "=> " ++ showValues values ++ "\n"
  | .path keys child =>
    indent depth ++ Key.renderAll keys ++ "\n" ++ lines showValues (depth + 1) child
  | .node branches => linesAll showValues depth branches

def linesAll (showValues : List α → String) (depth : Nat) : List (Key × Trie α) → String
  | [] => ""
  | (k, t) :: rest =>
    indent depth ++ k.render ++ "\n" ++ lines showValues (depth + 1) t
      ++ linesAll showValues depth rest

end

end TermIndex.Trie
