/-!
# Hierarchical names

A name such as `HAdd.hAdd` is a text whose components are separated by dots.
Any text is a name, the empty one included. Names are ordered as texts, by code
points from the left.
-/

namespace TermIndex

structure Name where
  text : String
deriving DecidableEq

namespace Name

instance : Coe String Name := ⟨Name.mk⟩

instance : ToString Name := ⟨Name.text⟩

instance : Ord Name := ⟨compareOn Name.text⟩

def append (n : Name) (component : String) : Name :=
  ⟨n.text ++ "." ++ component⟩

/-- The texts between the dots, from the left. There is always at least one. -/
def components (n : Name) : List String :=
  (n.text.toList.splitOn '.').map String.ofList

def last (n : Name) : String :=
  n.components.getLastD ""

/-- The name without its last component, if it has more than one. -/
def qualifier? (n : Name) : Option Name :=
  match n.components.dropLast with
  | [] => none
  | front => some ⟨".".intercalate front⟩

end Name

end TermIndex
