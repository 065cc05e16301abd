/-!
# JSON documents

A document keeps what a reader may have to tell apart: the spelling of a number, the
order of the members of an object, and members of the same name.
-/

namespace TermIndex

inductive Json where
  | null
  | bool (b : Bool)
  /-- A number as it is spelt. -/
  | number (spelling : String)
  /-- A string, unless its escapes spell half a surrogate pair and so no text. -/
  | string (text : Option String)
  | array (items : List Json)
  | object (members : List (Option String × Json))

end TermIndex
