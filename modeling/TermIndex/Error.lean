import TermIndex.Key
import TermIndex.Surface.Token

/-!
# Errors

The errors that an index reports to its callers, whatever part of it found them.
-/

namespace TermIndex

inductive IndexError where
  | keys (e : KeyError)
  | text (e : Surface.SyntaxError)
  /-- Settings could not be read, for this reason. -/
  | settings (reason : String)
deriving DecidableEq

namespace IndexError

def message : IndexError → String
  | .keys e => e.message
  | .text e => e.message
  | .settings reason => "config error: " ++ reason

end IndexError

end TermIndex
