import TermIndex.Encoding.Encoder
import TermIndex.Search.Unify

/-!
# Settings

How an index encodes terms, and how it looks things up unless a lookup says otherwise.
-/

namespace TermIndex

structure Settings where
  encoding : EncodingOptions
  lookup : LookupOptions
deriving DecidableEq

def Settings.standard : Settings := ⟨.standard, .standard⟩

end TermIndex
