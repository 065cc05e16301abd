import TermIndex.Json.Parser
import TermIndex.Settings.Basic
import TermIndex.Surface.Numeral

/-!
# Reading settings

Settings are read from a JSON document. A record is an object, in which fields may be
missing and unknown fields are ignored, or a list of its fields in order, which may end
early. A missing field has its standard value. A field that is given twice, a value of
the wrong kind, and a list that is too long are refused.
-/

namespace TermIndex

namespace Json

/-- The value of a spelling that is a plain natural number in sixty-four bits. -/
def natural? : Json → Option Nat
  | .number spelling =>
    if spelling.toList.all Char.isDigit then Surface.numeral? Surface.maxLiteral spelling.toList
    else none
  | _ => none

def boolean? : Json → Option Bool
  | .bool b => some b
  | _ => none

/-- Nothing for `null`, otherwise something. -/
def optional? {β : Type} (read : Json → Option β) : Json → Option (Option β)
  | .null => some none
  | json => (read json).map some

/-- The members of an object that are fields of a record. No field may be given twice,
and every member must have a text for a name. -/
def knownMembers? (names : List String) :
    List (Option String × Json) → Option (List (String × Json))
  | [] => some []
  | (none, _) :: _ => none
  | (some name, json) :: rest => do
    let known ← knownMembers? names rest
    if ! names.contains name then some known
    else if (known.lookup name).isSome then none
    else some ((name, json) :: known)

def fields? (names : List String) : Json → Option (List (String × Json))
  | .object members => knownMembers? names members
  | .array items => if names.length < items.length then none else some (names.zip items)
  | _ => none

def field? {β : Type} (given : List (String × Json)) (name : String)
    (read : Json → Option β) (standard : β) : Option β :=
  match given.lookup name with
  | some json => read json
  | none => some standard

end Json

def Policy.ofJson? (json : Json) : Option Policy := do
  let given ← json.fields? ["beta", "zeta", "delta", "proj"]
  return {
    beta := ← Json.field? given "beta" Json.boolean? Policy.all.beta
    zeta := ← Json.field? given "zeta" Json.boolean? Policy.all.zeta
    delta := ← Json.field? given "delta" Json.boolean? Policy.all.delta
    proj := ← Json.field? given "proj" Json.boolean? Policy.all.proj }

def EncodingOptions.ofJson? (json : Json) : Option EncodingOptions := do
  let given ← json.fields? ["policy", "eta_alternates", "max_encodings",
    "index_forall_domains"]
  return {
    policy := ← Json.field? given "policy" Policy.ofJson? standard.policy
    etaAlternates := ← Json.field? given "eta_alternates" Json.boolean? standard.etaAlternates
    maxEncodings := ← Json.field? given "max_encodings" Json.natural? standard.maxEncodings
    indexDomains :=
      ← Json.field? given "index_forall_domains" Json.boolean? standard.indexDomains }

def LookupOptions.ofJson? (json : Json) : Option LookupOptions := do
  let given ← json.fields? ["unify", "allow_root_star", "max_results", "min_score"]
  return {
    unify := ← Json.field? given "unify" Json.boolean? standard.unify
    allowRootStar :=
      ← Json.field? given "allow_root_star" Json.boolean? standard.allowRootStar
    maxResults :=
      ← Json.field? given "max_results" (Json.optional? Json.natural?) standard.maxResults
    minScore := ← Json.field? given "min_score" Json.natural? standard.minScore }

namespace Settings

def ofJson? (json : Json) : Option Settings := do
  let given ← json.fields? ["encoder", "lookup"]
  return {
    encoding := ← Json.field? given "encoder" EncodingOptions.ofJson? standard.encoding
    lookup := ← Json.field? given "lookup" LookupOptions.ofJson? standard.lookup }

def ofText? (text : String) : Option Settings := do
  ofJson? (← Json.parse? text)

/-- The settings in the contents of a file, which must be UTF-8. -/
def ofBytes? (bytes : ByteArray) : Option Settings := do
  ofText? (← String.fromUTF8? bytes)

end Settings

end TermIndex
