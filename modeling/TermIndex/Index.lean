import TermIndex.Pattern.Flatten
import TermIndex.Pattern.Printer
import TermIndex.Search.Visit
import TermIndex.Settings.Basic
import TermIndex.Text.Quoted

/-!
# The index

An index maps patterns to values. Storing a term stores its value under every encoding
of the term; looking a term up finds every stored pattern that could unify with it, the
best matches first.

Inserting gives a new index and leaves the old one as it was. Inserting a value equal to
one that is stored under the same keys puts it in the place of the old one.
-/

namespace TermIndex

structure Index (α : Type) where
  forest : Forest α
  settings : Settings
  rules : List Conversion

namespace Index

variable {α β σ : Type}

def empty (settings : Settings) : Index α := ⟨.empty, settings, Conversion.standard⟩

def withRules (ix : Index α) (rules : List Conversion) : Index α := { ix with rules }

/-! ## Encoding -/

def encoder (ix : Index α) (host : Host) (mode : Mode) : Encoder :=
  ⟨ix.settings.encoding, ix.rules, host, mode⟩

/-- An answer that is there unless the work was given up. -/
def finished (answer : Option β) : Except Fault β :=
  match answer with
  | some b => .ok b
  | none => .error .unfinished

def encodings (ix : Index α) (host : Host) (t : Term) : Except Fault (List Pattern) :=
  finished ((ix.encoder host .store).encodeAll t)

def query (ix : Index α) (host : Host) (o : LookupOptions) (t : Term) :
    Except Fault Pattern :=
  finished ((ix.encoder host (.query o.unify)).encodeOne t)

/-! ## Insertion -/

variable [BEq α]

def insertPattern (ix : Index α) (p : Pattern) (value : α) : Except Fault (Index α) := do
  return { ix with forest := ← ix.forest.insert p.keys value }

def insert (ix : Index α) (host : Host) (t : Term) (value : α) : Except Fault (Index α) := do
  (← ix.encodings host t).foldlM (fun ix p => ix.insertPattern p value) ix

/-- The index with a value added under a sequence of keys, if that is one complete tree. -/
def insertKeys (ix : Index α) (ks : List Key) (value : α) :
    Except KeyError (Except Fault (Index α)) := do
  Key.check ks
  return do return { ix with forest := ← ix.forest.insert ks value }

omit [BEq α]

/-! ## Contents -/

def size (ix : Index α) : Nat := ix.forest.numLeaves

def isEmpty (ix : Index α) : Bool := ix.forest.isEmpty

def entries (ix : Index α) : List (List Key × List α) := ix.forest.entries

/-- Every stored value in key order. A value stored under several encodings appears once
for each. -/
def values (ix : Index α) : List α := ix.entries.flatMap Prod.snd

def map (f : α → β) (ix : Index α) : Index β :=
  { ix with forest := ix.forest.map f }

def check (ix : Index α) : Except Fault Unit := ix.forest.check

/-! ## Lookup -/

/-- Hits of one sequence become a single one, at the place of the first and with the best
score. -/
def mergeHit (groups : List (Hit α)) (h : Hit α) : List (Hit α) :=
  match groups with
  | [] => [h]
  | g :: rest =>
    if g.keys = h.keys then { g with score := max g.score h.score } :: rest
    else g :: mergeHit rest h

/-- Every sequence that matches the query, best first. -/
def lookupPattern (ix : Index α) (q : Pattern) (o : LookupOptions) :
    Except Fault (List (Hit α)) := do
  let groups := (← (Search.hits o ix.forest q).collect).foldl mergeHit []
  let kept := (Search.ranked groups).filter (o.minScore ≤ ·.score)
  return match o.maxResults with
    | some n => kept.take n
    | none => kept

/-- Every sequence whose pattern could unify with the term, best first. -/
def lookup (ix : Index α) (host : Host) (o : LookupOptions) (t : Term) :
    Except Fault (List (Hit α)) := do
  ix.lookupPattern (← ix.query host o t) o

/-- Shows the hits of a query to `f` as the search finds them, until `f` declines to go
on. The result is false if it declined. -/
def lookupWhile (ix : Index α) (q : Pattern) (o : LookupOptions) (f : σ → Hit α → σ × Bool)
    (s : σ) : Except Fault (σ × Bool) :=
  Search.visitHits o ix.forest q f s

/-! ## Text -/

def render (showValue : α → String) (ix : Index α) : String :=
  ix.forest.render fun values => Quoted.quoteList (values.map showValue)

end Index

/-- A hit on one line: its values and its score. -/
def Hit.render {α : Type} (showValue : α → String) (h : Hit α) : String :=
  Quoted.quoteList (h.values.map showValue) ++ " @ " ++ toString h.score

/-! ## Sharing -/

/-- Holds the current version of an index. Readers keep the version they have taken;
`update` replaces the version for those who come later, unless it fails. -/
structure Shared (α : Type) where
  current : Index α

namespace Shared

variable {α ε : Type}

def snapshot (s : Shared α) : Index α := s.current

/-- The holder of the next version, or the old one together with the error. -/
def update (s : Shared α) (f : Index α → Except ε (Index α)) : Shared α × Option ε :=
  match f s.current with
  | .ok next => (⟨next⟩, none)
  | .error e => (s, some e)

end Shared

end TermIndex
