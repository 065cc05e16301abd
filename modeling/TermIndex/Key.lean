import TermIndex.Term.Printer

/-!
# Keys

Keys are the alphabet of the index. A pattern is stored as a sequence of keys in prefix
order, and the arity of a key says how many complete subtrees follow it.

Keys are totally ordered, with the stars first, so that the wildcard branches of a node
always come before its other branches.

An arity is a word of 64 bits, and so is the number of subtrees that a sequence owes. It
has no limit here, but is a sum of arities that may not fit: see `Words.Counts`.
-/

namespace TermIndex

/-- What a spine that can carry arguments is headed by. -/
inductive Head where
  | const (name : Name)
  | fvar (x : FVar)
  | bvar (index : Nat)
deriving DecidableEq

inductive Key where
  /-- Matches any subtree. Within one sequence, stars of one number are the same
  variable and match equal subtrees. -/
  | star (id : Nat)
  /-- Something whose structure the index does not look at. -/
  | hidden
  /-- A head applied to the given number of arguments. -/
  | app (head : Head) (arity : Nat)
  | lit (l : Literal)
  | sort
  /-- Followed by the body only: the domain of a lambda is not indexed. -/
  | lam
  /-- Followed by the domain and then the body. -/
  | pi
  /-- Structure, field, and the number of subtrees that follow: the projected value
  and the arguments of the projection. -/
  | proj (struct : Name) (index arity : Nat)
deriving DecidableEq

namespace Key

/-- How many complete subtrees follow this key. -/
def arity : Key → Nat
  | .star _ | .hidden | .lit _ | .sort => 0
  | .app _ n => n
  | .lam => 1
  | .pi => 2
  | .proj _ _ n => n

def isStar : Key → Bool
  | .star _ => true
  | _ => false

def starId? : Key → Option Nat
  | .star id => some id
  | _ => none

/-! ## Order -/

/-- The place of a key's kind in the order. Natural numbers come before strings. -/
def rank : Key → Nat
  | .star _ => 0
  | .hidden => 1
  | .app (.const _) _ => 2
  | .app (.fvar _) _ => 3
  | .app (.bvar _) _ => 4
  | .lit (.nat _) => 5
  | .lit (.str _) => 6
  | .sort => 7
  | .lam => 8
  | .pi => 9
  | .proj .. => 10

def text : Key → String
  | .app (.const n) _ => n.text
  | .lit (.str s) => s
  | .proj s _ _ => s.text
  | _ => ""

/-- The number in a key that identifies it among keys of the same text. -/
def number : Key → Nat
  | .star id => id
  | .app (.fvar x) _ => x.id
  | .app (.bvar i) _ => i
  | .lit (.nat n) => n
  | .proj _ i _ => i
  | _ => 0

/-- Keys are compared by kind, then text, then number, then arity. -/
instance : Ord Key :=
  ⟨compareLex (compareOn rank) (compareLex (compareOn text)
    (compareLex (compareOn number) (compareOn arity)))⟩

instance : Std.TransOrd Key :=
  inferInstanceAs (Std.TransCmp (compareLex (compareOn rank) (compareLex (compareOn text)
    (compareLex (compareOn number) (compareOn arity)))))

/-- A key is determined by its kind, text, number and arity. -/
theorem eq_of_parts {a b : Key} (hr : a.rank = b.rank) (ht : a.text = b.text)
    (hn : a.number = b.number) (ha : a.arity = b.arity) : a = b := by
  rcases a with i | _ | ⟨⟨⟨n⟩⟩ | ⟨⟨x⟩⟩ | x, k⟩ | ⟨n | s⟩ | _ | _ | _ | ⟨⟨s⟩, i, k⟩ <;>
    rcases b with j | _ | ⟨⟨⟨m⟩⟩ | ⟨⟨y⟩⟩ | y, l⟩ | ⟨m | t⟩ | _ | _ | _ | ⟨⟨t⟩, j, l⟩ <;>
    simp_all [rank, text, number, arity]

instance : Std.LawfulEqOrd Key where
  eq_of_compare {a b} h := by
    replace h : compareLex (compareOn rank) (compareLex (compareOn text)
      (compareLex (compareOn number) (compareOn arity))) a b = .eq := h
    simp only [compareLex_eq_eq, compareOn, Std.compare_eq_iff_eq] at h
    exact eq_of_parts h.1 h.2.1 h.2.2.1 h.2.2.2

def precedes (a b : Key) : Bool := (compare a b).isLT

theorem precedes_iff {a b : Key} : a.precedes b ↔ compare a b = .lt := by
  simp [precedes, Ordering.isLT_iff_eq_lt]

theorem precedes_trans {a b c : Key} (hab : a.precedes b) (hbc : b.precedes c) :
    a.precedes c := by
  rw [precedes_iff] at *
  exact Std.TransCmp.lt_trans hab hbc

def Increasing (ks : List Key) : Prop := ks.Pairwise fun a b => a.precedes b

/-- The smallest key that is no star. -/
def firstNonStar : Key := .hidden

/-! ## Text -/

def render : Key → String
  | .star id => "*" ++ toString id
  | .hidden => "◾"
  | .app (.const n) k => n.text ++ "/" ++ toString k
  | .app (.fvar x) k => toString x ++ "/" ++ toString k
  | .app (.bvar i) k => "#" ++ toString i ++ "/" ++ toString k
  | .lit l => l.render
  | .sort => "Sort"
  | .lam => "λ"
  | .pi => "∀"
  | .proj s i k => s.text ++ "." ++ toString i ++ "/" ++ toString k

def renderAll (ks : List Key) : String := " ".intercalate (ks.map render)

/-! ## Complete sequences -/

/-- The number of keys that `pending` complete subtrees take at the front of a sequence,
if the sequence is long enough. -/
def subtreesLength? : Nat → List Key → Option Nat
  | 0, _ => some 0
  | _ + 1, [] => none
  | pending + 1, k :: ks => (subtreesLength? (pending + k.arity) ks).map (· + 1)

/-- The number of keys of the complete subtree that starts at `start`. -/
def subtreeLength? (ks : List Key) (start : Nat) : Option Nat :=
  subtreesLength? 1 (ks.drop start)

end Key

/-- Why a sequence of keys is not one complete tree that the index can read. -/
inductive KeyError where
  | empty
  /-- The sequence ends while this many subtrees are owed. -/
  | truncated (missing : Nat)
  /-- The tree is complete before this position. -/
  | trailing (pos : Nat)
  /-- The key here has an arity that its kind cannot have. -/
  | badArity (pos : Nat)
  /-- The star here has a number too large for a metavariable. -/
  | starOutOfRange (pos : Nat)
deriving DecidableEq

namespace KeyError

def message : KeyError → String
  | .empty => "empty key sequence"
  | .truncated m => "key sequence ends with " ++ toString m ++ " argument(s) missing"
  | .trailing p => "key sequence has trailing keys from position " ++ toString p
  | .badArity p => "key at position " ++ toString p ++ " has an impossible arity"
  | .starOutOfRange p => "star at position " ++ toString p ++ " has an id out of range"

end KeyError

namespace Key

/-- A projection is followed at least by the projected value. -/
def badArity : Key → Bool
  | .proj _ _ 0 => true
  | _ => false

/-- Checks that the keys from position `pos` on are exactly `pending` complete trees. -/
def checkFrom (pos pending : Nat) : List Key → Except KeyError Unit
  | [] => if pending = 0 then .ok () else .error (.truncated pending)
  | k :: ks =>
    if pending = 0 then .error (.trailing pos)
    else if k.badArity then .error (.badArity pos)
    else checkFrom (pos + 1) (pending - 1 + k.arity) ks

def check (ks : List Key) : Except KeyError Unit :=
  if ks.isEmpty then .error .empty else checkFrom 0 1 ks

end Key

end TermIndex
