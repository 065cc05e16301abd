import TermIndex.Encoding.Conversion
import TermIndex.Encoding.Relevance
import TermIndex.Pattern.Basic
import TermIndex.Reduction.Whnf

/-!
# From terms to patterns

Each subterm is put in weak head normal form, passed through the conversions, and
split into a head and its arguments. Irrelevant arguments become anonymous wildcards.

When a term is stored, a lambda `fun x => h a₁ … aₙ x` that does not use `x` elsewhere is
also encoded as `h a₁ … aₙ`. Alternatives at different places multiply, so the number of
encodings is capped. The direct encoding always comes first.

Reduction and relevance come from a `Host`. Reduction may fail to end, so a host says how
deep the work may go, and there is no encoding when that is not enough.
-/

namespace TermIndex

/-- The surroundings that terms come from. -/
structure Host where
  /-- Weak head normalisation under a policy. -/
  reduce : Policy → Term → Option Reduct
  /-- Whether the argument of a head at a position is left out of the index. -/
  irrelevant : Term → Nat → Term → Bool
  /-- How many subterms may be encoded inside one another. -/
  fuel : Nat

namespace Host

def ofTables (fuel : Nat) (sig : Signature) (table : ParamTable) : Host :=
  ⟨sig.whnf fuel, table.irrelevant, fuel⟩

def allRelevant (fuel : Nat) (sig : Signature) : Host :=
  ⟨sig.whnf fuel, fun _ _ _ => false, fuel⟩

end Host

structure EncodingOptions where
  policy : Policy
  /-- Whether stored lambdas are also indexed in eta-contracted form. -/
  etaAlternates : Bool
  /-- The most encodings that one stored term may have. -/
  maxEncodings : Nat
  /-- Whether the domain of a function type is indexed, or is a wildcard. -/
  indexDomains : Bool
deriving DecidableEq

def EncodingOptions.standard : EncodingOptions := ⟨.all, true, 8, true⟩

/-- Whether a term is stored or used to look things up. -/
inductive Mode where
  | store
  /-- With `unify`, the metavariables of the query stay wildcards. Without it they are
  fixed. -/
  | query (unify : Bool)
deriving DecidableEq

structure Encoder where
  options : EncodingOptions
  rules : List Conversion
  host : Host
  mode : Mode

/-- The elements of a list without repetitions, each at its first place. -/
def distinct {β : Type} [DecidableEq β] : List β → List β
  | [] => []
  | x :: xs => x :: (distinct xs).filter (· ≠ x)

namespace Encoder

/-- At least one encoding is always kept. -/
def cap (enc : Encoder) : Nat := max 1 enc.options.maxEncodings

/-- The first different elements of a list, as many as the cap allows. -/
def limit {β : Type} [DecidableEq β] (enc : Encoder) (xs : List β) : List β :=
  (distinct xs).take enc.cap

/-- Every choice of one element from each list, in lexicographic order. At each position
only as many different choices go on as the cap allows. -/
def choices (enc : Encoder) (parts : List (List Pattern)) : List (List Pattern) :=
  parts.foldl (fun combos part =>
    enc.limit (combos.flatMap fun combo => part.map fun p => combo ++ [p])) [[]]

/-- The patterns built from every choice of parts. Different choices give different
patterns. -/
def combine (enc : Encoder) (parts : List (List Pattern)) (build : List Pattern → Pattern) :
    List Pattern :=
  (enc.choices parts).map build

/-- The pattern of a metavariable. One that is applied to arguments stands for no fixed
subtree, so its wildcard is anonymous. -/
def encodeMVar (enc : Encoder) (m : MVar) (applied : Bool) : Pattern :=
  match enc.mode, applied with
  | .query false, false => .fixed m
  | .query false, true => .hidden
  | _, false => .star (some m)
  | _, true => .star none

/-- How a subterm is encoded under a number of binders, with or without alternates. -/
abbrev Recur := Term → Nat → Bool → Option (List Pattern)

def encodeArgs (enc : Encoder) (recur : Recur) (depth : Nat) (alternates : Bool)
    (head : Term) (args : List Term) : Option (List (List Pattern)) :=
  args.zipIdx.mapM fun (arg, i) =>
    if enc.host.irrelevant head i arg then some [.star none]
    else recur arg depth alternates

def encodeApplied (enc : Encoder) (recur : Recur) (t : Term) (depth : Nat)
    (alternates : Bool) (build : List Pattern → Pattern) : Option (List Pattern) := do
  return enc.combine (← enc.encodeArgs recur depth alternates t.head t.args) build

/-- The encodings of a head and its arguments. A bound variable whose binder is outside
the pattern is hidden, and so is a spine that is stuck on something else. -/
def encodeSpine (enc : Encoder) (recur : Recur) (t : Term) (depth : Nat)
    (alternates : Bool) : Option (List Pattern) :=
  match t.head with
  | .mvar m => some [enc.encodeMVar m (0 < t.numArgs)]
  | .const n => enc.encodeApplied recur t depth alternates (.app (.const n))
  | .fvar x => enc.encodeApplied recur t depth alternates (.app (.fvar x))
  | .bvar i =>
    if depth ≤ i then some [.hidden]
    else enc.encodeApplied recur t depth alternates (.app (.bvar i))
  | .proj s i value => do
    let value ← recur value depth alternates
    let args ← enc.encodeArgs recur depth alternates t.head t.args
    return enc.combine (value :: args) fun parts =>
      .proj s i (parts.headD .hidden) parts.tail
  | _ => do
    let _ ← enc.encodeArgs recur depth alternates t.head t.args
    return [.hidden]

def encodeShape (enc : Encoder) (recur : Recur) (t : Term) (depth : Nat)
    (alternates : Bool) : Option (List Pattern) :=
  match t with
  | .lit l => some [.lit l]
  | .sort _ => some [.sort]
  | .letE .. => some [.hidden]
  | .lam _ _ _ body => do
    let direct ← recur body (depth + 1) alternates
    let contracted ← match alternates, t.etaContract? with
      | true, some t' => recur t' depth alternates
      | _, _ => some []
    return enc.limit (direct.map .lam ++ contracted)
  | .pi _ _ domain body => do
    let domains ← if enc.options.indexDomains then recur domain depth alternates
      else some [.star none]
    let bodies ← recur body (depth + 1) alternates
    return enc.combine [domains, bodies] fun parts =>
      .pi (parts.headD .hidden) (parts.tail.headD .hidden)
  | _ => enc.encodeSpine recur t depth alternates

/-- The encodings of a term under `depth` binders of the pattern, with at most `fuel`
subterms inside one another. -/
def encode (enc : Encoder) (fuel : Nat) (t : Term) (depth : Nat) (alternates : Bool) :
    Option (List Pattern) :=
  match fuel with
  | 0 => none
  | fuel + 1 => do
    match ← enc.host.reduce enc.options.policy t with
    | .hidden => some [.hidden]
    | .term t =>
      let t := (Conversion.convertFirst? enc.rules t).getD t
      enc.encodeShape (enc.encode fuel) t depth alternates

/-- Every encoding of a term, the direct one first. Only stored terms have alternates. -/
def encodeAll (enc : Encoder) (t : Term) : Option (List Pattern) := do
  let alternates := enc.mode = .store && enc.options.etaAlternates
  return (← enc.encode enc.host.fuel t 0 alternates).take enc.cap

def encodeOne (enc : Encoder) (t : Term) : Option Pattern := do
  return (← enc.encode enc.host.fuel t 0 false).headD .hidden

end Encoder

end TermIndex
