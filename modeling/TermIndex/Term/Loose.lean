import TermIndex.Term.Basic

/-!
# Loose bound variables

A bound variable is loose when its binder is not part of the term. `looseRange`
bounds the loose indices from above, `occurs` asks for a single one, and
`mapLoose` rebuilds a term with each loose variable replaced. Shifting up,
shifting down and instantiation are the three replacements that the index needs.

`mapLoose` leaves a subterm alone as soon as its range shows that it has no loose
variable, so closed subterms cost nothing. A replacement must therefore keep the
variables below the depth at which it is called.

Indices and depths are numbers without a limit here. They are kept in words of 32 bits,
and the range of the largest index does not fit one: see `Words.Loose`.
-/

namespace TermIndex.Term

/-- One more than the largest loose index, or zero if there is none. -/
def looseRange : Term → Nat
  | .bvar i => i + 1
  | .app f a => max f.looseRange a.looseRange
  | .lam _ _ d b => max d.looseRange (b.looseRange - 1)
  | .pi _ _ d b => max d.looseRange (b.looseRange - 1)
  | .letE _ t v b => max (max t.looseRange v.looseRange) (b.looseRange - 1)
  | .proj _ _ e => e.looseRange
  | .fvar _ | .mvar _ | .sort _ | .const _ | .lit _ => 0

def hasLoose (t : Term) : Bool := 0 < t.looseRange

def occurs (i : Nat) : Term → Bool
  | .bvar j => j == i
  | .app f a => f.occurs i || a.occurs i
  | .lam _ _ d b => d.occurs i || b.occurs (i + 1)
  | .pi _ _ d b => d.occurs i || b.occurs (i + 1)
  | .letE _ t v b => t.occurs i || v.occurs i || b.occurs (i + 1)
  | .proj _ _ e => e.occurs i
  | .fvar _ | .mvar _ | .sort _ | .const _ | .lit _ => false

/-- Replaces each loose variable `i` by `f i depth`, where `depth` counts the
binders that enclose it inside the term. -/
def mapLoose (f : Nat → Nat → Term) (depth : Nat) (t : Term) : Term :=
  if t.looseRange ≤ depth then t
  else match t with
    | .bvar i => f i depth
    | .app g a => .app (g.mapLoose f depth) (a.mapLoose f depth)
    | .lam n i d b => .lam n i (d.mapLoose f depth) (b.mapLoose f (depth + 1))
    | .pi n i d b => .pi n i (d.mapLoose f depth) (b.mapLoose f (depth + 1))
    | .letE n ty v b =>
      .letE n (ty.mapLoose f depth) (v.mapLoose f depth) (b.mapLoose f (depth + 1))
    | .proj s i e => .proj s i (e.mapLoose f depth)
    | t => t

/-- Adds `amount` to every loose index from `start` up. -/
def raise (start amount : Nat) (t : Term) : Term :=
  if amount = 0 then t
  else t.mapLoose (fun i depth =>
    if start + depth ≤ i then .bvar (i + amount) else .bvar i) 0

/-- Subtracts `amount` from every loose index from `start` up. The variables from
`start - amount` to `start` must not occur. -/
def lower (start amount : Nat) (t : Term) : Term :=
  if amount = 0 then t
  else t.mapLoose (fun i depth =>
    if start + depth ≤ i then .bvar (i - amount) else .bvar i) 0

/-- The body of a binder with the bound variable replaced by `value`. -/
def instantiate (body value : Term) : Term :=
  body.mapLoose (fun i depth =>
    if i = depth then value.raise 0 depth
    else if depth < i then .bvar (i - 1)
    else .bvar i) 0

/-- The function type from `domain` to `codomain`, which does not see the binder. -/
def arrow (domain codomain : Term) : Term :=
  .pi "a" .default domain (codomain.raise 0 1)

end TermIndex.Term
