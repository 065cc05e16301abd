import TermIndex.Key

/-!
# Patterns

A pattern is the shape of a term that the index looks at: a key with its subtrees
attached. Wildcards carry the metavariable they came from, if any.

`children` is the uniform view of a node. Every function on patterns below is
determined by what it does at a node and at its children, and `induction_on` is the
matching proof principle.
-/

namespace TermIndex

inductive Pattern where
  /-- A wildcard. Without a metavariable it is anonymous and never repeats. -/
  | star (m : Option MVar)
  | hidden
  /-- A metavariable of a query that must not be filled. Its key is that of a hidden
  subtree, but two of them are equal only if they are the same metavariable. -/
  | fixed (m : MVar)
  | app (head : Head) (args : List Pattern)
  | lit (l : Literal)
  | sort
  | lam (body : Pattern)
  | pi (domain body : Pattern)
  /-- Structure, field, projected value, and the arguments of the projection. -/
  | proj (struct : Name) (index : Nat) (value : Pattern) (args : List Pattern)

namespace Pattern

/-- The subtrees, in the order in which they are stored. -/
def children : Pattern → List Pattern
  | .star _ | .hidden | .fixed _ | .lit _ | .sort => []
  | .app _ args => args
  | .lam body => [body]
  | .pi domain body => [domain, body]
  | .proj _ _ value args => value :: args

theorem induction_on {P : Pattern → Prop} (p : Pattern)
    (node : ∀ p : Pattern, (∀ c ∈ p.children, P c) → P p) : P p := by
  induction p using Pattern.rec (motive_2 := fun ps => ∀ c ∈ ps, P c) with
  | nil c h => cases h
  | cons p ps ihp ihps c h =>
    rcases List.mem_cons.mp h with rfl | h
    · exact ihp
    · exact ihps c h
  | app h args ih => exact node _ ih
  | lam b ih => exact node _ (by simpa [children] using ih)
  | pi d b ihd ihb => exact node _ (by simpa [children] using ⟨ihd, ihb⟩)
  | proj s i v args ihv ihargs =>
    refine node _ fun c h => ?_
    rcases List.mem_cons.mp h with rfl | h
    · exact ihv
    · exact ihargs c h
  | _ => exact node _ (by simp [children])

/-! ## Equality -/

mutual

def same : Pattern → Pattern → Bool
  | .star m, .star n => m == n
  | .hidden, .hidden => true
  | .fixed m, .fixed n => m == n
  | .app h as, .app k bs => h == k && sameAll as bs
  | .lit l, .lit m => l == m
  | .sort, .sort => true
  | .lam b, .lam c => same b c
  | .pi d b, .pi e c => same d e && same b c
  | .proj s i v as, .proj t j w bs => s == t && i == j && same v w && sameAll as bs
  | _, _ => false

def sameAll : List Pattern → List Pattern → Bool
  | [], [] => true
  | a :: as, b :: bs => same a b && sameAll as bs
  | _, _ => false

end

mutual

theorem eq_of_same : ∀ {p q : Pattern}, same p q = true → p = q
  | .app h as, .app k bs, e => by
    simp only [same, Bool.and_eq_true, beq_iff_eq] at e
    rw [e.1, eq_of_sameAll e.2]
  | .lam b, .lam c, e => by
    simp only [same] at e
    rw [eq_of_same e]
  | .pi d b, .pi f c, e => by
    simp only [same, Bool.and_eq_true] at e
    rw [eq_of_same e.1, eq_of_same e.2]
  | .proj s i v as, .proj t j w bs, e => by
    simp only [same, Bool.and_eq_true, beq_iff_eq] at e
    rw [e.1.1.1, e.1.1.2, eq_of_same e.1.2, eq_of_sameAll e.2]
  | .star m, .star n, e => by simpa [same] using e
  | .fixed m, .fixed n, e => by simpa [same] using e
  | .lit l, .lit m, e => by simpa [same] using e
  | .hidden, .hidden, _ => rfl
  | .sort, .sort, _ => rfl

theorem eq_of_sameAll : ∀ {ps qs : List Pattern}, sameAll ps qs = true → ps = qs
  | [], [], _ => rfl
  | a :: as, b :: bs, e => by
    simp only [sameAll, Bool.and_eq_true] at e
    rw [eq_of_same e.1, eq_of_sameAll e.2]

end

mutual

theorem same_refl : ∀ p : Pattern, same p p = true
  | .app _ as => by simp [same, sameAll_refl as]
  | .lam b => by simp [same, same_refl b]
  | .pi d b => by simp [same, same_refl d, same_refl b]
  | .proj _ _ v as => by simp [same, same_refl v, sameAll_refl as]
  | .star _ | .hidden | .fixed _ | .lit _ | .sort => by simp [same]

theorem sameAll_refl : ∀ ps : List Pattern, sameAll ps ps = true
  | [] => rfl
  | p :: ps => by simp [sameAll, same_refl p, sameAll_refl ps]

end

instance : DecidableEq Pattern := fun p q =>
  decidable_of_iff (same p q = true) ⟨eq_of_same, fun h => h ▸ same_refl p⟩

/-! ## Nodes -/

def isStar : Pattern → Bool
  | .star _ => true
  | _ => false

/-- The key of a node. A wildcard has none until it is numbered. -/
def key? : Pattern → Option Key
  | .star _ => none
  | .hidden | .fixed _ => some .hidden
  | .app h args => some (.app h args.length)
  | .lit l => some (.lit l)
  | .sort => some .sort
  | .lam _ => some .lam
  | .pi _ _ => some .pi
  | .proj s i _ args => some (.proj s i (args.length + 1))

/-! ## Measures -/

mutual

/-- The score that an exact match of the whole tree earns: one for each node, except
wildcards and lambdas, which earn nothing. -/
def size : Pattern → Nat
  | .star _ => 0
  | .hidden | .fixed _ | .lit _ | .sort => 1
  | .app _ args => 1 + sizes args
  | .lam body => size body
  | .pi domain body => 1 + (size domain + size body)
  | .proj _ _ value args => 1 + (size value + sizes args)

def sizes : List Pattern → Nat
  | [] => 0
  | p :: ps => size p + sizes ps

end

mutual

def numKeys : Pattern → Nat
  | .star _ | .hidden | .fixed _ | .lit _ | .sort => 1
  | .app _ args => 1 + numKeysAll args
  | .lam body => 1 + numKeys body
  | .pi domain body => 1 + (numKeys domain + numKeys body)
  | .proj _ _ value args => 1 + (numKeys value + numKeysAll args)

def numKeysAll : List Pattern → Nat
  | [] => 0
  | p :: ps => numKeys p + numKeysAll ps

end

end Pattern

end TermIndex
