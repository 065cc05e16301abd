import TermIndex.Proofs.BoundVariables

/-!
# Traversals that stop early

Raising, lowering and instantiating leave a subterm alone if its range says that
no variable in it is loose at the depth where it stands. The plain traversal
`mapBound` knows no ranges and visits every bound variable.

The two give the same result (`mapLoose_eq_mapBound`), for two reasons. A range
is exact: from it on no variable occurs, and the one just below it does. And a
replacement leaves the variables below its depth as they are, so that the plain
traversal changes nothing where the other one stops (`mapBound_eq_self`).
-/

namespace TermIndex.Term

/-- Puts `f i depth` in the place of every bound variable `i`, loose or not,
where `depth` counts the binders around it. -/
@[simp]
def mapBound (f : Nat → Nat → Term) (depth : Nat) : Term → Term
  | .bvar i => f i depth
  | .app g a => .app (g.mapBound f depth) (a.mapBound f depth)
  | .lam n info domain body =>
    .lam n info (domain.mapBound f depth) (body.mapBound f (depth + 1))
  | .pi n info domain body =>
    .pi n info (domain.mapBound f depth) (body.mapBound f (depth + 1))
  | .letE n type value body =>
    .letE n (type.mapBound f depth) (value.mapBound f depth)
      (body.mapBound f (depth + 1))
  | .proj s i value => .proj s i (value.mapBound f depth)
  | t => t

/-! ## Replacements -/

def raised (start amount i depth : Nat) : Term :=
  if start + depth ≤ i then .bvar (i + amount) else .bvar i

def lowered (start amount i depth : Nat) : Term :=
  if start + depth ≤ i then .bvar (i - amount) else .bvar i

def instantiated (value : Term) (i depth : Nat) : Term :=
  if i = depth then value.mapBound (raised 0 depth) 0
  else if depth < i then .bvar (i - 1)
  else .bvar i

/-- The variables that are bound inside the term stay as they are. -/
def KeepsBound (f : Nat → Nat → Term) : Prop :=
  ∀ i depth, i < depth → f i depth = .bvar i

theorem keepsBound_raised (start amount : Nat) :
    KeepsBound (raised start amount) := fun i depth hi => by
  rw [raised, if_neg (by omega)]

theorem keepsBound_lowered (start amount : Nat) :
    KeepsBound (lowered start amount) := fun i depth hi => by
  rw [lowered, if_neg (by omega)]

theorem keepsBound_instantiated (value : Term) :
    KeepsBound (instantiated value) := fun i depth hi => by
  rw [instantiated, if_neg (by omega), if_neg (by omega)]

/-! ## Ranges -/

variable {t : Term} {f : Nat → Nat → Term} {depth : Nat}

theorem occurs_eq_false_of_looseRange_le {i : Nat} (hi : t.looseRange ≤ i) :
    t.occurs i = false := by
  rw [← Bool.not_eq_true]
  intro hoccurs
  have hlt := looseRange_le_iff.mp (Nat.le_refl t.looseRange) i hoccurs
  omega

theorem occurs_looseRange_sub_one (hpos : 0 < t.looseRange) :
    t.occurs (t.looseRange - 1) = true := by
  by_contra hnone
  -- Without this variable, the range could be smaller by one.
  have hless : t.looseRange ≤ t.looseRange - 1 := by
    refine looseRange_le_iff.mpr fun i hi => ?_
    have hlt := looseRange_le_iff.mp (Nat.le_refl t.looseRange) i hi
    have hne : i ≠ t.looseRange - 1 := by
      rintro rfl
      exact hnone hi
    omega
  omega

/-! ## The two traversals -/

/-- Nothing changes in a term that has no loose variable at this depth. -/
theorem mapBound_eq_self (hf : KeepsBound f) (h : t.looseRange ≤ depth) :
    t.mapBound f depth = t := by
  induction t generalizing depth with
  | bvar i => exact hf i depth h
  | app g a ihg iha =>
      obtain ⟨hg, ha⟩ := max_le_iff.mp h
      rw [mapBound, ihg hg, iha ha]
  | lam _ _ domain body ihd ihb | pi _ _ domain body ihd ihb =>
      obtain ⟨hdomain, hbody⟩ := max_le_iff.mp h
      rw [mapBound, ihd hdomain, ihb (Nat.sub_le_iff_le_add.mp hbody)]
  | letE _ type value body iht ihv ihb =>
      obtain ⟨hbefore, hbody⟩ := max_le_iff.mp h
      obtain ⟨htype, hvalue⟩ := max_le_iff.mp hbefore
      rw [mapBound, iht htype, ihv hvalue,
        ihb (Nat.sub_le_iff_le_add.mp hbody)]
  | proj _ _ value ih => rw [mapBound, ih h]
  | _ => rfl

/-- Stopping early is not seen in the result. -/
theorem mapLoose_eq_mapBound (hf : KeepsBound f) (t : Term) (depth : Nat) :
    t.mapLoose f depth = t.mapBound f depth := by
  induction t generalizing depth with
  | _ =>
      unfold mapLoose
      split
      · next hclosed => exact (mapBound_eq_self hf hclosed).symm
      · simp only [mapBound, *]

theorem mapBound_bvar (hf : ∀ i depth, f i depth = .bvar i) (t : Term)
    (depth : Nat) : t.mapBound f depth = t := by
  induction t generalizing depth with
  | _ => simp only [mapBound, *]

theorem raise_eq_mapBound (start amount : Nat) (t : Term) :
    t.raise start amount = t.mapBound (raised start amount) 0 := by
  unfold raise
  split
  · next hzero =>
      refine (mapBound_bvar (fun i depth => ?_) t 0).symm
      rw [raised, hzero, Nat.add_zero, ite_self]
  · exact mapLoose_eq_mapBound (keepsBound_raised start amount) t 0

theorem lower_eq_mapBound (start amount : Nat) (t : Term) :
    t.lower start amount = t.mapBound (lowered start amount) 0 := by
  unfold lower
  split
  · next hzero =>
      refine (mapBound_bvar (fun i depth => ?_) t 0).symm
      rw [lowered, hzero, Nat.sub_zero, ite_self]
  · exact mapLoose_eq_mapBound (keepsBound_lowered start amount) t 0

theorem instantiate_eq_mapBound (body value : Term) :
    body.instantiate value = body.mapBound (instantiated value) 0 := by
  rw [← mapLoose_eq_mapBound (keepsBound_instantiated value)]
  unfold instantiate instantiated
  simp only [raise_eq_mapBound]

/-- **Ranges are exact, and stopping early is not seen.** No variable from the
range on occurs, and the one before it does. So every replacement that keeps the
variables bound inside the term, and raising, lowering and instantiating among
them, gives what the plain traversal gives. -/
theorem looseRange_exact (t : Term) :
    (∀ i, t.looseRange ≤ i → t.occurs i = false)
      ∧ (0 < t.looseRange → t.occurs (t.looseRange - 1) = true)
      ∧ (∀ f, KeepsBound f →
          ∀ depth, t.mapLoose f depth = t.mapBound f depth)
      ∧ (∀ start amount,
          t.raise start amount = t.mapBound (raised start amount) 0)
      ∧ (∀ start amount,
          t.lower start amount = t.mapBound (lowered start amount) 0)
      ∧ ∀ value, t.instantiate value = t.mapBound (instantiated value) 0 :=
  ⟨fun _ hi => occurs_eq_false_of_looseRange_le hi, occurs_looseRange_sub_one,
    fun _ hf depth => mapLoose_eq_mapBound hf t depth,
    fun start amount => raise_eq_mapBound start amount t,
    fun start amount => lower_eq_mapBound start amount t,
    fun value => instantiate_eq_mapBound t value⟩

/-- In `fun (x : #1) => let y : x := #2; f y #3` variable 1 is loose, also under
both binders, and `f y` is a subterm where a traversal stops. -/
theorem looseRange_exact_two_binders :
    ∃ t u : Term,
      t = .lam ⟨"x"⟩ .default (.bvar 1) (.letE ⟨"y"⟩ (.bvar 0) (.bvar 2)
        (.app (.app (.const ⟨"f"⟩) (.bvar 0)) (.bvar 3)))
      ∧ u = .lam ⟨"x"⟩ .default (.bvar 4) (.letE ⟨"y"⟩ (.bvar 0) (.bvar 5)
        (.app (.app (.const ⟨"f"⟩) (.bvar 0)) (.bvar 6)))
      ∧ t.looseRange = 2 ∧ t.occurs 2 = false ∧ t.occurs 1 = true
      ∧ t.raise 1 3 = u ∧ t.mapBound (raised 1 3) 0 = u
      ∧ ∀ f, KeepsBound f → ∀ depth, t.mapLoose f depth = t.mapBound f depth := by
  obtain ⟨hfalse, htrue, hmap, hraise, -, -⟩ := looseRange_exact
    (.lam ⟨"x"⟩ .default (.bvar 1) (.letE ⟨"y"⟩ (.bvar 0) (.bvar 2)
      (.app (.app (.const ⟨"f"⟩) (.bvar 0)) (.bvar 3))))
  exact ⟨_, _, rfl, rfl, rfl, hfalse 2 (by decide), htrue (by decide),
    hraise 1 3, rfl, hmap⟩

end TermIndex.Term
