import TermIndex.Proofs.BoundVariables

/-!
# Raising, lowering and instantiating

A term is raised when binders are put around it, lowered when binders that it
does not see are taken away, and instantiated when a binder is taken away
together with its variable. Each is the renaming or the substitution of its
loose variables, so what two of them make of a term is settled by what they make
of an index: raising and lowering undo each other (`lower_raise`,
`raise_lower`), lowering is what is left of an instantiation when the variable
does not occur (`instantiate_eq_lower`), and raising goes through an
instantiation (`raise_instantiate`).

The same reading of the operations says which variables are loose in their
results.
-/

namespace TermIndex.Term

variable {t : Term}

/-! ## Raising and lowering -/

/-- Lowering only makes sense if every variable stays above the binders that
enclose it, and then it is a renaming. -/
theorem lower_eq {start amount : Nat} (h : amount ≤ start) (t : Term) :
    t.lower start amount
      = t.rename fun i => if start ≤ i then i - amount else i := by
  unfold lower
  split
  · next hzero => simp only [hzero, Nat.sub_zero, ite_self, rename_id]
  · refine mapLoose_eq_rename (fun i depth => ?_) t
    rw [← apply_ite bvar, Term.bvar.injEq]
    split_ifs <;> omega

theorem lower_raise (start amount : Nat) (t : Term) :
    (t.raise start amount).lower (start + amount) amount = t := by
  rw [lower_eq (Nat.le_add_left amount start), raise_eq, rename_rename]
  have hback : ∀ i, (if start + amount ≤ (if start ≤ i then i + amount else i)
      then (if start ≤ i then i + amount else i) - amount
      else if start ≤ i then i + amount else i) = i := by
    intro i
    by_cases hi : start ≤ i
    · rw [if_pos hi, if_pos (by omega), Nat.add_sub_cancel]
    · rw [if_neg hi, if_neg (by omega)]
  simp only [hback, rename_id]

/-- A term that does not see the variables from `start` on can be moved out of
their binders and back. -/
theorem raise_lower {start amount : Nat}
    (h : ∀ i, start ≤ i → i < start + amount → ¬ t.occurs i) :
    (t.lower (start + amount) amount).raise start amount = t := by
  rw [raise_eq, lower_eq (Nat.le_add_left amount start), rename_rename]
  conv => rhs; rw [← rename_id t]
  refine rename_congr fun i hi => ?_
  by_cases hhigh : start + amount ≤ i
  · rw [if_pos hhigh, if_pos (by omega), Nat.sub_add_cancel (by omega)]
  · have hlow : ¬ start ≤ i := fun hle => h i hle (Nat.lt_of_not_le hhigh) hi
    rw [if_neg hhigh, if_neg hlow]

theorem raise_raise (m n : Nat) (t : Term) :
    (t.raise 0 m).raise 0 n = t.raise 0 (m + n) := by
  simp only [raise_zero_eq, rename_rename, Nat.add_assoc]

/-! ## Instantiating -/

/-- A body that does not use the bound variable only loses the binder. -/
theorem instantiate_eq_lower (h : ¬ t.occurs 0) (value : Term) :
    t.instantiate value = t.lower 1 1 := by
  rw [instantiate_eq, lower_eq (Nat.le_refl 1), rename_eq_subst]
  refine subst_congr fun i hi => ?_
  cases i with
  | zero => exact absurd hi h
  | succ i => rfl

theorem raise_instantiate (start amount : Nat) (body value : Term) :
    (body.instantiate value).raise start amount
      = (body.raise (start + 1) amount).instantiate
          (value.raise start amount) := by
  have hlift : (liftNames fun i => if start ≤ i then i + amount else i)
      = fun i => if start + 1 ≤ i then i + amount else i := by
    funext i
    cases i with
    | zero => rfl
    | succ i =>
        by_cases hi : start ≤ i
        · rw [if_pos (Nat.succ_le_succ hi), liftNames, if_pos hi,
            Nat.add_right_comm]
        · rw [if_neg (by omega), liftNames, if_neg hi]
  rw [raise_eq, raise_eq, raise_eq, rename_eq_subst, instantiate_subst,
    lift_bvar, hlift, ← rename_eq_subst, ← rename_eq_subst]

/-! ## Loose variables of the results -/

theorem occurs_raise {n j : Nat} :
    (t.raise 0 n).occurs j ↔ ∃ i, t.occurs i ∧ i + n = j := by
  rw [raise_zero_eq, occurs_rename]

theorem occurs_raise_succ {i : Nat} :
    (t.raise 0 1).occurs (i + 1) ↔ t.occurs i := by
  simp only [occurs_raise, Nat.succ_inj, exists_eq_right]

theorem not_occurs_raise (t : Term) : ¬ (t.raise 0 1).occurs 0 := by
  rw [occurs_raise]
  rintro ⟨i, -, hi⟩
  cases hi

/-- What is loose in an instantiated body is loose around the binder, or it is
loose in the value and the body uses its variable. -/
theorem occurs_instantiate {body value : Term} {j : Nat} :
    (body.instantiate value).occurs j
      ↔ body.occurs (j + 1) ∨ body.occurs 0 ∧ value.occurs j := by
  rw [instantiate_eq, occurs_subst]
  constructor
  · rintro ⟨_ | i, hi, hj⟩
    · exact Or.inr ⟨hi, hj⟩
    · obtain rfl : i = j := by simpa [single, occurs] using hj
      exact Or.inl hi
  · rintro (hbody | ⟨hzero, hvalue⟩)
    · exact ⟨j + 1, hbody, by simp [single, occurs]⟩
    · exact ⟨0, hzero, hvalue⟩

/-! ## The laws together -/

/-- **Shifting and instantiating.** Raising and lowering cancel; a raised term
does not see the value that it is instantiated with, nor does any other term
that does not use the bound variable; and an instantiated term is raised by
raising the body above its variable and the value. -/
theorem shift_laws (t v : Term) (s n : Nat) :
    (t.raise s n).lower (s + n) n = t
      ∧ ((∀ i, s ≤ i → i < s + n → ¬ t.occurs i) →
          (t.lower (s + n) n).raise s n = t)
      ∧ (t.raise 0 1).instantiate v = t
      ∧ (¬ t.occurs 0 → t.instantiate v = t.lower 1 1)
      ∧ (t.instantiate v).raise 0 n
        = (t.raise 1 n).instantiate (v.raise 0 n) :=
  ⟨lower_raise s n t, raise_lower, instantiate_raise t v,
    fun h => instantiate_eq_lower h v, raise_instantiate 0 n t v⟩

/-- In `fun (x : #1) => let y : x := #2; f y #3 #6` the variables 1 and 4 are
loose, each also under both binders. -/
theorem shift_laws_two_binders :
    ∃ t u w : Term,
      t = .lam ⟨"x"⟩ .default (.bvar 1) (.letE ⟨"y"⟩ (.bvar 0) (.bvar 2)
        (.app (.app (.app (.const ⟨"f"⟩) (.bvar 0)) (.bvar 3)) (.bvar 6)))
      ∧ u = .lam ⟨"x"⟩ .default (.bvar 1) (.letE ⟨"y"⟩ (.bvar 0) (.bvar 2)
        (.app (.app (.app (.const ⟨"f"⟩) (.bvar 0)) (.bvar 3)) (.bvar 4)))
      ∧ w = .lam ⟨"x"⟩ .default (.bvar 0) (.letE ⟨"y"⟩ (.bvar 0) (.bvar 1)
        (.app (.app (.app (.const ⟨"f"⟩) (.bvar 0)) (.bvar 2)) (.bvar 5)))
      ∧ (∀ i, 2 ≤ i → i < 4 → ¬ t.occurs i) ∧ ¬ t.occurs 0
      ∧ t.lower 4 2 = u ∧ u.raise 2 2 = t
      ∧ t.lower 1 1 = w ∧ t.instantiate (.bvar 7) = w := by
  have hgap : ∀ i, 2 ≤ i → i < 4 →
      ¬ (Term.lam ⟨"x"⟩ .default (.bvar 1) (.letE ⟨"y"⟩ (.bvar 0) (.bvar 2)
        (.app (.app (.app (.const ⟨"f"⟩) (.bvar 0)) (.bvar 3))
          (.bvar 6)))).occurs i := by
    intro i hlow hhigh
    obtain rfl | rfl : i = 2 ∨ i = 3 := by omega
    · decide
    · decide
  obtain ⟨-, hraised, -, hinstantiated, -⟩ := shift_laws _ (.bvar 7) 2 2
  exact ⟨_, _, _, rfl, rfl, rfl, hgap, by decide, rfl, hraised hgap, rfl,
    hinstantiated (by decide)⟩

end TermIndex.Term
