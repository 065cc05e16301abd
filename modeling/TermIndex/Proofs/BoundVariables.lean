import Mathlib.Order.MinMax
import TermIndex.Proofs.Substitution

/-!
# Replacing bound variables

Shifting up and instantiation both replace the loose variables of a term. Here
this is done for all of them at once: `rename ρ` puts variable `ρ i` in the
place of `i`, and `subst σ` the term `σ i`. Both visit the whole term. Their
laws are short, because a binder only lifts the replacement.

Only the replacements of loose variables matter (`subst_congr`), and what is
loose in these is loose in the result (`occurs_subst`).

`mapLoose` stops early at subterms without loose variables, and it is told the
depth instead of lifting the replacement. It is a substitution all the same, if
what it does at a depth is the substitution lifted that often
(`mapLoose_eq_subst`). This makes a renaming of shifting up (`raise_eq`) and a
substitution of instantiating (`instantiate_eq`), and what they do one after the
other follows from the composition of substitutions (`instantiate_body`).
-/

namespace TermIndex.Term

/-! ## Renaming and substitution -/

/-- A renaming under one more binder. -/
def liftNames (ρ : Nat → Nat) : Nat → Nat
  | 0 => 0
  | i + 1 => ρ i + 1

@[simp]
def rename (ρ : Nat → Nat) : Term → Term
  | .bvar i => .bvar (ρ i)
  | .app f a => .app (f.rename ρ) (a.rename ρ)
  | .lam n info domain body =>
    .lam n info (domain.rename ρ) (body.rename (liftNames ρ))
  | .pi n info domain body =>
    .pi n info (domain.rename ρ) (body.rename (liftNames ρ))
  | .letE n type value body =>
    .letE n (type.rename ρ) (value.rename ρ) (body.rename (liftNames ρ))
  | .proj s i value => .proj s i (value.rename ρ)
  | t => t

/-- A substitution under one more binder. -/
def lift (σ : Nat → Term) : Nat → Term
  | 0 => .bvar 0
  | i + 1 => (σ i).rename (· + 1)

@[simp]
def subst (σ : Nat → Term) : Term → Term
  | .bvar i => σ i
  | .app f a => .app (f.subst σ) (a.subst σ)
  | .lam n info domain body =>
    .lam n info (domain.subst σ) (body.subst (lift σ))
  | .pi n info domain body =>
    .pi n info (domain.subst σ) (body.subst (lift σ))
  | .letE n type value body =>
    .letE n (type.subst σ) (value.subst σ) (body.subst (lift σ))
  | .proj s i value => .proj s i (value.subst σ)
  | t => t

/-- The closest variable becomes the value, and all others come one binder
closer. -/
def single (value : Term) : Nat → Term
  | 0 => value
  | i + 1 => .bvar i

variable {σ τ : Nat → Term} {ρ ρ' : Nat → Nat} {t : Term}

/-! ## Laws -/

theorem lift_bvar (ρ : Nat → Nat) :
    lift (fun i => .bvar (ρ i)) = fun i => .bvar (liftNames ρ i) := by
  funext i
  cases i <;> rfl

theorem rename_eq_subst (ρ : Nat → Nat) (t : Term) :
    t.rename ρ = t.subst fun i => .bvar (ρ i) := by
  induction t generalizing ρ with
  | _ => simp only [rename, subst, lift_bvar, *]

theorem rename_rename (ρ ρ' : Nat → Nat) (t : Term) :
    (t.rename ρ).rename ρ' = t.rename fun i => ρ' (ρ i) := by
  have hlift : ∀ ρ ρ' : Nat → Nat,
      (fun i => liftNames ρ' (liftNames ρ i))
        = liftNames fun i => ρ' (ρ i) := by
    intro ρ ρ'
    funext i
    cases i <;> rfl
  induction t generalizing ρ ρ' with
  | _ => simp only [rename, *]

theorem subst_bvar (t : Term) : t.subst .bvar = t := by
  have hlift : lift .bvar = .bvar := by
    funext i
    cases i <;> rfl
  induction t with
  | _ => simp only [subst, *]

theorem rename_id (t : Term) : (t.rename fun i => i) = t := by
  rw [rename_eq_subst, subst_bvar]

theorem subst_rename (ρ : Nat → Nat) (σ : Nat → Term) (t : Term) :
    (t.rename ρ).subst σ = t.subst fun i => σ (ρ i) := by
  have hlift : ∀ (ρ : Nat → Nat) (σ : Nat → Term),
      (fun i => lift σ (liftNames ρ i)) = lift fun i => σ (ρ i) := by
    intro ρ σ
    funext i
    cases i <;> rfl
  induction t generalizing ρ σ with
  | _ => simp only [rename, subst, *]

theorem rename_subst (σ : Nat → Term) (ρ : Nat → Nat) (t : Term) :
    (t.subst σ).rename ρ = t.subst fun i => (σ i).rename ρ := by
  have hlift : ∀ (σ : Nat → Term) (ρ : Nat → Nat),
      (fun i => (lift σ i).rename (liftNames ρ))
        = lift fun i => (σ i).rename ρ := by
    intro σ ρ
    funext i
    cases i with
    | zero => rfl
    | succ i => simp only [lift, rename_rename, liftNames]
  induction t generalizing σ ρ with
  | _ => simp only [rename, subst, *]

/-- Two substitutions one after the other are one. -/
theorem subst_subst (σ τ : Nat → Term) (t : Term) :
    (t.subst σ).subst τ = t.subst fun i => (σ i).subst τ := by
  have hlift : ∀ σ τ : Nat → Term,
      (fun i => (lift σ i).subst (lift τ)) = lift fun i => (σ i).subst τ := by
    intro σ τ
    funext i
    cases i with
    | zero => rfl
    | succ i => simp only [lift, subst_rename, rename_subst]
  induction t generalizing σ τ with
  | _ => simp only [subst, *]

/-! ## Loose variables -/

theorem forall_lt_succ_iff {P : Nat → Prop} {n : Nat} :
    (∀ i, P i → i < n + 1) ↔ ∀ i, P (i + 1) → i < n := by
  constructor
  · intro h i hi
    exact Nat.lt_of_succ_lt_succ (h (i + 1) hi)
  · intro h i hi
    cases i with
    | zero => exact Nat.succ_pos n
    | succ i => exact Nat.succ_lt_succ (h i hi)

/-- The range is the least bound of the loose variables. -/
theorem looseRange_le_iff {n : Nat} :
    t.looseRange ≤ n ↔ ∀ i, t.occurs i → i < n := by
  induction t generalizing n with
  | bvar j =>
      simp only [looseRange, occurs, beq_iff_eq, forall_eq', Nat.succ_le_iff]
  | app f a ihf iha =>
      simp only [looseRange, occurs, Bool.or_eq_true, max_le_iff, or_imp,
        forall_and, ihf, iha]
  | lam _ _ domain body ihd ihb | pi _ _ domain body ihd ihb =>
      simp only [looseRange, occurs, Bool.or_eq_true, max_le_iff, or_imp,
        forall_and, Nat.sub_le_iff_le_add, ihd, ihb, forall_lt_succ_iff]
  | letE _ type value body iht ihv ihb =>
      simp only [looseRange, occurs, Bool.or_eq_true, max_le_iff, or_imp,
        forall_and, Nat.sub_le_iff_le_add, iht, ihv, ihb, forall_lt_succ_iff]
  | proj _ _ value ih => exact ih
  | _ => simp [looseRange, occurs]

/-- Substitutions that agree on the loose variables of a term agree on the
term. -/
theorem subst_congr (h : ∀ i, t.occurs i → σ i = τ i) :
    t.subst σ = t.subst τ := by
  have hlift : ∀ {body : Term} {σ τ : Nat → Term},
      (∀ i, body.occurs (i + 1) → σ i = τ i) →
      ∀ i, body.occurs i → lift σ i = lift τ i := by
    intro body σ τ h i hi
    cases i with
    | zero => rfl
    | succ i => rw [lift, lift, h i hi]
  induction t generalizing σ τ with
  | bvar i => exact h i (beq_self_eq_true i)
  | app f a ihf iha =>
      simp only [occurs, Bool.or_eq_true, or_imp, forall_and] at h
      rw [subst, subst, ihf h.1, iha h.2]
  | lam _ _ domain body ihd ihb | pi _ _ domain body ihd ihb =>
      simp only [occurs, Bool.or_eq_true, or_imp, forall_and] at h
      rw [subst, subst, ihd h.1, ihb (hlift h.2)]
  | letE _ type value body iht ihv ihb =>
      simp only [occurs, Bool.or_eq_true, or_imp, forall_and] at h
      rw [subst, subst, iht h.1.1, ihv h.1.2, ihb (hlift h.2)]
  | proj _ _ value ih => rw [subst, subst, ih h]
  | _ => rfl

theorem subst_eq_self (h : ∀ i, t.occurs i → σ i = .bvar i) :
    t.subst σ = t :=
  (subst_congr h).trans (subst_bvar t)

theorem rename_congr (h : ∀ i, t.occurs i → ρ i = ρ' i) :
    t.rename ρ = t.rename ρ' := by
  rw [rename_eq_subst, rename_eq_subst]
  exact subst_congr fun i hi => congrArg bvar (h i hi)

theorem occurs_rename {j : Nat} :
    (t.rename ρ).occurs j ↔ ∃ i, t.occurs i ∧ ρ i = j := by
  have hlift : ∀ (ρ : Nat → Nat) (body : Term) (j : Nat),
      (∃ i, body.occurs i ∧ liftNames ρ i = j + 1)
        ↔ ∃ i, body.occurs (i + 1) ∧ ρ i = j := by
    intro ρ body j
    constructor
    · rintro ⟨_ | i, hi, hj⟩
      · cases hj
      · exact ⟨i, hi, Nat.succ.inj hj⟩
    · rintro ⟨i, hi, rfl⟩
      exact ⟨i + 1, hi, rfl⟩
  induction t generalizing ρ j with
  | bvar i => simp only [rename, occurs, beq_iff_eq, exists_eq_left']
  | _ =>
      simp only [rename, occurs, Bool.or_eq_true, or_and_right, exists_or,
        Bool.false_eq_true, false_and, exists_false, *]

/-- The loose variables after a substitution are those of what replaces the
loose variables. -/
theorem occurs_subst {j : Nat} :
    (t.subst σ).occurs j ↔ ∃ i, t.occurs i ∧ (σ i).occurs j := by
  have hlift : ∀ (σ : Nat → Term) (body : Term) (j : Nat),
      (∃ i, body.occurs i ∧ (lift σ i).occurs (j + 1))
        ↔ ∃ i, body.occurs (i + 1) ∧ (σ i).occurs j := by
    intro σ body j
    have hraised : ∀ i, (lift σ (i + 1)).occurs (j + 1) ↔ (σ i).occurs j := by
      intro i
      simp only [lift, occurs_rename, Nat.succ_inj, exists_eq_right]
    constructor
    · rintro ⟨_ | i, hi, hj⟩
      · cases hj
      · exact ⟨i, hi, (hraised i).mp hj⟩
    · rintro ⟨i, hi, hj⟩
      exact ⟨i + 1, hi, (hraised i).mpr hj⟩
  induction t generalizing σ j with
  | bvar i => simp only [subst, occurs, beq_iff_eq, exists_eq_left']
  | _ =>
      simp only [subst, occurs, Bool.or_eq_true, or_and_right, exists_or,
        Bool.false_eq_true, false_and, exists_false, *]

/-! ## Stopping early -/

/-- A substitution under `depth` more binders. -/
def liftBy (σ : Nat → Term) (depth : Nat) : Nat → Term := fun i =>
  if i < depth then .bvar i else (σ (i - depth)).rename (· + depth)

theorem liftBy_zero (σ : Nat → Term) : liftBy σ 0 = σ := by
  funext i
  exact rename_id (σ i)

theorem liftBy_succ (σ : Nat → Term) (depth : Nat) :
    liftBy σ (depth + 1) = lift (liftBy σ depth) := by
  funext i
  cases i with
  | zero => rfl
  | succ i =>
      by_cases hi : i < depth
      · simp only [liftBy, lift, if_pos hi, if_pos (Nat.succ_lt_succ hi),
          rename]
      · have hi' : ¬ i + 1 < depth + 1 := by omega
        simp only [liftBy, lift, if_neg hi, if_neg hi', rename_rename,
          Nat.add_sub_add_right, Nat.add_assoc]

/-- What replaces each variable as a substitution does, under any number of
binders, is the substitution. It may stop where a term has no loose variables,
as nothing is replaced there. -/
theorem mapLoose_eq_subst {f : Nat → Nat → Term} {σ : Nat → Term}
    (hf : ∀ i depth, f i depth = liftBy σ depth i) (t : Term) :
    t.mapLoose f 0 = t.subst σ := by
  suffices hdepth : ∀ depth, t.mapLoose f depth = t.subst (liftBy σ depth) by
    rw [hdepth, liftBy_zero]
  intro depth
  induction t generalizing depth with
  | _ =>
      unfold mapLoose
      split
      · next hclosed =>
          refine (subst_eq_self fun i hi => ?_).symm
          exact if_pos (looseRange_le_iff.mp hclosed i hi)
      · simp only [subst, ← liftBy_succ, *]

theorem mapLoose_eq_rename {f : Nat → Nat → Term} {ρ : Nat → Nat}
    (hf : ∀ i depth, f i depth
      = .bvar (if i < depth then i else ρ (i - depth) + depth)) (t : Term) :
    t.mapLoose f 0 = t.rename ρ := by
  rw [rename_eq_subst]
  refine mapLoose_eq_subst (fun i depth => ?_) t
  rw [hf, liftBy, rename, apply_ite bvar]

/-! ## Raising and instantiating -/

theorem raise_eq (start amount : Nat) (t : Term) :
    t.raise start amount
      = t.rename fun i => if start ≤ i then i + amount else i := by
  unfold raise
  split
  · next hzero => simp only [hzero, Nat.add_zero, ite_self, rename_id]
  · refine mapLoose_eq_rename (fun i depth => ?_) t
    rw [← apply_ite bvar, Term.bvar.injEq]
    split_ifs <;> omega

/-- A term is raised past the binders that it is put under. -/
theorem raise_zero_eq (amount : Nat) (t : Term) :
    t.raise 0 amount = t.rename (· + amount) := by
  simp only [raise_eq, Nat.zero_le, if_true]

theorem instantiate_eq (body value : Term) :
    body.instantiate value = body.subst (single value) := by
  refine mapLoose_eq_subst (fun i depth => ?_) body
  rw [raise_zero_eq]
  rcases Nat.lt_trichotomy i depth with hi | rfl | hi
  · rw [if_neg (by omega), if_neg (by omega), liftBy, if_pos hi]
  · rw [if_pos rfl, liftBy, if_neg (by omega), Nat.sub_self, single]
  · obtain ⟨k, rfl⟩ := Nat.exists_eq_add_of_lt hi
    rw [if_neg (by omega), if_pos hi, liftBy, if_neg (by omega)]
    simp [show depth + k + 1 - depth = k + 1 by omega, single, rename,
      Nat.add_comm]

/-! ## Instantiating twice -/

/-- A term that does not see a binder is not changed by instantiating it. -/
theorem instantiate_raise (t value : Term) :
    (t.raise 0 1).instantiate value = t := by
  rw [instantiate_eq, raise_zero_eq, subst_rename]
  exact subst_bvar t

/-- A substitution goes through an instantiation. -/
theorem instantiate_subst (body value : Term) (σ : Nat → Term) :
    (body.instantiate value).subst σ
      = (body.subst (lift σ)).instantiate (value.subst σ) := by
  have hpoint : ∀ i, (single value i).subst σ
      = (lift σ i).subst (single (value.subst σ)) := by
    intro i
    cases i with
    | zero => rfl
    | succ i =>
        rw [lift, ← raise_zero_eq, ← instantiate_eq, instantiate_raise]
        rfl
  rw [instantiate_eq, instantiate_eq, subst_subst, subst_subst,
    funext hpoint]

/-- **Substitution.** Instantiating a lambda gives a body that can be
instantiated in turn. The values may be put in the other way round, if the one
that then comes first is raised past the variable that the other one is for. -/
theorem instantiate_body (n : Name) (info : BinderInfo)
    (domain body u v : Term) :
    ∃ body', (lam n info domain body).instantiate u
        = .lam n info (domain.instantiate u) body'
      ∧ body'.instantiate v
        = (body.instantiate (v.raise 0 1)).instantiate u := by
  refine ⟨body.subst (lift (single u)), ?_, ?_⟩
  · rw [instantiate_eq, instantiate_eq, subst]
  · have hvalue : (v.raise 0 1).subst (single u) = v := by
      rw [← instantiate_eq, instantiate_raise]
    rw [instantiate_eq _ u, instantiate_subst, hvalue]

end TermIndex.Term
