import TermIndex.Term.Contract

/-!
# Filling metavariables

`fill σ` puts a term in the place of every metavariable. The terms that are put
in have no loose variables when they are put under binders, so nothing is
shifted.

The measure of terms is `size`. Filling never makes a term smaller, and an eta
contraction always does, since lowering loose variables only renames them.
-/

namespace TermIndex.Term

/-- The number of nodes. -/
def size : Term → Nat
  | .app f a => 1 + (f.size + a.size)
  | .lam _ _ domain body => 1 + (domain.size + body.size)
  | .pi _ _ domain body => 1 + (domain.size + body.size)
  | .letE _ type value body => 1 + (type.size + (value.size + body.size))
  | .proj _ _ value => 1 + value.size
  | .bvar _ | .fvar _ | .mvar _ | .sort _ | .const _ | .lit _ => 1

/-- The metavariables of a term, each as often as it occurs. -/
def mvars : Term → List MVar
  | .mvar m => [m]
  | .app f a => f.mvars ++ a.mvars
  | .lam _ _ domain body => domain.mvars ++ body.mvars
  | .pi _ _ domain body => domain.mvars ++ body.mvars
  | .letE _ type value body => type.mvars ++ (value.mvars ++ body.mvars)
  | .proj _ _ value => value.mvars
  | .bvar _ | .fvar _ | .sort _ | .const _ | .lit _ => []

/-- The term with every metavariable `m` replaced by `σ m`. -/
def fill (σ : MVar → Term) : Term → Term
  | .mvar m => σ m
  | .app f a => .app (f.fill σ) (a.fill σ)
  | .lam n i domain body => .lam n i (domain.fill σ) (body.fill σ)
  | .pi n i domain body => .pi n i (domain.fill σ) (body.fill σ)
  | .letE n type value body =>
    .letE n (type.fill σ) (value.fill σ) (body.fill σ)
  | .proj s i value => .proj s i (value.fill σ)
  | t => t

/-- The substitution fills the metavariables of a term with closed terms that
have no metavariables. -/
def Grounds (σ : MVar → Term) (t : Term) : Prop :=
  ∀ m ∈ t.mvars, (σ m).looseRange = 0 ∧ (σ m).mvars = []

variable {σ : MVar → Term} {t : Term}

/-! ## Spines -/

theorem head_mkApp (f : Term) (as : List Term) : (f.mkApp as).head = f.head := by
  induction as generalizing f with
  | nil => rfl
  | cons a as ih => exact ih (.app f a)

theorem args_mkApp (f : Term) (as : List Term) :
    (f.mkApp as).args = f.args ++ as := by
  induction as generalizing f with
  | nil => exact (List.append_nil _).symm
  | cons a as ih =>
      rw [List.append_cons]
      exact ih (.app f a)

theorem head_head (t : Term) : t.head.head = t.head := by
  induction t with
  | app f a ihf _ => exact ihf
  | _ => rfl

theorem args_head (t : Term) : t.head.args = [] := by
  induction t with
  | app f a ihf _ => exact ihf
  | _ => rfl

/-- What an application passes on to its function and its argument holds of the
head and of all arguments. -/
theorem of_spine {Q : Term → Prop} (happ : ∀ f a, Q (.app f a) → Q f ∧ Q a)
    (h : Q t) : Q t.head ∧ ∀ a ∈ t.args, Q a := by
  induction t with
  | app f a ihf _ =>
      obtain ⟨hf, ha⟩ := happ f a h
      obtain ⟨hhead, hargs⟩ := ihf hf
      exact ⟨hhead, List.forall_mem_append.mpr
        ⟨hargs, List.forall_mem_singleton.mpr ha⟩⟩
  | _ => exact ⟨h, List.forall_mem_nil _⟩

theorem size_pos (t : Term) : 0 < t.size := by
  cases t <;> rw [size] <;> omega

theorem ne_zero_of_size_le {t : Term} {n : Nat} (h : t.size ≤ n) : n ≠ 0 :=
  Nat.ne_zero_of_lt (Nat.lt_of_lt_of_le t.size_pos h)

theorem size_spine (t : Term) :
    t.head.size ≤ t.size ∧ ∀ a ∈ t.args, a.size < t.size := by
  induction t with
  | app f a ihf _ =>
      obtain ⟨hhead, hargs⟩ := ihf
      simp only [head, args, size, List.forall_mem_append,
        List.forall_mem_singleton]
      refine ⟨by omega, fun b hb => ?_, by omega⟩
      have hlt := hargs b hb
      omega
  | _ => exact ⟨Nat.le_refl _, List.forall_mem_nil _⟩

/-- What is not headed by a metavariable keeps its spine. -/
theorem head_fill (ht : ∀ m, t.head ≠ .mvar m) :
    (t.fill σ).head = t.head.fill σ := by
  induction t with
  | app f a ihf _ => exact ihf ht
  | mvar m => exact absurd rfl (ht m)
  | _ => rfl

theorem args_fill (ht : ∀ m, t.head ≠ .mvar m) :
    (t.fill σ).args = t.args.map (fill σ) := by
  induction t with
  | app f a ihf _ =>
      rw [fill, args, args, ihf ht, List.map_append]
      rfl
  | mvar m => exact absurd rfl (ht m)
  | _ => rfl

/-! ## What filling does -/

theorem size_le_fill (σ : MVar → Term) (t : Term) :
    t.size ≤ (t.fill σ).size := by
  induction t with
  | mvar m => exact (σ m).size_pos
  | _ =>
      simp only [fill, size]
      omega

/-- What is filled in is not larger than the whole. -/
theorem size_filled {m : MVar} (h : m ∈ t.mvars) :
    (σ m).size ≤ (t.fill σ).size := by
  induction t with
  | mvar m' =>
      obtain rfl := List.mem_singleton.mp h
      exact Nat.le_refl _
  | app _ _ ih₁ ih₂ | lam _ _ _ _ ih₁ ih₂ | pi _ _ _ _ ih₁ ih₂ =>
      rw [fill, size]
      rcases List.mem_append.mp h with h | h
      · have hle := ih₁ h
        omega
      · have hle := ih₂ h
        omega
  | letE _ _ _ _ ih₁ ih₂ ih₃ =>
      rw [fill, size]
      rcases List.mem_append.mp h with h | h
      · have hle := ih₁ h
        omega
      rcases List.mem_append.mp h with h | h
      · have hle := ih₂ h
        omega
      · have hle := ih₃ h
        omega
  | proj _ _ _ ih =>
      rw [fill, size]
      have hle := ih h
      omega
  | _ => cases h

theorem mvars_fill_eq (σ : MVar → Term) (t : Term) :
    (t.fill σ).mvars = t.mvars.flatMap fun m => (σ m).mvars := by
  induction t with
  | mvar m => simp [fill, mvars]
  | _ => simp [fill, mvars, *]

theorem mvars_fill (h : Grounds σ t) : (t.fill σ).mvars = [] := by
  rw [mvars_fill_eq, List.flatMap_eq_nil_iff]
  exact fun m hm => (h m hm).2

/-! ## Contraction -/

/-- Renaming loose variables keeps the size. -/
theorem size_mapLoose {f : Nat → Nat → Term}
    (hf : ∀ i depth, (f i depth).size = 1) (t : Term) (depth : Nat) :
    (t.mapLoose f depth).size = t.size := by
  induction t generalizing depth with
  | bvar i =>
      unfold mapLoose
      split
      · rfl
      · exact hf i depth
  | _ =>
      unfold mapLoose
      split
      · rfl
      · simp [size, *]

theorem size_lower (start amount : Nat) (t : Term) :
    (t.lower start amount).size = t.size := by
  unfold lower
  split
  · rfl
  · refine size_mapLoose (fun i depth => ?_) t 0
    split <;> rfl

theorem size_dropArg {t' : Term} (h : t.dropArg? = some t') :
    t'.size < t.size := by
  unfold dropArg? at h
  split at h
  · next f =>
      unfold unbind? at h
      split at h
      · cases h
      · obtain rfl := Option.some.inj h
        rw [size_lower, size]
        omega
  · cases h

/-- Contracting makes a term smaller. -/
theorem size_etaContract {t' : Term} (h : t.etaContract? = some t') :
    t'.size < t.size := by
  induction t generalizing t' with
  | lam n i domain body _ ih =>
      have hlt := size_dropArg h
      rw [size]
      cases hbody : body.etaContract? with
      | none =>
          rw [hbody, Option.getD_none] at hlt
          omega
      | some body' =>
          rw [hbody, Option.getD_some] at hlt
          have hbody' := ih hbody
          omega
  | _ => cases h

end TermIndex.Term
