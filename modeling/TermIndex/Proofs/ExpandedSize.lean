import TermIndex.Proofs.Pointwise

/-!
# Size with every `let` expanded

To expand a `let` is to copy its value to every place where its variable is used,
so the term may become larger, and so may whatever is taken out of it later. The
measure that goes down nevertheless counts a term as if every `let` in it were
expanded already: `weigh w` counts nodes, a variable `i` counts for `w i`, and
in the body of a `let` its variable counts for the value. Instantiating a body
and weighing the variable like the value come to the same (`weigh_instantiate`).

What is taken away by a projection, a conversion or an eta contraction only makes
a term lighter.
-/

namespace TermIndex

namespace Term

/-- Under a binder whose variable counts for `n`. -/
def under (n : Nat) (w : Nat → Nat) : Nat → Nat
  | 0 => n
  | i + 1 => w i

/-- The number of nodes of a term with every `let` expanded, where a loose
variable `i` counts for `w i`. The `let`, its type and its value are counted once
more. -/
@[simp]
def weigh (w : Nat → Nat) : Term → Nat
  | .bvar i => w i
  | .app f a => 1 + (f.weigh w + a.weigh w)
  | .lam _ _ domain body => 1 + (domain.weigh w + body.weigh (under 1 w))
  | .pi _ _ domain body => 1 + (domain.weigh w + body.weigh (under 1 w))
  | .letE _ type value body =>
    1 + (type.weigh w + (value.weigh w + body.weigh (under (value.weigh w) w)))
  | .proj _ _ value => 1 + value.weigh w
  | .fvar _ | .mvar _ | .sort _ | .const _ | .lit _ => 1

/-- The number of nodes of a term with every `let` expanded. -/
def expandedSize (t : Term) : Nat := t.weigh fun _ => 1

/-! ## Replacing variables -/

theorem weigh_rename (ρ : Nat → Nat) (w : Nat → Nat) (t : Term) :
    (t.rename ρ).weigh w = t.weigh fun i => w (ρ i) := by
  have hlift : ∀ (n : Nat) (ρ : Nat → Nat) (w : Nat → Nat),
      (fun i => under n w (liftNames ρ i)) = under n fun i => w (ρ i) := by
    intro n ρ w
    funext i
    cases i <;> rfl
  induction t generalizing ρ w with
  | _ => simp only [rename, weigh, *]

/-- What replaces a variable counts instead of it. -/
theorem weigh_subst (σ : Nat → Term) (w : Nat → Nat) (t : Term) :
    (t.subst σ).weigh w = t.weigh fun i => (σ i).weigh w := by
  have hlift : ∀ (n : Nat) (σ : Nat → Term) (w : Nat → Nat),
      (fun i => (lift σ i).weigh (under n w))
        = under n fun i => (σ i).weigh w := by
    intro n σ w
    funext i
    cases i with
    | zero => rfl
    | succ i => exact weigh_rename (· + 1) (under n w) (σ i)
  induction t generalizing σ w with
  | _ => simp only [subst, weigh, *]

theorem weigh_instantiate (body value : Term) (w : Nat → Nat) :
    (body.instantiate value).weigh w = body.weigh (under (value.weigh w) w) := by
  rw [instantiate_eq, weigh_subst]
  congr 1
  funext i
  cases i <;> rfl

variable {t u f g : Term}

theorem expandedSize_raise (n : Nat) (t : Term) :
    (t.raise 0 n).expandedSize = t.expandedSize := by
  rw [raise_zero_eq, expandedSize, weigh_rename]
  rfl

/-! ## Formers -/

theorem expandedSize_pos (t : Term) : 0 < t.expandedSize := by
  unfold expandedSize
  cases t <;> rw [weigh] <;> omega

theorem expandedSize_app (f a : Term) :
    (app f a).expandedSize = 1 + (f.expandedSize + a.expandedSize) := rfl

theorem expandedSize_proj (s : Name) (i : Nat) (value : Term) :
    (proj s i value).expandedSize = 1 + value.expandedSize := rfl

/-- A binder other than `let` leaves its variable as it is. -/
theorem under_one : under 1 (fun _ => 1) = fun _ => 1 := by
  funext i
  cases i <;> rfl

theorem expandedSize_lam (n : Name) (info : BinderInfo) (domain body : Term) :
    (lam n info domain body).expandedSize
      = 1 + (domain.expandedSize + body.expandedSize) := by
  simp only [expandedSize, weigh, under_one]

theorem expandedSize_pi (n : Name) (info : BinderInfo) (domain body : Term) :
    (pi n info domain body).expandedSize
      = 1 + (domain.expandedSize + body.expandedSize) := by
  simp only [expandedSize, weigh, under_one]

/-- To expand a `let` takes it away, and the copies of its value were counted
before. -/
theorem expandedSize_zeta (n : Name) (type value body : Term) :
    (body.instantiate value).expandedSize
      < (letE n type value body).expandedSize := by
  rw [expandedSize, expandedSize, weigh_instantiate, weigh]
  omega

/-! ## Spines -/

theorem expandedSize_spine (t : Term) :
    t.head.expandedSize ≤ t.expandedSize
      ∧ ∀ a ∈ t.args, a.expandedSize < t.expandedSize := by
  induction t with
  | app f a ihf _ =>
      obtain ⟨hhead, hargs⟩ := ihf
      simp only [head, args, expandedSize_app, List.forall_mem_append,
        List.forall_mem_singleton]
      refine ⟨by omega, fun b hb => ?_, by omega⟩
      have hlt := hargs b hb
      omega
  | _ => exact ⟨Nat.le_refl _, List.forall_mem_nil _⟩

/-- By as much as one head is lighter, so is the whole, if no argument is
heavier. -/
theorem expandedSize_mkApp_add_le {k : Nat} {as bs : List Term}
    (hhead : f.expandedSize + k ≤ g.expandedSize)
    (hargs : List.Forall₂ (fun a b => a.expandedSize ≤ b.expandedSize) as bs) :
    (f.mkApp as).expandedSize + k ≤ (g.mkApp bs).expandedSize := by
  induction hargs generalizing f g with
  | nil => exact hhead
  | @cons a b as bs hab _ ih =>
      refine ih (f := f.app a) (g := g.app b) ?_
      rw [expandedSize_app, expandedSize_app]
      omega

/-- A projection at the head is heavier than the field that takes its place, if
the projected value is no lighter than the field. -/
theorem expandedSize_field {field value : Term} {s : Name} {i : Nat}
    (ht : t.head = .proj s i value)
    (h : field.expandedSize ≤ value.expandedSize) :
    (field.mkApp t.args).expandedSize < t.expandedSize := by
  have hhead : field.expandedSize + 1 ≤ t.head.expandedSize := by
    rw [ht, expandedSize_proj]
    omega
  have hargs : List.Forall₂ (fun a b => a.expandedSize ≤ b.expandedSize)
      t.args t.args := List.forall₂_same.mpr fun a _ => Nat.le_refl _
  have hmkApp := expandedSize_mkApp_add_le hhead hargs
  rwa [mkApp_head_args] at hmkApp

/-! ## Binders that are taken away -/

theorem expandedSize_atPoint (f : Term) :
    f.atPoint.expandedSize = f.expandedSize + 2 := by
  rw [atPoint, expandedSize_app, expandedSize_raise]
  change 1 + (f.expandedSize + 1) = _
  omega

theorem expandedSize_etaContract (h : t.etaContract? = some u) :
    u.expandedSize < t.expandedSize := by
  induction t generalizing u with
  | lam n info domain body _ ih =>
      have hbody : (body.etaContract?.getD body).expandedSize
          ≤ body.expandedSize := by
        cases hinner : body.etaContract? with
        | none => exact Nat.le_refl _
        | some body' => exact Nat.le_of_lt (ih hinner)
      rw [dropArg?_eq_some_iff.mp h, expandedSize_atPoint] at hbody
      rw [expandedSize_lam]
      omega
  | _ => cases h

end Term

open Term

namespace Conversion

variable {t u : Term}

theorem IsPointwise.expandedSize_le {op : Name} {b : LamBinder} {k : Nat}
    (h : IsPointwise op b k t u) : u.expandedSize ≤ t.expandedSize := by
  obtain ⟨front, f, g, -, rfl, rfl⟩ := h
  have hargs : List.Forall₂ (fun a b => a.expandedSize ≤ b.expandedSize)
      (front ++ [f, g]) (front.map (raise 0 1) ++ [f.atPoint, g.atPoint]) := by
    refine List.rel_append ?_ ?_
    · refine List.forall₂_map_right_iff.mpr (List.forall₂_same.mpr fun a _ => ?_)
      rw [expandedSize_raise]
    · simp only [List.forall₂_cons, List.Forall₂.nil, expandedSize_atPoint,
        Nat.le_add_right, and_self]
  have hbody := expandedSize_mkApp_add_le (f := .const op) (g := .const op)
    (k := 0) (Nat.le_refl _) hargs
  rw [LamBinder.bind, expandedSize_lam, pointBody, operation, operation]
  omega

theorem expandedSize_convert?_le {rule : Conversion}
    (h : rule.convert? t = some u) : u.expandedSize ≤ t.expandedSize := by
  rcases convert?_cases h with ⟨n, rfl⟩ | ⟨l, rfl⟩ | ⟨op, b, k, hpoint⟩
  · exact t.expandedSize_pos
  · exact t.expandedSize_pos
  · exact hpoint.expandedSize_le

end Conversion

theorem Encoder.expandedSize_convert_le (enc : Encoder) (t : Term) :
    (enc.convert t).expandedSize ≤ t.expandedSize := by
  unfold Encoder.convert
  cases h : Conversion.convertFirst? enc.rules t with
  | none => exact Nat.le_refl _
  | some u =>
      obtain ⟨rule, -, hrule⟩ := List.exists_of_findSome?_eq_some h
      exact Conversion.expandedSize_convert?_le hrule

end TermIndex
