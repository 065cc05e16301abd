import TermIndex.Proofs.Encodings
import TermIndex.Proofs.EtaExpansions

/-!
# Pointwise operations

The pointwise rule turns `fun x => op p₁ … pₖ (f x) (g x)` into
`op p₁ … pₖ f g`. It applies to the lambdas of this form and to no others
(`convert?_pointwise_iff`): the binder is taken away from each argument on its
own, and taking it away succeeds exactly on what has been raised past it.

Nothing but the binder is lost. `restore` puts it back around the result, raises
the leading arguments past it, and applies the two operands to its variable.
-/

namespace TermIndex.Conversion

open Term

/-- The operator applied to leading arguments and two operands. -/
def operation (op : Name) (front : List Term) (f g : Term) : Term :=
  (Term.const op).mkApp (front ++ [f, g])

/-- The operation as the body of a binder, done at the point that the binder
gives. -/
def pointBody (op : Name) (front : List Term) (f g : Term) : Term :=
  operation op (front.map (raise 0 1)) f.atPoint g.atPoint

/-- What the pointwise rule does: the first term is the operation at the points
that the binder gives, and the second one the operation itself, which has `k`
leading arguments. -/
def IsPointwise (op : Name) (b : LamBinder) (k : Nat) (t r : Term) : Prop :=
  ∃ (front : List Term) (f g : Term), front.length = k
    ∧ t = b.bind (pointBody op front f g) ∧ r = operation op front f g

/-- The operation with `k` leading arguments at the points that the binder
gives. -/
def restore (b : LamBinder) (k : Nat) (r : Term) : Term :=
  b.bind (r.head.mkApp
    ((r.args.take k).map (raise 0 1) ++ (r.args.drop k).map atPoint))

variable {op : Name} {b : LamBinder} {k : Nat} {t r body : Term}

/-! ## Applying the rule -/

theorem head_operation (op : Name) (front : List Term) (f g : Term) :
    (operation op front f g).head = .const op :=
  head_mkApp (.const op) _

theorem args_operation (op : Name) (front : List Term) (f g : Term) :
    (operation op front f g).args = front ++ [f, g] :=
  args_mkApp (.const op) _

/-- What the rule accepts is an operation at the points of the binder: its
arguments are what they become without the binder, put back into it. -/
theorem exists_pointBody (h : pointwise? op body = some r) :
    ∃ front f g, body = pointBody op front f g ∧ r = operation op front f g := by
  unfold pointwise? at h
  split at h
  · next hop =>
      obtain ⟨front, hfront, h⟩ := Option.bind_eq_some_iff.mp h
      obtain ⟨operands, hoperands, h⟩ := Option.bind_eq_some_iff.mp h
      obtain rfl := Option.some.inj h
      rw [mapM_eq_some_iff_map fun _ _ => unbind?_eq_some_iff] at hfront
      rw [mapM_eq_some_iff_map fun _ _ => dropArg?_eq_some_iff] at hoperands
      have htwo : operands.length = 2 := by
        rw [← List.length_map (f := atPoint), ← hoperands, List.length_drop,
          length_args]
        omega
      obtain ⟨f, g, rfl⟩ := List.length_eq_two.mp htwo
      refine ⟨front, f, g, ?_, rfl⟩
      rw [← mkApp_head_args body, hop.1,
        ← List.take_append_drop (body.numArgs - 2) body.args, hfront, hoperands]
      rfl
  · cases h

theorem pointwise?_pointBody (op : Name) (front : List Term) (f g : Term) :
    pointwise? op (pointBody op front f g) = some (operation op front f g) := by
  have hargs : (pointBody op front f g).args
      = front.map (raise 0 1) ++ [f, g].map atPoint :=
    args_operation op _ _ _
  have hnum : (pointBody op front f g).numArgs = front.length + 2 := by
    rw [← length_args, hargs]
    simp
  have htake : (pointBody op front f g).args.take front.length
      = front.map (raise 0 1) := by
    rw [hargs, List.take_left' (List.length_map _)]
  have hdrop : (pointBody op front f g).args.drop front.length
      = [f, g].map atPoint := by
    rw [hargs, List.drop_left' (List.length_map _)]
  unfold pointwise?
  rw [if_pos ⟨head_operation op _ _ _, by omega⟩, hnum, Nat.add_sub_cancel,
    htake, hdrop, (mapM_eq_some_iff_map fun _ _ => unbind?_eq_some_iff).mpr rfl,
    (mapM_eq_some_iff_map fun _ _ => dropArg?_eq_some_iff).mpr rfl]
  rfl

theorem convert?_pointwise_iff :
    convert? (.pointwise op) t = some r ↔ ∃ b k, IsPointwise op b k t r := by
  constructor
  · intro h
    cases t with
    | lam n info domain body =>
        obtain ⟨front, f, g, rfl, rfl⟩ := exists_pointBody h
        exact ⟨⟨n, info, domain⟩, _, front, f, g, rfl, rfl, rfl⟩
    | _ => cases h
  · rintro ⟨b, k, front, f, g, -, rfl, rfl⟩
    exact pointwise?_pointBody op front f g

/-- The other rules leave a constant or a literal. -/
theorem convert?_cases {rule : Conversion} (h : rule.convert? t = some r) :
    (∃ n, r = .const n) ∨ (∃ l, r = .lit l)
      ∨ ∃ op b k, IsPointwise op b k t r := by
  cases rule with
  | identity name =>
      cases t with
      | lam n info domain body =>
          cases body with
          | bvar k =>
              cases k with
              | zero =>
                  cases h
                  exact Or.inl ⟨name, rfl⟩
              | succ k => cases h
          | _ => cases h
      | _ => cases h
  | numeral name =>
      simp only [convert?] at h
      split at h
      · split at h <;> cases h
        exact Or.inr (Or.inl ⟨_, rfl⟩)
      · cases h
  | literal name value =>
      simp only [convert?] at h
      split at h <;> cases h
      exact Or.inr (Or.inl ⟨value, rfl⟩)
  | pointwise op => exact Or.inr (Or.inr ⟨op, convert?_pointwise_iff.mp h⟩)

/-! ## Undoing it -/

theorem IsPointwise.restore_eq (h : IsPointwise op b k t r) :
    restore b k r = t := by
  obtain ⟨front, f, g, rfl, rfl, rfl⟩ := h
  unfold restore
  rw [head_operation, args_operation, List.take_left, List.drop_left]
  rfl

/-- **The pointwise rule is reversible.** It applies exactly to the lambdas that
are an operation at the points of their binder. There is one result at most, and
the lambda is recovered from it, the number of its leading arguments, and the
binder. -/
theorem pointwise_reversible (op : Name) (t r : Term) :
    (convert? (.pointwise op) t = some r ↔ ∃ b k, IsPointwise op b k t r)
      ∧ (∀ b k b' k' r', IsPointwise op b k t r →
          IsPointwise op b' k' t r' → r' = r)
      ∧ (∀ b k, IsPointwise op b k t r → restore b k r = t) := by
  refine ⟨convert?_pointwise_iff, ?_, fun b k => IsPointwise.restore_eq⟩
  intro b k b' k' r' h h'
  have hr := convert?_pointwise_iff.mpr ⟨b, k, h⟩
  have hr' := convert?_pointwise_iff.mpr ⟨b', k', h'⟩
  exact Option.some.inj (hr'.symm.trans hr)

end TermIndex.Conversion
