import TermIndex.Proofs.Pointwise
import TermIndex.Proofs.Rewriting

/-!
# No variable is freed

A loose variable of a result that was not loose before would be caught by
whatever binder happens to be around. None of the operations that terms go
through before they are encoded makes one: `u.LooseIn t` says that every loose
variable of `u` is loose in `t`, and then the range of `u` is at most that of
`t`.

For weak head normalization this is shown of the rules that it applies. One
rewrite keeps to the loose variables wherever in the term it happens
(`Rewrites.looseIn`), if the values of definitions have none, and so do finitely
many (`Reduces.looseIn`). Conversions and eta contraction take a binder away,
and what they keep has been raised past it.
-/

namespace TermIndex

namespace Term

/-- Every loose variable of the first term is loose in the second. -/
def LooseIn (u t : Term) : Prop := ∀ i, u.occurs i → t.occurs i

variable {t u v : Term}

theorem LooseIn.refl (t : Term) : t.LooseIn t := fun _ hi => hi

theorem LooseIn.trans (h : u.LooseIn t) (h' : v.LooseIn u) : v.LooseIn t :=
  fun i hi => h i (h' i hi)

theorem LooseIn.looseRange_le (h : u.LooseIn t) :
    u.looseRange ≤ t.looseRange := by
  refine looseRange_le_iff.mpr fun i hi => ?_
  exact looseRange_le_iff.mp (Nat.le_refl t.looseRange) i (h i hi)

theorem looseIn_of_closed (h : u.looseRange = 0) (t : Term) : u.LooseIn t := by
  intro i hi
  exact absurd (looseRange_le_iff.mp (Nat.le_of_eq h) i hi) (Nat.not_lt_zero i)

/-! ## Formers -/

section Formers

variable {f f' a a' domain domain' body body' type type' value value' : Term}

theorem LooseIn.app (hf : f'.LooseIn f) (ha : a'.LooseIn a) :
    (Term.app f' a').LooseIn (.app f a) := by
  intro i
  simp only [occurs, Bool.or_eq_true]
  exact Or.imp (hf i) (ha i)

theorem LooseIn.lam (n : Name) (info : BinderInfo)
    (hdomain : domain'.LooseIn domain) (hbody : body'.LooseIn body) :
    (Term.lam n info domain' body').LooseIn (.lam n info domain body) := by
  intro i
  simp only [occurs, Bool.or_eq_true]
  exact Or.imp (hdomain i) (hbody (i + 1))

theorem LooseIn.pi (n : Name) (info : BinderInfo)
    (hdomain : domain'.LooseIn domain) (hbody : body'.LooseIn body) :
    (Term.pi n info domain' body').LooseIn (.pi n info domain body) := by
  intro i
  simp only [occurs, Bool.or_eq_true]
  exact Or.imp (hdomain i) (hbody (i + 1))

theorem LooseIn.letE (n : Name) (htype : type'.LooseIn type)
    (hvalue : value'.LooseIn value) (hbody : body'.LooseIn body) :
    (Term.letE n type' value' body').LooseIn (.letE n type value body) := by
  intro i
  simp only [occurs, Bool.or_eq_true]
  exact Or.imp (Or.imp (htype i) (hvalue i)) (hbody (i + 1))

theorem LooseIn.proj (s : Name) (k : Nat) (hvalue : value'.LooseIn value) :
    (Term.proj s k value').LooseIn (.proj s k value) := hvalue

end Formers

/-! ## Spines -/

theorem occurs_mkApp (f : Term) (as : List Term) (i : Nat) :
    (f.mkApp as).occurs i ↔ f.occurs i ∨ ∃ a ∈ as, a.occurs i := by
  induction as generalizing f with
  | nil => simp [mkApp]
  | cons a as ih =>
      rw [show f.mkApp (a :: as) = (f.app a).mkApp as from rfl, ih]
      simp only [occurs, Bool.or_eq_true, List.mem_cons, exists_eq_or_imp,
        or_assoc]

theorem looseIn_of_mem_args {a : Term} (ha : a ∈ t.args) : a.LooseIn t := by
  intro i hi
  rw [← mkApp_head_args t, occurs_mkApp]
  exact Or.inr ⟨a, ha, hi⟩

/-! ## Contracting -/

theorem looseIn_beta (n : Name) (info : BinderInfo) (domain body a : Term) :
    (body.instantiate a).LooseIn (.app (.lam n info domain body) a) := by
  intro i hi
  simp only [occurs, Bool.or_eq_true]
  rcases occurs_instantiate.mp hi with hbody | ⟨-, ha⟩
  · exact Or.inl (Or.inr hbody)
  · exact Or.inr ha

theorem looseIn_zeta (n : Name) (type value body : Term) :
    (body.instantiate value).LooseIn (.letE n type value body) := by
  intro i hi
  simp only [occurs, Bool.or_eq_true]
  rcases occurs_instantiate.mp hi with hbody | ⟨-, hvalue⟩
  · exact Or.inr hbody
  · exact Or.inl (Or.inr hvalue)

/-- Under the binder, what has been taken out of it is one index further. -/
theorem looseIn_bind {body : Term}
    (h : ∀ i, u.occurs i → body.occurs (i + 1)) (b : LamBinder) :
    u.LooseIn (b.bind body) := by
  intro i hi
  simp only [LamBinder.bind, occurs, Bool.or_eq_true]
  exact Or.inr (h i hi)

theorem occurs_atPoint {f : Term} {i : Nat} (h : f.occurs i) :
    f.atPoint.occurs (i + 1) := by
  simp only [atPoint, occurs, Bool.or_eq_true]
  exact Or.inl (occurs_raise_succ.mpr h)

theorem etaContract?_looseIn (h : t.etaContract? = some u) : u.LooseIn t := by
  induction t generalizing u with
  | lam n info domain body _ ih =>
      have hbody : (body.etaContract?.getD body).LooseIn body := by
        cases hinner : body.etaContract? with
        | none => exact .refl body
        | some body' => exact ih hinner
      rw [dropArg?_eq_some_iff.mp h] at hbody
      exact looseIn_bind (fun i hi => hbody _ (occurs_atPoint hi))
        ⟨n, info, domain⟩
  | _ => cases h

end Term

open Term

/-! ## Conversions -/

namespace Conversion

variable {t u : Term}

theorem IsPointwise.looseIn {op : Name} {b : LamBinder} {k : Nat}
    (h : IsPointwise op b k t u) : u.LooseIn t := by
  obtain ⟨front, f, g, -, rfl, rfl⟩ := h
  refine looseIn_bind (fun i hi => ?_) b
  unfold pointBody operation at *
  rw [occurs_mkApp] at hi ⊢
  rcases hi with hop | ⟨a, ha, hi⟩
  · cases hop
  right
  rcases List.mem_append.mp ha with hfront | hoperand
  · refine ⟨a.raise 0 1, List.mem_append_left _ ?_, occurs_raise_succ.mpr hi⟩
    exact List.mem_map_of_mem hfront
  · refine ⟨a.atPoint, List.mem_append_right _ ?_, occurs_atPoint hi⟩
    exact List.mem_map_of_mem (f := atPoint) hoperand

theorem convert?_looseIn {rule : Conversion} (h : rule.convert? t = some u) :
    u.LooseIn t := by
  rcases convert?_cases h with ⟨n, rfl⟩ | ⟨l, rfl⟩ | ⟨op, b, k, hpoint⟩
  · exact looseIn_of_closed rfl t
  · exact looseIn_of_closed rfl t
  · exact hpoint.looseIn

theorem convertFirst?_looseIn {rules : List Conversion}
    (h : convertFirst? rules t = some u) : u.LooseIn t := by
  obtain ⟨rule, -, hrule⟩ := List.exists_of_findSome?_eq_some h
  exact convert?_looseIn hrule

end Conversion

/-! ## Reductions -/

namespace Signature

/-- The values of definitions have no loose variables. -/
def Closed (sig : Signature) : Prop :=
  ∀ n value, sig.definition? n = some value → value.looseRange = 0

variable {sig : Signature} {policy : Policy} {fuel : Nat} {t u : Term}

theorem closed_empty : Signature.empty.Closed := by
  intro n value h
  cases h

theorem Closed.define (hsig : sig.Closed) {value : Term}
    (hvalue : value.looseRange = 0) (n : Name) :
    (sig.define n value).Closed := by
  intro n' value' h
  unfold definition? Signature.define at h
  rw [List.lookup_cons] at h
  split at h
  · cases h
    exact hvalue
  · exact hsig n' value' h

theorem Rewrites.looseIn (hsig : sig.Closed) (h : sig.Rewrites policy t u) :
    u.LooseIn t := by
  induction h with
  | beta _ => exact looseIn_beta _ _ _ _ _
  | zeta _ => exact looseIn_zeta _ _ _ _
  | delta _ hvalue => exact looseIn_of_closed (hsig _ _ hvalue) _
  | @proj _ _ value field _ _ _ _ hfield =>
      show field.LooseIn value
      exact looseIn_of_mem_args (List.mem_of_getElem? hfield)
  | appFn _ ih => exact ih.app (.refl _)
  | appArg _ ih => exact (LooseIn.refl _).app ih
  | lamDomain _ ih => exact ih.lam _ _ (.refl _)
  | lamBody _ ih => exact (LooseIn.refl _).lam _ _ ih
  | piDomain _ ih => exact ih.pi _ _ (.refl _)
  | piBody _ ih => exact (LooseIn.refl _).pi _ _ ih
  | letType _ ih => exact ih.letE _ (.refl _) (.refl _)
  | letValue _ ih => exact (LooseIn.refl _).letE _ ih (.refl _)
  | letBody _ ih => exact (LooseIn.refl _).letE _ (.refl _) ih
  | projValue _ ih => exact ih.proj _ _

theorem Reduces.looseIn (hsig : sig.Closed) (h : sig.Reduces policy t u) :
    u.LooseIn t := by
  induction h with
  | refl => exact .refl t
  | tail _ hstep ih => exact ih.trans (hstep.looseIn hsig)

theorem whnf_looseIn (hsig : sig.Closed)
    (h : sig.whnf fuel policy t = some (.term u)) : u.LooseIn t := by
  cases reduce_reached h with
  | term h => exact h.looseIn hsig

/-- **No variable is freed.** If the values of definitions have no loose
variables, weak head normalization never raises the range of the loose variables.
Conversions and eta contraction never do. -/
theorem no_variable_freed (hsig : sig.Closed) (policy : Policy) :
    (∀ fuel (t u : Term), sig.whnf fuel policy t = some (.term u) →
        u.looseRange ≤ t.looseRange)
      ∧ (∀ rules (t u : Term), Conversion.convertFirst? rules t = some u →
        u.looseRange ≤ t.looseRange)
      ∧ (∀ t u : Term, t.etaContract? = some u →
        u.looseRange ≤ t.looseRange) := by
  refine ⟨?_, ?_, ?_⟩
  · intro fuel t u h
    exact (whnf_looseIn hsig h).looseRange_le
  · intro rules t u h
    exact (Conversion.convertFirst?_looseIn h).looseRange_le
  · intro t u h
    exact (etaContract?_looseIn h).looseRange_le

/-- With `twice := fun f x => f (f x)`, the second field of
`mk #3 (twice #2 #0)` reduces to `#2 (#2 #0)`, the sum `fun x => #3 x + g x`
becomes `#2 + g`, and `fun x y => #4 x y` contracts to `#2`. -/
theorem no_variable_freed_outer :
    ∃ (sig : Signature) (t u s s' e c : Term),
      sig = (Signature.empty.define ⟨"twice"⟩
        (.lam ⟨"f"⟩ .default (.sort 1) (.lam ⟨"x"⟩ .default (.sort 1)
          (.app (.bvar 1) (.app (.bvar 1) (.bvar 0)))))
        |>.declareStruct ⟨"Pair"⟩ ⟨⟨"mk"⟩, 0⟩)
      ∧ t = .proj ⟨"Pair"⟩ 1 (.app (.app (.const ⟨"mk"⟩) (.bvar 3))
        (.app (.app (.const ⟨"twice"⟩) (.bvar 2)) (.bvar 0)))
      ∧ u = .app (.bvar 2) (.app (.bvar 2) (.bvar 0))
      ∧ s = .lam ⟨"x"⟩ .default (.sort 1) (.app (.app (.const ⟨"HAdd.hAdd"⟩)
        (.app (.bvar 3) (.bvar 0))) (.app (.const ⟨"g"⟩) (.bvar 0)))
      ∧ s' = .app (.app (.const ⟨"HAdd.hAdd"⟩) (.bvar 2)) (.const ⟨"g"⟩)
      ∧ e = .lam ⟨"x"⟩ .default (.sort 1) (.lam ⟨"y"⟩ .default (.sort 1)
        (.app (.app (.bvar 4) (.bvar 1)) (.bvar 0)))
      ∧ c = .bvar 2 ∧ sig.Closed
      ∧ sig.whnf 9 .all t = some (.term u) ∧ u.looseRange ≤ t.looseRange
      ∧ Conversion.convertFirst? Conversion.standard s = some s'
      ∧ s'.looseRange ≤ s.looseRange
      ∧ e.etaContract? = some c ∧ c.looseRange ≤ e.looseRange := by
  have hsig : (Signature.empty.define ⟨"twice"⟩
      (.lam ⟨"f"⟩ .default (.sort 1) (.lam ⟨"x"⟩ .default (.sort 1)
        (.app (.bvar 1) (.app (.bvar 1) (.bvar 0)))))
      |>.declareStruct ⟨"Pair"⟩ ⟨⟨"mk"⟩, 0⟩).Closed :=
    Closed.define closed_empty rfl _
  obtain ⟨hwhnf, hconvert, heta⟩ := no_variable_freed hsig .all
  exact ⟨_, _, _, _, _, _, _, rfl, rfl, rfl, rfl, rfl, rfl, rfl, hsig, rfl,
    hwhnf 9 _ _ rfl, rfl, hconvert Conversion.standard _ _ rfl, rfl,
    heta _ _ rfl⟩

end Signature

end TermIndex
