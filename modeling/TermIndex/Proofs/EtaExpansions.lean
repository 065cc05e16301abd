import TermIndex.Proofs.Shifting

/-!
# Eta expansions

To expand a term by some binders is to raise it past them and to apply it to
their variables, the outermost first: `fun x₁ … xₙ => c x₁ … xₙ` is an expansion
of `c`. Contraction is the inverse of expansion by any number of binders except
none (`etaContract?_eq_some_iff`).

It takes a single binder away at each lambda, and it goes to the inner lambda
first. An expansion is built the same way: expanding by a binder in front of
others expands `c x`, with `x` the variable of the first binder, by the others
(`etaExpand_cons`). So what is contracted further inside is again an application
to the closest variable, or else nothing is contracted.
-/

namespace TermIndex.Term

/-! ## Taking a binder away -/

theorem unbind?_eq_some_iff {t u : Term} :
    t.unbind? = some u ↔ t = u.raise 0 1 := by
  unfold unbind?
  constructor
  · intro h
    split at h
    · cases h
    · next hunused =>
        obtain rfl := Option.some.inj h
        refine (raise_lower fun i _ hi => ?_).symm
        rwa [Nat.lt_one_iff.mp hi]
  · rintro rfl
    rw [if_neg (not_occurs_raise u)]
    exact congrArg some (lower_raise 0 1 u)

/-- A function moved into a binder and applied to its variable. -/
def atPoint (f : Term) : Term := .app (f.raise 0 1) (.bvar 0)

theorem dropArg?_eq_some_iff {t f : Term} :
    t.dropArg? = some f ↔ t = f.atPoint := by
  constructor
  · intro h
    unfold dropArg? at h
    split at h
    · rw [unbind?_eq_some_iff.mp h]
      rfl
    · cases h
  · rintro rfl
    exact unbind?_eq_some_iff.mpr rfl

/-! ## Expanding -/

/-- What a lambda says of its variable. -/
structure LamBinder where
  name : Name
  info : BinderInfo
  domain : Term

def LamBinder.bind (b : LamBinder) (body : Term) : Term :=
  .lam b.name b.info b.domain body

/-- Lambdas around a body, the outermost first. -/
def lams (bs : List LamBinder) (body : Term) : Term := bs.foldr LamBinder.bind body

/-- The variables of the closest binders, as many as given, the outermost
first. -/
def closest : Nat → List Term
  | 0 => []
  | n + 1 => .bvar n :: closest n

def etaExpand (bs : List LamBinder) (c : Term) : Term :=
  lams bs ((c.raise 0 bs.length).mkApp (closest bs.length))

theorem etaExpand_nil (c : Term) : etaExpand [] c = c := rfl

theorem etaExpand_cons (b : LamBinder) (bs : List LamBinder) (c : Term) :
    etaExpand (b :: bs) c = b.bind (etaExpand bs c.atPoint) := by
  have hfirst : c.atPoint.raise 0 bs.length
      = .app (c.raise 0 (bs.length + 1)) (.bvar bs.length) := by
    rw [Nat.add_comm bs.length, ← raise_raise]
    simp only [atPoint, raise_zero_eq, rename, Nat.zero_add]
  unfold etaExpand
  rw [hfirst]
  rfl

/-! ## Contracting -/

theorem exists_etaExpand {t c : Term} (h : t.etaContract? = some c) :
    ∃ bs, bs ≠ [] ∧ t = etaExpand bs c := by
  induction t generalizing c with
  | lam n info domain body _ ih =>
      have hbody := dropArg?_eq_some_iff.mp h
      cases hinner : body.etaContract? with
      | none =>
          rw [hinner, Option.getD_none] at hbody
          refine ⟨[⟨n, info, domain⟩], List.cons_ne_nil _ _, ?_⟩
          rw [etaExpand_cons, etaExpand_nil, ← hbody]
          rfl
      | some body' =>
          rw [hinner, Option.getD_some] at hbody
          obtain ⟨bs, -, hbs⟩ := ih hinner
          refine ⟨⟨n, info, domain⟩ :: bs, List.cons_ne_nil _ _, ?_⟩
          rw [etaExpand_cons, ← hbody, ← hbs]
          rfl
  | _ => cases h

theorem etaContract?_etaExpand {bs : List LamBinder} (hbs : bs ≠ [])
    (c : Term) : (etaExpand bs c).etaContract? = some c := by
  induction bs generalizing c with
  | nil => exact absurd rfl hbs
  | cons b bs ih =>
      have hinner : ∀ c' : Term, c'.etaContract? = none →
          (etaExpand bs c').etaContract?.getD (etaExpand bs c') = c' := by
        intro c' hc'
        cases bs with
        | nil => rw [etaExpand_nil, hc', Option.getD_none]
        | cons b' bs => rw [ih (List.cons_ne_nil _ _), Option.getD_some]
      rw [etaExpand_cons, LamBinder.bind, etaContract?, hinner _ rfl]
      exact dropArg?_eq_some_iff.mpr rfl

theorem etaContract?_eq_some_iff {t c : Term} :
    t.etaContract? = some c ↔ ∃ bs, bs ≠ [] ∧ t = etaExpand bs c := by
  constructor
  · exact exists_etaExpand
  · rintro ⟨bs, hbs, rfl⟩
    exact etaContract?_etaExpand hbs c

/-! ## The shape of an expansion -/

/-- The first term consists of leading lambdas, one at least, around a body that
is no lambda and that applies the second term, raised past the lambdas, to their
variables. -/
def IsEtaExpansion (t c : Term) : Prop :=
  ∃ (bs : List LamBinder) (body : Term), 1 ≤ bs.length ∧ t = lams bs body
    ∧ (∀ b inner, body ≠ LamBinder.bind b inner)
    ∧ body = (c.raise 0 bs.length).mkApp (closest bs.length)

theorem mkApp_ne_bind {as : List Term} (has : as ≠ []) (f : Term)
    (b : LamBinder) (inner : Term) : f.mkApp as ≠ b.bind inner := by
  intro h
  have hargs : f.args ++ as = [] := by
    rw [← args_mkApp, h]
    rfl
  exact has (List.append_eq_nil_iff.mp hargs).2

theorem isEtaExpansion_iff {t c : Term} :
    t.IsEtaExpansion c ↔ ∃ bs, bs ≠ [] ∧ t = etaExpand bs c := by
  constructor
  · rintro ⟨bs, body, hbs, rfl, -, rfl⟩
    exact ⟨bs, List.ne_nil_of_length_pos hbs, rfl⟩
  · rintro ⟨bs, hbs, rfl⟩
    refine ⟨bs, _, List.length_pos_iff.mpr hbs, rfl, ?_, rfl⟩
    refine mkApp_ne_bind ?_ _
    cases bs with
    | nil => exact absurd rfl hbs
    | cons b bs => exact List.cons_ne_nil _ _

/-- **Contraction inverts expansion.** A term is contracted to the term that it
is an eta expansion of, and it is not contracted if there is none. -/
theorem etaContract?_inverts (t : Term) :
    (∀ c, t.etaContract? = some c ↔ t.IsEtaExpansion c)
      ∧ (t.etaContract? = none ↔ ∀ c, ¬ t.IsEtaExpansion c) := by
  have hsome : ∀ c, t.etaContract? = some c ↔ t.IsEtaExpansion c := by
    intro c
    rw [etaContract?_eq_some_iff, isEtaExpansion_iff]
  refine ⟨hsome, ?_⟩
  simp only [Option.eq_none_iff_forall_ne_some, ne_eq, hsome]

/-- The outer variable of `fun x (y : h x) => f #3 x y` comes two binders closer;
the domain may use `x`, as it is dropped. -/
example :
    (Term.lam ⟨"x"⟩ .default (.sort 1)
      (.lam ⟨"y"⟩ .implicit (.app (.const ⟨"h"⟩) (.bvar 0))
        (.app (.app (.app (.const ⟨"f"⟩) (.bvar 3)) (.bvar 1))
          (.bvar 0)))).etaContract?
      = some (.app (.const ⟨"f"⟩) (.bvar 1)) := by
  decide

end TermIndex.Term
