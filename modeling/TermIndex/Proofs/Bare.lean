import TermIndex.Encoding.Conversion
import TermIndex.Proofs.Encodings
import TermIndex.Proofs.WeakHead

/-!
# Bare terms

Binder names, binder kinds and sort levels are kept to show a term, and nothing
else. `bare` makes them all the same, so that two terms differ in nothing else
if and only if their bare terms are equal.

Every operation on terms commutes with `bare`: what it does to a bare term is
the bare form of what it does to the term. So it does the same to two terms with
equal bare terms. This is stated here for what works on terms alone: spines,
loose variables, contractions, conversions and weak head normalization. The
signature is made bare along with the term (`reduce_bare`), since the values of
its definitions become parts of terms.
-/

namespace TermIndex

namespace Term

/-- The term without binder names, binder kinds and sort levels. -/
@[simp]
def bare : Term → Term
  | .sort _ => .sort 0
  | .app f a => .app f.bare a.bare
  | .lam _ _ domain body => .lam ⟨""⟩ .default domain.bare body.bare
  | .pi _ _ domain body => .pi ⟨""⟩ .default domain.bare body.bare
  | .letE _ type value body => .letE ⟨""⟩ type.bare value.bare body.bare
  | .proj s i value => .proj s i value.bare
  | t => t

variable {t : Term}

/-! ## Spines -/

@[simp]
theorem head_bare (t : Term) : t.bare.head = t.head.bare := by
  induction t with
  | app f a ihf _ => exact ihf
  | _ => rfl

@[simp]
theorem args_bare (t : Term) : t.bare.args = t.args.map bare := by
  induction t with
  | app f a ihf _ =>
      rw [bare, args, args, ihf, List.map_append, List.map_singleton]
  | _ => rfl

@[simp]
theorem numArgs_bare (t : Term) : t.bare.numArgs = t.numArgs := by
  rw [← length_args, args_bare, List.length_map, length_args]

theorem bare_mkApp (f : Term) (as : List Term) :
    (f.mkApp as).bare = f.bare.mkApp (as.map bare) := by
  induction as generalizing f with
  | nil => rfl
  | cons a as ih => exact ih (.app f a)

@[simp]
theorem bare_eq_const_iff {n : Name} : t.bare = .const n ↔ t = .const n := by
  cases t <;> simp

/-! ## Loose variables -/

@[simp]
theorem looseRange_bare (t : Term) : t.bare.looseRange = t.looseRange := by
  induction t with
  | _ => simp only [bare, looseRange, *]

@[simp]
theorem occurs_bare (i : Nat) (t : Term) :
    t.bare.occurs i = t.occurs i := by
  induction t generalizing i with
  | _ => simp only [bare, occurs, *]

theorem bare_mapLoose (f : Nat → Nat → Term) (depth : Nat) (t : Term) :
    (t.mapLoose f depth).bare
      = t.bare.mapLoose (fun i depth => (f i depth).bare) depth := by
  induction t generalizing depth with
  | _ =>
      unfold mapLoose
      rw [looseRange_bare, apply_ite bare]
      simp only [bare, *]

theorem bare_shift (c : Prop) [Decidable c] (i j : Nat) :
    (if c then bvar i else bvar j).bare = if c then .bvar i else .bvar j :=
  apply_ite bare ..

theorem bare_raise (start amount : Nat) (t : Term) :
    (t.raise start amount).bare = t.bare.raise start amount := by
  unfold raise
  rw [apply_ite bare, bare_mapLoose]
  simp only [bare_shift]

theorem bare_lower (start amount : Nat) (t : Term) :
    (t.lower start amount).bare = t.bare.lower start amount := by
  unfold lower
  rw [apply_ite bare, bare_mapLoose]
  simp only [bare_shift]

theorem bare_instantiate (body value : Term) :
    (body.instantiate value).bare = body.bare.instantiate value.bare := by
  unfold instantiate
  rw [bare_mapLoose]
  simp only [apply_ite bare, bare_raise, bare]

/-! ## Contractions -/

theorem headStep?_bare (t : Term) :
    t.bare.headStep? = t.headStep?.map bare := by
  induction t with
  | app f a ihf _ =>
      have hspine : (f.bare.headStep?).map (.app · a.bare)
          = ((f.headStep?).map (.app · a)).map bare := by
        rw [ihf, Option.map_map, Option.map_map]
        rfl
      cases f with
      | lam n info domain body =>
          simp only [bare, headStep?, Option.map_some, bare_instantiate]
      | _ => exact hspine
  | _ => rfl

theorem headBeta_bare (fuel : Nat) (t : Term) :
    t.bare.headBeta fuel = (t.headBeta fuel).map bare := by
  induction fuel generalizing t with
  | zero =>
      unfold headBeta
      rw [headStep?_bare]
      cases t.headStep? <;> rfl
  | succ fuel ih =>
      unfold headBeta
      rw [headStep?_bare]
      cases t.headStep? with
      | none => rfl
      | some t' => exact ih t'

theorem unbind?_bare (t : Term) : t.bare.unbind? = t.unbind?.map bare := by
  unfold unbind?
  rw [occurs_bare, apply_ite (Option.map bare), Option.map_some, bare_lower]
  rfl

theorem dropArg?_bare (t : Term) : t.bare.dropArg? = t.dropArg?.map bare := by
  cases t with
  | app f a =>
      cases a with
      | bvar i =>
          cases i with
          | zero => exact unbind?_bare f
          | succ i => rfl
      | _ => rfl
  | _ => rfl

theorem etaContract?_bare (t : Term) :
    t.bare.etaContract? = t.etaContract?.map bare := by
  induction t with
  | lam n info domain body _ ih =>
      rw [bare, etaContract?, etaContract?, ih, Option.getD_map, dropArg?_bare]
  | _ => rfl

end Term

/-! ## Reduction -/

def Reduct.bare : Reduct → Reduct
  | .term t => .term t.bare
  | .hidden => .hidden

def Step.bare : Step → Step
  | .next t => .next t.bare
  | .stop => .stop
  | .hidden => .hidden

namespace Signature

/-- The signature with the bare values of its definitions. -/
def bare (sig : Signature) : Signature :=
  { sig with definitions := sig.definitions.map fun d => (d.1, d.2.bare) }

variable {sig : Signature} {policy : Policy}
  {normal normal' : Term → Option Reduct}

theorem definition?_bare (sig : Signature) (n : Name) :
    sig.bare.definition? n = (sig.definition? n).map Term.bare := by
  suffices hlookup : ∀ ds : List (Name × Term),
      (ds.map fun d => (d.1, d.2.bare)).lookup n
        = (ds.lookup n).map Term.bare from hlookup sig.definitions
  intro ds
  induction ds with
  | nil => rfl
  | cons d ds ih =>
      rw [List.map_cons, List.lookup_cons, List.lookup_cons, ih]
      cases n == d.1 <;> rfl

theorem field?_bare (info : StructInfo) (i : Nat) (r : Reduct) :
    field? info i r.bare = (field? info i r).map Term.bare := by
  cases r with
  | hidden => rfl
  | term t =>
      simp only [Reduct.bare, field?, Term.head_bare, Term.bare_eq_const_iff,
        Term.args_bare, List.getElem?_map]
      split <;> rfl

theorem step_bare (hnormal : ∀ t, normal' t.bare = (normal t).map Reduct.bare)
    (policy : Policy) (fuel : Nat) (t : Term) :
    sig.bare.step policy fuel normal' t.bare
      = (sig.step policy fuel normal t).map Step.bare := by
  by_cases hlet : ∃ n type value body, t = .letE n type value body
  · obtain ⟨n, type, value, body, rfl⟩ := hlet
    rw [Term.bare, step_letE, step_letE, ← Term.bare_instantiate]
    cases policy.zeta <;> rfl
  have hlet' : ¬ ∃ n type value body, t.bare = .letE n type value body := by
    cases t <;> simp_all
  have hhead := t.head_bare
  cases ht : t.head with
  | lam n info domain body =>
      rw [ht, Term.bare] at hhead
      rw [step_of_lam ht, step_of_lam hhead, Term.numArgs_bare,
        Term.headBeta_bare, apply_ite (Option.map Step.bare), Option.map_map,
        Option.map_map]
      rfl
  | const n =>
      replace hhead : t.bare.head = .const n := by rw [hhead, ht]; rfl
      have hhides : sig.bare.hides n = sig.hides n := rfl
      rw [step_const ht, step_const hhead, definition?_bare, hhides]
      cases sig.hides n with
      | true => rfl
      | false =>
          cases policy.delta with
          | false => rfl
          | true =>
              cases sig.definition? n <;> simp [Step.bare, Term.bare_mkApp]
  | proj s i value =>
      rw [ht, Term.bare] at hhead
      have hinfo : sig.bare.struct? s = sig.struct? s := rfl
      rw [step_of_proj ht, step_of_proj hhead, hnormal, hinfo]
      cases policy.proj with
      | false => rfl
      | true =>
          cases sig.struct? s with
          | none => rfl
          | some info =>
              cases normal value with
              | none => rfl
              | some r =>
                  simp only [Option.elim_some, Option.map_some, field?_bare,
                    if_true]
                  cases field? info i r <;> simp [Step.bare, Term.bare_mkApp]
  | _ =>
      rw [step_of_inert hlet (by rw [ht]; rfl),
        step_of_inert hlet' (by rw [hhead, ht]; rfl)]
      rfl

theorem reduce_bare (sig : Signature) (policy : Policy) (fuel steps : Nat)
    (t : Term) :
    sig.bare.reduce policy fuel steps t.bare
      = (sig.reduce policy fuel steps t).map Reduct.bare := by
  induction fuel generalizing steps t with
  | zero => cases steps <;> rfl
  | succ fuel ih =>
      cases steps with
      | zero => rfl
      | succ steps =>
          simp only [reduce, step_bare (ih maxSteps)]
          cases sig.step policy fuel (sig.reduce policy fuel maxSteps) t with
          | none => rfl
          | some s =>
              cases s with
              | next t' => exact ih steps t'
              | stop | hidden => rfl

end Signature

/-! ## Conversions -/

namespace Conversion

theorem pointwise?_bare (op : Name) (t : Term) :
    pointwise? op t.bare = (pointwise? op t).map Term.bare := by
  unfold pointwise?
  simp only [Term.head_bare, Term.bare_eq_const_iff, Term.args_bare,
    Term.numArgs_bare, ← List.map_take, ← List.map_drop, List.mapM_map,
    Function.comp_def, Term.unbind?_bare, Term.dropArg?_bare, mapM_option_map]
  split
  · cases (t.args.take (t.numArgs - 2)).mapM Term.unbind? with
    | none => rfl
    | some front =>
        cases (t.args.drop (t.numArgs - 2)).mapM Term.dropArg? with
        | none => rfl
        | some operands => simp [Term.bare_mkApp]
  · rfl

theorem convert?_bare (rule : Conversion) (t : Term) :
    rule.convert? t.bare = (rule.convert? t).map Term.bare := by
  cases rule with
  | identity name =>
      cases t with
      | lam n info domain body =>
          cases body with
          | bvar i => cases i <;> rfl
          | _ => rfl
      | _ => rfl
  | numeral name =>
      simp only [convert?, Term.head_bare, Term.bare_eq_const_iff,
        Term.args_bare]
      split
      · -- Only the second argument is looked at, and how many there are.
        rcases t.args with _ | ⟨a, _ | ⟨b, as⟩⟩
        · rfl
        · rfl
        · cases b with
          | lit l =>
              cases l <;> rcases as with _ | ⟨c, _ | ⟨d, as⟩⟩ <;> rfl
          | _ => rfl
      · rfl
  | literal name value =>
      simp only [convert?, Term.bare_eq_const_iff]
      split <;> rfl
  | pointwise op =>
      cases t with
      | lam n info domain body => exact pointwise?_bare op body
      | _ => rfl

theorem convertFirst?_bare (rules : List Conversion) (t : Term) :
    convertFirst? rules t.bare = (convertFirst? rules t).map Term.bare := by
  simp only [convertFirst?, List.map_findSome?, convert?_bare]
  rfl

end Conversion

end TermIndex
