import Mathlib.Logic.Relation
import TermIndex.Proofs.Substitution
import TermIndex.Proofs.WeakHead

/-!
# Reduction is rewriting

The four rules of reduction as a relation between terms: `Rewrites` applies one
rule that the policy enables, anywhere in a term, and `Reduces` finitely many.
Weak head normalization is a strategy for these rules. What it comes to is
reached by them (`Reached`): a term, or a term with a hidden constant at its
head (`whnf_reached`).

One step at the head of a term (`Takes`) may apply several rules. A beta step
contracts redexes one after the other. A projection step first rewrites the
projected value to the constructor application that it reads.
-/

namespace TermIndex.Signature

/-- One rule that the policy enables is applied somewhere in a term. -/
inductive Rewrites (sig : Signature) (policy : Policy) : Term → Term → Prop
  | beta {n : Name} {info : BinderInfo} {domain body a : Term}
      (h : policy.beta = true) :
      Rewrites sig policy (.app (.lam n info domain body) a)
        (body.instantiate a)
  | zeta {n : Name} {type value body : Term} (h : policy.zeta = true) :
      Rewrites sig policy (.letE n type value body) (body.instantiate value)
  | delta {n : Name} {value : Term} (h : policy.delta = true)
      (hvalue : sig.definition? n = some value) :
      Rewrites sig policy (.const n) value
  | proj {s : Name} {i : Nat} {t field : Term} {info : StructInfo}
      (h : policy.proj = true) (hinfo : sig.struct? s = some info)
      (ht : t.head = .const info.constructor)
      (hfield : t.args[info.numParams + i]? = some field) :
      Rewrites sig policy (.proj s i t) field
  | appFn {f f' a : Term} (h : Rewrites sig policy f f') :
      Rewrites sig policy (.app f a) (.app f' a)
  | appArg {f a a' : Term} (h : Rewrites sig policy a a') :
      Rewrites sig policy (.app f a) (.app f a')
  | lamDomain {n : Name} {info : BinderInfo} {domain domain' body : Term}
      (h : Rewrites sig policy domain domain') :
      Rewrites sig policy (.lam n info domain body) (.lam n info domain' body)
  | lamBody {n : Name} {info : BinderInfo} {domain body body' : Term}
      (h : Rewrites sig policy body body') :
      Rewrites sig policy (.lam n info domain body) (.lam n info domain body')
  | piDomain {n : Name} {info : BinderInfo} {domain domain' body : Term}
      (h : Rewrites sig policy domain domain') :
      Rewrites sig policy (.pi n info domain body) (.pi n info domain' body)
  | piBody {n : Name} {info : BinderInfo} {domain body body' : Term}
      (h : Rewrites sig policy body body') :
      Rewrites sig policy (.pi n info domain body) (.pi n info domain body')
  | letType {n : Name} {type type' value body : Term}
      (h : Rewrites sig policy type type') :
      Rewrites sig policy (.letE n type value body) (.letE n type' value body)
  | letValue {n : Name} {type value value' body : Term}
      (h : Rewrites sig policy value value') :
      Rewrites sig policy (.letE n type value body) (.letE n type value' body)
  | letBody {n : Name} {type value body body' : Term}
      (h : Rewrites sig policy body body') :
      Rewrites sig policy (.letE n type value body) (.letE n type value body')
  | projValue {s : Name} {i : Nat} {t t' : Term}
      (h : Rewrites sig policy t t') :
      Rewrites sig policy (.proj s i t) (.proj s i t')

/-- Finitely many rules are applied, one after the other. -/
abbrev Reduces (sig : Signature) (policy : Policy) : Term → Term → Prop :=
  Relation.ReflTransGen (sig.Rewrites policy)

/-- What the rules make of a term. -/
inductive Reached (sig : Signature) (policy : Policy) (t : Term) :
    Reduct → Prop
  | term {u : Term} (h : sig.Reduces policy t u) :
      Reached sig policy t (.term u)
  | hidden {u : Term} {n : Name} (h : sig.Reduces policy t u)
      (hu : u.head = .const n) (hhides : sig.hides n = true) :
      Reached sig policy t .hidden

variable {sig : Signature} {policy : Policy} {fuel steps : Nat}
  {normal : Term → Option Reduct} {t t' u : Term} {r : Reduct}

/-! ## Reducing a part -/

theorem Rewrites.mkApp (h : sig.Rewrites policy t u) (as : List Term) :
    sig.Rewrites policy (t.mkApp as) (u.mkApp as) := by
  induction as generalizing t u with
  | nil => exact h
  | cons a as ih => exact ih (.appFn h)

theorem Reduces.mkApp (h : sig.Reduces policy t u) (as : List Term) :
    sig.Reduces policy (t.mkApp as) (u.mkApp as) :=
  h.lift (Term.mkApp · as) fun _ _ h => h.mkApp as

/-- What the head of a term is reduced to, the whole term is. -/
theorem reduces_of_head {head' : Term} (h : sig.Reduces policy t.head head') :
    sig.Reduces policy t (head'.mkApp t.args) := by
  have hspine := Reduces.mkApp h t.args
  rwa [Term.mkApp_head_args] at hspine

theorem Reduces.proj (h : sig.Reduces policy t u) (s : Name) (i : Nat) :
    sig.Reduces policy (.proj s i t) (.proj s i u) :=
  h.lift (Term.proj s i) fun _ _ h => .projValue h

theorem Reduces.reached (h : sig.Reduces policy t u)
    (hu : sig.Reached policy u r) : sig.Reached policy t r := by
  cases hu with
  | term hu => exact .term (h.trans hu)
  | hidden hu hhead hhides => exact .hidden (h.trans hu) hhead hhides

/-! ## Beta -/

theorem rewrites_headStep (hbeta : policy.beta = true)
    (h : t.headStep? = some u) : sig.Rewrites policy t u := by
  fun_induction Term.headStep? t generalizing u with
  | case1 n info domain body a =>
      cases h
      exact .beta hbeta
  | case2 f a hf ih =>
      obtain ⟨f', hf', rfl⟩ := Option.map_eq_some_iff.mp h
      exact .appFn (ih hf')
  | case3 => cases h

theorem reduces_headBeta (hbeta : policy.beta = true)
    (h : t.headBeta fuel = some u) : sig.Reduces policy t u := by
  induction fuel generalizing t with
  | zero =>
      unfold Term.headBeta at h
      split at h
      · cases h
        exact .refl
      · cases h
  | succ fuel ih =>
      unfold Term.headBeta at h
      split at h
      · cases h
        exact .refl
      · next t' hstep => exact .head (rewrites_headStep hbeta hstep) (ih h)

/-! ## Steps and reductions -/

/-- A step is reached by the rules, if what the values of projections are
reduced to is. -/
theorem Takes.reduces
    (hnormal : ∀ t r, normal t = some r → sig.Reached policy t r)
    (h : sig.Takes policy fuel normal t (.next t')) :
    sig.Reduces policy t t' := by
  cases h with
  | zeta h => exact .single (.zeta h)
  | beta h ht => exact reduces_headBeta h ht
  | delta h ht hvalue =>
      refine reduces_of_head (.single ?_)
      rw [ht]
      exact .delta h hvalue
  | @proj _ value field s i info r h ht hinfo hr hfield =>
      refine reduces_of_head ?_
      rw [ht]
      cases hnormal value r hr with
      | hidden _ _ _ => cases hfield
      | @term u hu =>
          rw [field?] at hfield
          split at hfield
          · next hhead =>
              exact (hu.proj s i).tail (.proj h hinfo hhead hfield)
          · cases hfield

theorem reduce_reached (h : sig.reduce policy fuel steps t = some r) :
    sig.Reached policy t r := by
  induction fuel generalizing steps t r with
  | zero =>
      cases steps with
      | zero =>
          cases h
          exact .term .refl
      | succ steps => cases h
  | succ fuel ih =>
      cases steps with
      | zero =>
          cases h
          exact .term .refl
      | succ steps =>
          obtain ⟨s, hs, h⟩ := Option.bind_eq_some_iff.mp h
          cases s with
          | next t' =>
              have htakes := takes_of_step hs (by nofun)
              exact (htakes.reduces fun t r => ih).reached (ih h)
          | stop =>
              cases h
              exact .term .refl
          | hidden =>
              cases h
              cases takes_of_step hs (by nofun) with
              | hidden ht hhides => exact .hidden .refl ht hhides

/-- **Soundness.** If weak head normalization ends, then finitely many rules
that the policy enables lead from the term to the result, or to a term headed
by a hidden constant if the result is that there is nothing to see. -/
theorem whnf_reached (h : sig.whnf fuel policy t = some r) :
    sig.Reached policy t r :=
  reduce_reached h

end TermIndex.Signature
