import Mathlib.Order.Basic
import TermIndex.Reduction.Whnf

/-!
# Reductions that stop

A reduction ends with a term in two ways: no step can be taken from it, or the
steps have run out. `Settles` is the first way. A term that a reduction settles
at is reduced to itself from then on (`Settles.reduce_result`), whatever the
number of steps.

Fuel that suffices for a reduction may be exceeded (`reduce_mono`).

What a step can do is said once: `Takes` has a case for each kind of step, and
`Stuck` is what remains where there is none.
-/

namespace TermIndex

variable {fuel fuel' : Nat} {t t' u : Term}

/-! ## More fuel -/

theorem Term.headBeta_mono (hle : fuel ≤ fuel')
    (h : t.headBeta fuel = some u) : t.headBeta fuel' = some u := by
  induction fuel generalizing fuel' t with
  | zero =>
      cases hstep : t.headStep? with
      | none =>
          unfold headBeta at h ⊢
          rw [hstep] at h ⊢
          exact h
      | some t' =>
          unfold headBeta at h
          rw [hstep] at h
          cases h
  | succ fuel ih =>
      obtain ⟨fuel', rfl⟩ := Nat.exists_eq_add_one_of_ne_zero
        (Nat.ne_zero_of_lt hle)
      unfold headBeta at h ⊢
      cases hstep : t.headStep? with
      | none =>
          rw [hstep] at h
          exact h
      | some t' =>
          rw [hstep] at h
          exact ih (Nat.le_of_succ_le_succ hle) h

namespace Signature

variable {sig : Signature} {policy : Policy} {steps : Nat}
  {normal normal' : Term → Option Reduct}

theorem step_mono (hle : fuel ≤ fuel')
    (hnormal : ∀ t r, normal t = some r → normal' t = some r) {s : Step}
    (h : sig.step policy fuel normal t = some s) :
    sig.step policy fuel' normal' t = some s := by
  unfold step at h ⊢
  split at h
  · exact h
  · cases hhead : t.head with
    | lam n info domain body =>
        rw [hhead] at h
        simp only at h ⊢
        split at h
        · next hbeta =>
            obtain ⟨t', ht', rfl⟩ := Option.map_eq_some_iff.mp h
            rw [if_pos hbeta, Term.headBeta_mono hle ht']
            rfl
        · next hbeta => rwa [if_neg hbeta]
    | proj s i value =>
        rw [hhead] at h
        simp only at h ⊢
        split at h
        · next hproj =>
            rw [if_pos hproj]
            cases hstruct : sig.struct? s with
            | none => rwa [hstruct] at h
            | some info =>
                rw [hstruct] at h
                obtain ⟨r, hr, h⟩ := Option.bind_eq_some_iff.mp h
                exact Option.bind_eq_some_iff.mpr ⟨r, hnormal value r hr, h⟩
        · next hproj => rwa [if_neg hproj]
    | _ =>
        rw [hhead] at h
        exact h

theorem reduce_zero (sig : Signature) (policy : Policy) (fuel : Nat)
    (t : Term) : sig.reduce policy fuel 0 t = some (.term t) := by
  cases fuel <;> rfl

/-- Fuel that suffices may be exceeded. -/
theorem reduce_mono (hle : fuel ≤ fuel') {r : Reduct}
    (h : sig.reduce policy fuel steps t = some r) :
    sig.reduce policy fuel' steps t = some r := by
  induction fuel generalizing fuel' steps t r with
  | zero =>
      cases steps with
      | zero => rwa [reduce_zero] at h ⊢
      | succ steps => cases h
  | succ fuel ih =>
      obtain ⟨fuel', rfl⟩ := Nat.exists_eq_add_one_of_ne_zero
        (Nat.ne_zero_of_lt hle)
      replace hle := Nat.le_of_succ_le_succ hle
      cases steps with
      | zero => rwa [reduce_zero] at h ⊢
      | succ steps =>
          obtain ⟨s, hs, h⟩ := Option.bind_eq_some_iff.mp h
          have hs' := step_mono hle (fun t r => ih hle) hs
          refine Option.bind_eq_some_iff.mpr ⟨s, hs', ?_⟩
          cases s with
          | next t' => exact ih hle h
          | stop | hidden => exact h

/-! ## Stopping -/

/-- The reduction of the first term stops at the second one, where no step can
be taken, before the steps run out. -/
inductive Settles (sig : Signature) (policy : Policy) :
    Nat → Nat → Term → Term → Prop
  | stop {fuel steps : Nat} {t : Term}
      (h : sig.step policy fuel (sig.reduce policy fuel maxSteps) t
        = some .stop) :
      Settles sig policy (fuel + 1) (steps + 1) t t
  | next {fuel steps : Nat} {t t' u : Term}
      (h : sig.step policy fuel (sig.reduce policy fuel maxSteps) t
        = some (.next t'))
      (hrest : Settles sig policy fuel steps t' u) :
      Settles sig policy (fuel + 1) (steps + 1) t u

theorem Settles.reduce (h : sig.Settles policy fuel steps t u) :
    sig.reduce policy fuel steps t = some (.term u) := by
  induction h with
  | stop h => exact Option.bind_eq_some_iff.mpr ⟨.stop, h, rfl⟩
  | @next fuel steps t t' u h _ ih =>
      exact Option.bind_eq_some_iff.mpr ⟨.next t', h, ih⟩

/-- No step can be taken where a reduction stops. -/
theorem Settles.step_result (h : sig.Settles policy fuel steps t u) :
    ∃ fuel' < fuel, sig.step policy fuel' (sig.reduce policy fuel' maxSteps) u
      = some .stop := by
  induction h with
  | @stop fuel steps t h => exact ⟨fuel, Nat.lt_succ_self fuel, h⟩
  | next _ _ ih =>
      obtain ⟨fuel', hlt, hstop⟩ := ih
      exact ⟨fuel', Nat.lt_succ_of_lt hlt, hstop⟩

theorem reduce_of_stop
    (h : sig.step policy fuel (sig.reduce policy fuel maxSteps) t = some .stop)
    (hlt : fuel < fuel') (steps : Nat) :
    sig.reduce policy fuel' steps t = some (.term t) := by
  refine reduce_mono hlt ?_
  cases steps with
  | zero => exact reduce_zero sig policy _ t
  | succ steps => exact Option.bind_eq_some_iff.mpr ⟨.stop, h, rfl⟩

/-- Where a reduction has stopped, it stays. -/
theorem Settles.reduce_result (h : sig.Settles policy fuel steps t u)
    (steps' : Nat) : sig.reduce policy fuel steps' u = some (.term u) := by
  obtain ⟨fuel', hlt, hstop⟩ := h.step_result
  exact reduce_of_stop hstop hlt steps'

/-! ## Heads -/

theorem step_lam (n : Name) (info : BinderInfo) (domain body : Term) :
    sig.step policy fuel normal (.lam n info domain body) = some .stop :=
  if_neg fun h => Nat.lt_irrefl 0 h.2

theorem step_letE (n : Name) (type value body : Term) :
    sig.step policy fuel normal (.letE n type value body)
      = some (if policy.zeta then .next (body.instantiate value)
        else .stop) := rfl

theorem step_const {n : Name} (ht : t.head = .const n) :
    sig.step policy fuel normal t
      = some (if sig.hides n then .hidden
        else if policy.delta then
          (sig.definition? n).elim .stop fun value => .next (value.mkApp t.args)
        else .stop) := by
  unfold step
  split
  · cases ht
  · simp only [ht]
    cases sig.hides n <;> cases policy.delta <;> cases sig.definition? n <;> rfl

theorem step_of_lam {n : Name} {info : BinderInfo} {domain body : Term}
    (ht : t.head = .lam n info domain body) :
    sig.step policy fuel normal t
      = if policy.beta ∧ 0 < t.numArgs then (t.headBeta fuel).map .next
        else some .stop := by
  unfold step
  split
  · cases ht
  · simp only [ht]

theorem step_of_proj {s : Name} {i : Nat} {value : Term}
    (ht : t.head = .proj s i value) :
    sig.step policy fuel normal t
      = if policy.proj then
          (sig.struct? s).elim (some .stop) fun info =>
            (normal value).map fun r =>
              (field? info i r).elim .stop fun field =>
                .next (field.mkApp t.args)
        else some .stop := by
  unfold step
  split
  · cases ht
  · simp only [ht]
    cases sig.struct? s with
    | none => rfl
    | some info =>
        cases normal value with
        | none => rfl
        | some r =>
            simp only [Option.elim_some, Option.map_some]
            cases hfield : field? info i r <;> simp [hfield]

/-- At such a head no step is taken, unless the whole term is a `let`. -/
def inert : Term → Bool
  | .lam .. | .const _ | .proj .. => false
  | _ => true

theorem step_of_inert
    (hlet : ¬ ∃ n type value body, t = .letE n type value body)
    (ht : inert t.head = true) :
    sig.step policy fuel normal t = some .stop := by
  unfold step
  split
  · exact absurd ⟨_, _, _, _, rfl⟩ hlet
  · split <;> simp_all [inert]

/-- Whether a constant unfolds does not depend on its arguments. -/
theorem step_stop_of_const {n : Name} (ht : t.head = .const n)
    (h : sig.step policy fuel normal t = some .stop) (hu : u.head = .const n)
    (fuel' : Nat) (normal' : Term → Option Reduct) :
    sig.step policy fuel' normal' u = some .stop := by
  rw [step_const ht] at h
  rw [step_const hu]
  cases hhides : sig.hides n with
  | true => simp [hhides] at h
  | false =>
      cases hdefinition : sig.definition? n with
      | none => simp
      | some value => simpa [hhides, hdefinition] using h

/-! ## What a step does -/

/-- What a step at the head of a term does, if it does not stop there. -/
inductive Takes (sig : Signature) (policy : Policy) (fuel : Nat)
    (normal : Term → Option Reduct) : Term → Step → Prop
  | zeta {n : Name} {type value body : Term} (h : policy.zeta = true) :
      Takes sig policy fuel normal (.letE n type value body)
        (.next (body.instantiate value))
  | beta {t t' : Term} (h : policy.beta = true)
      (ht : t.headBeta fuel = some t') :
      Takes sig policy fuel normal t (.next t')
  | delta {t value : Term} {n : Name} (h : policy.delta = true)
      (ht : t.head = .const n) (hvalue : sig.definition? n = some value) :
      Takes sig policy fuel normal t (.next (value.mkApp t.args))
  | proj {t value field : Term} {s : Name} {i : Nat} {info : StructInfo}
      {r : Reduct} (h : policy.proj = true) (ht : t.head = .proj s i value)
      (hinfo : sig.struct? s = some info) (hr : normal value = some r)
      (hfield : field? info i r = some field) :
      Takes sig policy fuel normal t (.next (field.mkApp t.args))
  | hidden {t : Term} {n : Name} (ht : t.head = .const n)
      (h : sig.hides n = true) : Takes sig policy fuel normal t .hidden

/-- No step can be taken at the head of a term. -/
structure Stuck (sig : Signature) (policy : Policy)
    (normal : Term → Option Reduct) (t : Term) : Prop where
  zeta : ∀ n type value body, t = .letE n type value body →
    policy.zeta = false
  beta : ∀ n info domain body, t.head = .lam n info domain body →
    policy.beta = true → t.numArgs = 0
  delta : ∀ n, t.head = .const n →
    sig.hides n = false ∧ (policy.delta = true → sig.definition? n = none)
  proj : ∀ s i value info, t.head = .proj s i value → policy.proj = true →
    sig.struct? s = some info →
    ∃ r, normal value = some r ∧ field? info i r = none

theorem takes_of_step {s : Step} (h : sig.step policy fuel normal t = some s)
    (hs : s ≠ .stop) : sig.Takes policy fuel normal t s := by
  have hnot : some Step.stop ≠ some s := fun h => hs (Option.some.inj h).symm
  by_cases hlet : ∃ n type value body, t = .letE n type value body
  · obtain ⟨n, type, value, body, rfl⟩ := hlet
    rw [step_letE] at h
    split at h
    · next hzeta =>
        cases h
        exact .zeta hzeta
    · exact absurd h hnot
  cases hhead : t.head with
  | lam n info domain body =>
      rw [step_of_lam hhead] at h
      split at h
      · next hbeta =>
          obtain ⟨t', ht', rfl⟩ := Option.map_eq_some_iff.mp h
          exact .beta hbeta.1 ht'
      · exact absurd h hnot
  | const n =>
      rw [step_const hhead] at h
      split at h
      · next hhides =>
          cases h
          exact .hidden hhead hhides
      split at h
      · next hdelta =>
          cases hvalue : sig.definition? n with
          | none =>
              rw [hvalue] at h
              exact absurd h hnot
          | some value =>
              rw [hvalue] at h
              cases h
              exact .delta hdelta hhead hvalue
      · exact absurd h hnot
  | proj s i value =>
      rw [step_of_proj hhead] at h
      split at h
      · next hproj =>
          cases hinfo : sig.struct? s with
          | none =>
              rw [hinfo] at h
              exact absurd h hnot
          | some info =>
              rw [hinfo] at h
              obtain ⟨r, hr, h⟩ := Option.map_eq_some_iff.mp h
              cases hfield : field? info i r with
              | none =>
                  rw [hfield] at h
                  exact absurd h.symm hs
              | some field =>
                  rw [hfield] at h
                  cases h
                  exact .proj hproj hhead hinfo hr hfield
      · exact absurd h hnot
  | _ =>
      rw [step_of_inert hlet (by rw [hhead]; rfl)] at h
      exact absurd h hnot

theorem stuck_of_stop (h : sig.step policy fuel normal t = some .stop) :
    sig.Stuck policy normal t where
  zeta n type value body ht := by
    subst ht
    rw [step_letE] at h
    cases hzeta : policy.zeta with
    | false => rfl
    | true => simp [hzeta] at h
  beta n info domain body ht hbeta := by
    refine Nat.eq_zero_of_not_pos fun hargs => ?_
    rw [step_of_lam ht, if_pos ⟨hbeta, hargs⟩] at h
    obtain ⟨t', -, ht'⟩ := Option.map_eq_some_iff.mp h
    cases ht'
  delta n ht := by
    rw [step_const ht] at h
    cases hhides : sig.hides n with
    | true => simp [hhides] at h
    | false =>
        refine ⟨rfl, fun hdelta => ?_⟩
        cases hvalue : sig.definition? n with
        | none => rfl
        | some value => simp [hhides, hdelta, hvalue] at h
  proj s i value info ht hproj hinfo := by
    rw [step_of_proj ht, if_pos hproj, hinfo] at h
    obtain ⟨r, hr, h⟩ := Option.map_eq_some_iff.mp h
    refine ⟨r, hr, ?_⟩
    cases hfield : field? info i r with
    | none => rfl
    | some field => simp [hfield] at h

end Signature

end TermIndex
