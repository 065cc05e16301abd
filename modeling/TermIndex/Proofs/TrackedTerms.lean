import TermIndex.Proofs.PlainTraversal
import TermIndex.Proofs.Tracking
import TermIndex.Words.Loose

/-!
# Terms and words

The operations on loose variables track those on numbers. An overflow has two
sources: a variable with the largest index, and more binders inside each other
than an index can count. A term `FitsWords` if it has neither. On such a term no
number overflows where binders are taken away, and what is left fits again.

No condition is given under which a term that grows stays within its words. So
the lemmas on raising, instantiation and beta contraction say what they say of
any term (`False`).
-/

namespace TermIndex.Term

variable {p : Prop} {t u : Term} {depth : Nat}

/-! ## Terms that fit -/

/-- No variable has the largest index, and with so many binders around the term,
each one inside is counted by a word. -/
def FitsAt (depth : Nat) : Term → Prop
  | .bvar i => i + 1 < Word.indices
  | .app f a => f.FitsAt depth ∧ a.FitsAt depth
  | .lam _ _ d b =>
    d.FitsAt depth ∧ depth + 1 < Word.indices ∧ b.FitsAt (depth + 1)
  | .pi _ _ d b =>
    d.FitsAt depth ∧ depth + 1 < Word.indices ∧ b.FitsAt (depth + 1)
  | .letE _ t v b =>
    t.FitsAt depth ∧ v.FitsAt depth ∧ depth + 1 < Word.indices
      ∧ b.FitsAt (depth + 1)
  | .proj _ _ e => e.FitsAt depth
  | .fvar _ | .mvar _ | .sort _ | .const _ | .lit _ => True

/-- The term fits its words inside one binder, which may be taken away. -/
def FitsWords (t : Term) : Prop := t.FitsAt 1

theorem FitsAt.mono {n : Nat} (h : t.FitsAt depth) (hle : n ≤ depth) :
    t.FitsAt n := by
  induction t generalizing n depth with
  | bvar i => exact h
  | app f a ihf iha => exact ⟨ihf h.1 hle, iha h.2 hle⟩
  | lam _ _ domain body ihd ihb | pi _ _ domain body ihd ihb =>
      obtain ⟨hdomain, hlt, hbody⟩ := h
      have hle' := Nat.succ_le_succ hle
      exact ⟨ihd hdomain hle, hle'.trans_lt hlt, ihb hbody hle'⟩
  | letE _ type value body iht ihv ihb =>
      obtain ⟨htype, hvalue, hlt, hbody⟩ := h
      have hle' := Nat.succ_le_succ hle
      exact ⟨iht htype hle, ihv hvalue hle, hle'.trans_lt hlt, ihb hbody hle'⟩
  | proj _ _ value ih => exact ih h hle
  | _ => trivial

theorem FitsAt.mapBound_lowered (h : t.FitsAt depth) (start amount n : Nat) :
    (t.mapBound (lowered start amount) n).FitsAt depth := by
  induction t generalizing depth n with
  | bvar i =>
      rw [mapBound, lowered]
      split
      · exact (Nat.add_le_add_right (Nat.sub_le i amount) 1).trans_lt h
      · exact h
  | app f a ihf iha => exact ⟨ihf h.1 n, iha h.2 n⟩
  | lam _ _ domain body ihd ihb | pi _ _ domain body ihd ihb =>
      exact ⟨ihd h.1 n, h.2.1, ihb h.2.2 (n + 1)⟩
  | letE _ type value body iht ihv ihb =>
      exact ⟨iht h.1 n, ihv h.2.1 n, h.2.2.1, ihb h.2.2.2 (n + 1)⟩
  | proj _ _ value ih => exact ih h n
  | _ => trivial

namespace FitsWords

theorem body {n : Name} {info : BinderInfo} {domain body : Term}
    (h : (lam n info domain body).FitsWords) : body.FitsWords :=
  FitsAt.mono h.2.2 (Nat.le_succ 1)

theorem args (h : t.FitsWords) : ∀ a ∈ t.args, a.FitsWords :=
  (of_spine (fun _ _ h => h) h).2

theorem unbind (h : t.FitsWords) (hu : t.unbind? = some u) : u.FitsWords := by
  unfold unbind? at hu
  split at hu
  · cases hu
  · obtain rfl := Option.some.inj hu
    rw [lower_eq_mapBound]
    exact h.mapBound_lowered 1 1 0

theorem dropArg (h : t.FitsWords) (hu : t.dropArg? = some u) :
    u.FitsWords := by
  unfold dropArg? at hu
  split at hu
  · exact unbind h.1 hu
  · cases hu

theorem etaContract (h : t.FitsWords) (hu : t.etaContract? = some u) :
    u.FitsWords := by
  induction t generalizing u with
  | lam _ _ domain body _ ih =>
      refine dropArg ?_ hu
      cases hinner : body.etaContract? with
      | none => exact h.body
      | some body' => exact ih h.body hinner
  | _ => cases hu

theorem etaContract_getD (h : t.FitsWords) :
    (t.etaContract?.getD t).FitsWords := by
  cases ht : t.etaContract? with
  | none => exact h
  | some u => exact h.etaContract ht

end FitsWords

/-! ## Loose variables -/

theorem tracks_looseRange (h : p → t.FitsAt depth) :
    Tracks p (fun o => t.looseRangeIn o) t.looseRange := by
  induction t generalizing depth with
  | bvar i => exact tracks_add h
  | app f a ihf iha =>
      have hf := ihf fun hp => (h hp).1
      have ha := iha fun hp => (h hp).2
      exact hf.bind (ha.bind (tracks_ok _))
  | lam _ _ domain body ihd ihb | pi _ _ domain body ihd ihb =>
      have hdomain := ihd fun hp => (h hp).1
      have hbody := ihb fun hp => (h hp).2.2
      exact hdomain.bind (hbody.bind (tracks_ok _))
  | letE _ type value body iht ihv ihb =>
      have htype := iht fun hp => (h hp).1
      have hvalue := ihv fun hp => (h hp).2.1
      have hbody := ihb fun hp => (h hp).2.2.2
      exact htype.bind (hvalue.bind (hbody.bind (tracks_ok _)))
  | proj _ _ value ih => exact ih h
  | _ => exact tracks_ok 0

theorem tracks_occurs {i : Nat} (h : p → t.FitsAt i) :
    Tracks p (fun o => t.occursIn o i) (t.occurs i) := by
  have hor : ∀ {r s : Overflow → Except Fault Bool} {b c : Bool},
      Tracks p r b → Tracks p s c →
      Tracks p (fun o => do if ← r o then return true else s o) (b || c) := by
    intro r s b c hr hs
    refine hr.bind ?_
    cases b with
    | true => exact tracks_ok true
    | false => exact hs
  induction t generalizing i with
  | bvar j => exact tracks_ok _
  | app f a ihf iha =>
      exact hor (ihf fun hp => (h hp).1) (iha fun hp => (h hp).2)
  | lam _ _ domain body ihd ihb | pi _ _ domain body ihd ihb =>
      have hbody := ihb fun hp => (h hp).2.2
      exact hor (ihd fun hp => (h hp).1)
        ((tracks_add fun hp => (h hp).2.1).bind hbody)
  | letE _ type value body iht ihv ihb =>
      have hbody := ihb fun hp => (h hp).2.2.2
      rw [occurs, Bool.or_assoc]
      exact hor (iht fun hp => (h hp).1) (hor (ihv fun hp => (h hp).2.1)
        ((tracks_add fun hp => (h hp).2.2.1).bind hbody))
  | proj _ _ value ih => exact ih h
  | _ => exact tracks_ok false

theorem tracks_mapLoose {f : Overflow → Nat → Nat → Except Fault Term}
    {g : Nat → Nat → Term} (h : p → t.FitsAt (depth + 1))
    (hdepth : p → depth + 1 < Word.indices)
    (hf : ∀ i depth, (p → depth + 1 < Word.indices) →
      Tracks p (fun o => f o i depth) (g i depth)) :
    Tracks p (fun o => t.mapLooseIn o (f o) depth) (t.mapLoose g depth) := by
  -- Both stop at the same subterms.
  have hstop : ∀ {t u : Term} {s : Overflow → Except Fault Term} {depth : Nat},
      (p → t.FitsAt (depth + 1)) → Tracks p s u →
      Tracks p
        (fun o => do if (← t.looseRangeIn o) ≤ depth then return t else s o)
        (if t.looseRange ≤ depth then t else u) := by
    intro t u s depth h hs
    refine (tracks_looseRange h).bind ?_
    split
    · exact tracks_ok t
    · exact hs
  induction t generalizing depth with
  | bvar i => exact hstop h (hf i depth hdepth)
  | app f a ihf iha =>
      have hfn := ihf (fun hp => (h hp).1) hdepth
      have harg := iha (fun hp => (h hp).2) hdepth
      exact hstop h (hfn.bind (harg.bind (tracks_ok _)))
  | lam _ _ domain body ihd ihb | pi _ _ domain body ihd ihb =>
      have hdomain := ihd (fun hp => (h hp).1) hdepth
      have hbody := ihb (fun hp => (h hp).2.2) fun hp => (h hp).2.1
      exact hstop h (hdomain.bind
        ((tracks_add fun hp => Nat.lt_of_succ_lt (h hp).2.1).bind
          (hbody.bind (tracks_ok _))))
  | letE _ type value body iht ihv ihb =>
      have htype := iht (fun hp => (h hp).1) hdepth
      have hvalue := ihv (fun hp => (h hp).2.1) hdepth
      have hbody := ihb (fun hp => (h hp).2.2.2) fun hp => (h hp).2.2.1
      exact hstop h (htype.bind (hvalue.bind
        ((tracks_add fun hp => Nat.lt_of_succ_lt (h hp).2.2.1).bind
          (hbody.bind (tracks_ok _)))))
  | proj _ _ value ih =>
      exact hstop h ((ih h hdepth).bind (tracks_ok _))
  | _ => exact hstop h (tracks_ok _)

/-- What a shift does with a variable, given what becomes of the variables from
the start on. -/
theorem tracks_shift {start i j : Nat} {r : Overflow → Except Fault Nat}
    (h : p → start + depth < Word.indices)
    (hr : start + depth ≤ i → Tracks p r j) :
    Tracks p
      (fun o => do
        if (← Word.add o Word.indices start depth) ≤ i then
          return Term.bvar (← r o)
        else return .bvar i)
      (if start + depth ≤ i then .bvar j else .bvar i) := by
  refine (tracks_add h).bind ?_
  split
  · next hle => exact (hr hle).bind (tracks_ok _)
  · exact tracks_ok _

theorem tracks_raise (start amount : Nat) (t : Term) :
    Tracks False (fun o => t.raiseIn o start amount) (t.raise start amount) := by
  unfold raiseIn raise
  split
  · exact tracks_ok t
  · exact tracks_mapLoose False.elim False.elim fun i _ _ =>
      tracks_shift False.elim fun _ => tracks_add False.elim

/-- The number of binders that are taken away is one at most, so that the depth
of every variable is counted. -/
theorem tracks_lower_one (h : p → t.FitsWords) :
    Tracks p (fun o => t.lowerIn o 1 1) (t.lower 1 1) := by
  simp only [lowerIn, lower, Nat.one_ne_zero, if_false]
  have hone : p → 0 + 1 < Word.indices := fun _ => by decide
  refine tracks_mapLoose h hone fun i depth hdepth => ?_
  refine tracks_shift (fun hp => ?_) fun hle => tracks_sub fun _ => ?_
  · rw [Nat.add_comm]
    exact hdepth hp
  · exact (Nat.le_add_right 1 depth).trans hle

theorem tracks_instantiate (body value : Term) :
    Tracks False (fun o => body.instantiateIn o value)
      (body.instantiate value) := by
  refine tracks_mapLoose False.elim False.elim fun i depth _ => ?_
  split
  · exact tracks_raise 0 depth value
  · split
    · exact tracks_ok _
    · exact tracks_ok _

/-! ## Contractions -/

theorem tracks_headStep (t : Term) :
    Tracks False (fun o => (headStepIn? o t).run) t.headStep? := by
  induction t with
  | app f a ihf _ =>
      cases f with
      | lam _ _ _ body => exact (tracks_instantiate body a).lift
      | _ => exact Tracks.map ihf (Term.app · a)
  | _ => exact tracks_ok none

theorem tracks_headBeta (fuel : Nat) (t : Term) :
    Tracks False (fun o => (t.headBetaIn o fuel).run) (t.headBeta fuel) := by
  induction fuel generalizing t with
  | zero =>
      unfold headBetaIn headBeta
      refine (tracks_headStep t).bind ?_
      cases t.headStep? with
      | none | some t' => exact tracks_ok _
  | succ fuel ih =>
      unfold headBetaIn headBeta
      refine (tracks_headStep t).bind ?_
      cases t.headStep? with
      | none => exact tracks_ok _
      | some t' => exact ih t'

theorem tracks_unbind (h : p → t.FitsWords) :
    Tracks p (fun o => (t.unbindIn? o).run) t.unbind? := by
  have hlower := tracks_lower_one h
  have hoccurs := tracks_occurs fun hp => (h hp).mono (Nat.zero_le 1)
  refine hoccurs.lift.bind ?_
  unfold unbind?
  cases t.occurs 0 with
  | true => exact tracks_ok none
  | false => exact hlower.lift

theorem tracks_dropArg (h : p → t.FitsWords) :
    Tracks p (fun o => (t.dropArgIn? o).run) t.dropArg? := by
  cases t with
  | app f a =>
      cases a with
      | bvar i =>
          cases i with
          | zero => exact tracks_unbind fun hp => (h hp).1
          | succ i => exact tracks_ok none
      | _ => exact tracks_ok none
  | _ => exact tracks_ok none

theorem tracks_etaContract (h : p → t.FitsWords) :
    Tracks p (fun o => (t.etaContractIn? o).run) t.etaContract? := by
  induction t with
  | lam _ _ domain body _ ih =>
      have hbody := ih fun hp => (h hp).body
      have hinner := Tracks.orElse hbody (tracks_ok (some body))
      rw [Option.or_some] at hinner
      exact hinner.bind (tracks_dropArg fun hp => (h hp).body.etaContract_getD)
  | _ => exact tracks_ok none

end TermIndex.Term

/-! ## Conversions -/

namespace TermIndex.Conversion

open Term

variable {p : Prop} {body t : Term}

theorem tracks_pointwise (op : Name) (h : p → body.FitsWords) :
    Tracks p (fun o => (pointwiseIn? o op body).run) (pointwise? op body) := by
  have hargs : p → ∀ a ∈ body.args, a.FitsWords := fun hp => (h hp).args
  unfold pointwiseIn? pointwise?
  split
  · refine Tracks.andThen (Tracks.mapM fun a ha => ?_) fun _ _ =>
      Tracks.andThen (Tracks.mapM fun a ha => ?_) fun _ _ => tracks_ok _
    · exact tracks_unbind fun hp => hargs hp a (List.mem_of_mem_take ha)
    · exact tracks_dropArg fun hp => hargs hp a (List.mem_of_mem_drop ha)
  · exact tracks_ok none

theorem tracks_convert (rule : Conversion) (h : p → t.FitsWords) :
    Tracks p (fun o => (rule.convertIn? o t).run) (rule.convert? t) := by
  cases rule with
  | pointwise op =>
      cases t with
      | lam _ _ _ body => exact tracks_pointwise op fun hp => (h hp).body
      | _ => exact tracks_ok none
  | _ => exact tracks_ok _

end TermIndex.Conversion
