import TermIndex.Proofs.PlainEncoding

/-!
# Instances

Without reduction, the encoding of a term covers that of every instance of it
(`Plain.covers_fill`): node by node the two are the same, but for the wildcards
of metavariables and for arguments that either of them leaves out. What a
metavariable stands for is closed, so it is encoded in the same way at all its
places.

Reduction by the empty policy stops where it starts, whatever the signature
knows (`plain_encoder`).
-/

namespace TermIndex

open Term

/-! ## Views of instances -/

/-- Both are left out, one of them is, or the second one is an instance of the
first one. -/
def FilledPart (σ : MVar → Term) :
    Option (Term × Nat) → Option (Term × Nat) → Prop
  | some (t, d), some (t', d') => t' = t.fill σ ∧ d' = d
  | _, _ => True

namespace Encoder

variable {enc : Encoder} {σ : MVar → Term} {t : Term} {depth : Nat}

theorem argParts_fill (enc : Encoder) (σ : MVar → Term) (head head' : Term)
    (args : List Term) (depth : Nat) :
    List.Forall₂ (FilledPart σ) (enc.argParts head args depth)
      (enc.argParts head' (args.map (fill σ)) depth) := by
  simp only [argParts, List.zipIdx_map, List.map_map,
    List.forall₂_map_left_iff, List.forall₂_map_right_iff, List.forall₂_same]
  rintro ⟨arg, i⟩ -
  simp only [Function.comp_apply, Prod.map, id]
  split
  · trivial
  · split
    · trivial
    · exact ⟨rfl, rfl⟩

/-- The second view builds the same node, over instances of the parts. -/
structure FilledView (σ : MVar → Term) (v v' : View) : Prop where
  build : v'.build = v.build
  parts : List.Forall₂ (FilledPart σ) v.parts v'.parts

theorem FilledView.leaf (p : Pattern) : FilledView σ (.leaf p) (.leaf p) :=
  ⟨rfl, .nil⟩

theorem viewSpine_fill (enc : Encoder) (depth : Nat)
    (ht : ∀ m, t.head ≠ .mvar m) :
    FilledView σ (enc.viewSpine t depth)
      (enc.viewSpine (t.fill σ) depth) := by
  have hargs := enc.argParts_fill σ t.head (t.fill σ).head t.args depth
  unfold viewSpine
  simp only [head_fill ht, args_fill ht] at hargs ⊢
  cases hhead : t.head with
  | mvar m => exact absurd hhead (ht m)
  | bvar i =>
      rw [hhead] at hargs
      simp only [fill] at hargs ⊢
      split
      · exact .leaf _
      · exact ⟨rfl, hargs⟩
  | proj s i value =>
      rw [hhead] at hargs
      exact ⟨rfl, .cons ⟨rfl, rfl⟩ hargs⟩
  | _ =>
      rw [hhead] at hargs
      exact ⟨rfl, hargs⟩

theorem view_fill (enc : Encoder) (depth : Nat) (ht : ∀ m, t.head ≠ .mvar m) :
    FilledView σ (enc.view t depth) (enc.view (t.fill σ) depth) := by
  cases t with
  | lit l | sort l | letE n ty v b => exact .leaf _
  | lam n info domain body => exact ⟨rfl, .cons ⟨rfl, rfl⟩ .nil⟩
  | pi n info domain body =>
      refine ⟨rfl, .cons ?_ (.cons ⟨rfl, rfl⟩ .nil)⟩
      cases enc.options.indexDomains with
      | true => exact ⟨rfl, rfl⟩
      | false => trivial
  | mvar m => exact absurd rfl (ht m)
  | app f a => exact viewSpine_fill enc depth ht
  | bvar i => exact viewSpine_fill enc depth ht
  | fvar x => exact viewSpine_fill enc depth ht
  | const n => exact viewSpine_fill enc depth ht
  | proj s i e => exact viewSpine_fill enc depth ht

/-! ## The encoding of an instance -/

theorem head_fill_ne (σ : MVar → Term) (ht : ∀ m, t.head ≠ .mvar m) :
    ∀ m, (t.fill σ).head ≠ .mvar m := by
  intro m
  rw [head_fill ht]
  cases hhead : t.head with
  | mvar m' => exact absurd hhead (ht m')
  | _ => exact nofun

theorem headedBy_fill (hides : Name → Bool) (σ : MVar → Term)
    (ht : ∀ m, t.head ≠ .mvar m) :
    (t.fill σ).headedBy hides = t.headedBy hides := by
  unfold headedBy
  rw [head_fill ht]
  cases hhead : t.head with
  | mvar m => exact absurd hhead (ht m)
  | _ => rfl

variable {hides : Name → Bool} {τ : MVar → Pattern}

/-- The encodings of filled parts are covered if those of the terms are. -/
theorem covers_parts {f g : Term → Nat → Option Pattern}
    {xs ys : List (Option (Term × Nat))} {as es : List Pattern}
    (h : List.Forall₂ (FilledPart σ) xs ys)
    (has : List.Forall₂ (fun x a => View.part (.star none) f x = some a) xs as)
    (hes : List.Forall₂ (fun y e => View.part (.star none) g y = some e) ys es)
    (hstep : ∀ t d a e, some (t, d) ∈ xs → f t d = some a →
      g (t.fill σ) d = some e → Covers τ [a] [e]) :
    List.Forall₂ (fun a e => Covers τ [a] [e]) as es := by
  induction h generalizing as es with
  | nil =>
      cases has
      cases hes
      exact .nil
  | @cons x y xs ys hxy _ ih =>
      cases has with
      | @cons _ a _ as ha has =>
          cases hes with
          | @cons _ e _ es he hes =>
              refine .cons ?_ (ih has hes fun t d a e hmem =>
                hstep t d a e (List.mem_cons_of_mem _ hmem))
              rcases x with _ | ⟨t, d⟩
              · obtain rfl := Option.some.inj ha
                exact .left .nil
              rcases y with _ | ⟨t', d'⟩
              · obtain rfl := Option.some.inj he
                exact .right .nil
              obtain ⟨rfl, rfl⟩ := hxy
              exact hstep t _ a e (List.mem_cons_self ..) ha he

/-- A metavariable is a wildcard wherever it may be filled. -/
theorem encodeMVar_of_ne (enc : Encoder) {mode : Mode}
    (hmode : mode ≠ .query false) (m : MVar) (applied : Bool) :
    (enc.inMode mode).encodeMVar m applied
      = .star (if applied then none else some m) := by
  match mode, applied with
  | .store, true | .store, false => rfl
  | .query true, true | .query true, false => rfl
  | .query false, _ => exact absurd rfl hmode

/-- A wildcard covers whatever a metavariable is filled with. Applied to
arguments it is anonymous. -/
theorem Plain.covers_hole (h : enc.Plain hides) {m₁ : Mode}
    (hm₁ : m₁ ≠ .query false) {fuel : Nat} {m : MVar} (hm : t.head = .mvar m)
    {d e : Pattern} (hd : (enc.inMode m₁).direct (fuel + 1) t depth = some d)
    (hτ : t = .mvar m → e = τ m) : Covers τ [d] [e] := by
  have h₁ : (enc.inMode m₁).Plain hides := ⟨h.rules, h.reduce⟩
  have hhides : t.headedBy hides = false := by rw [headedBy, hm]
  rw [h₁.direct_eq_some_iff] at hd
  obtain ⟨-, as, -, rfl⟩ := hd.resolve_left fun hd => by simp [hhides] at hd
  rw [view_mvar _ _ hm]
  change Covers τ [(enc.inMode m₁).encodeMVar m _] _
  rw [encodeMVar_of_ne enc hm₁]
  cases t with
  | mvar m' =>
      cases hm
      obtain rfl := hτ rfl
      exact .mvar .nil
  | app f a =>
      have happlied : decide (0 < (Term.app f a).numArgs) = true :=
        decide_eq_true (Nat.succ_pos f.numArgs)
      rw [happlied]
      exact .left .nil
  | _ => cases hm

/-- The encoding of a term covers that of an instance, if every term that is
filled in has one encoding, at all depths. -/
theorem Plain.covers_fill (h : enc.Plain hides) {m₁ m₂ : Mode}
    (hm₁ : m₁ ≠ .query false) {fuel : Nat}
    (hτ : ∀ m ∈ t.mvars, ∀ fuel' ≤ fuel, ∀ depth e,
      (enc.inMode m₂).direct fuel' (σ m) depth = some e → e = τ m)
    {d e : Pattern} (hd : (enc.inMode m₁).direct fuel t depth = some d)
    (he : (enc.inMode m₂).direct fuel (t.fill σ) depth = some e) :
    Covers τ [d] [e] := by
  have h₁ : (enc.inMode m₁).Plain hides := ⟨h.rules, h.reduce⟩
  have h₂ : (enc.inMode m₂).Plain hides := ⟨h.rules, h.reduce⟩
  induction fuel generalizing t depth d e with
  | zero => cases hd
  | succ fuel ih =>
      by_cases ht : ∀ m, t.head ≠ .mvar m
      · rw [h₁.direct_eq_some_iff] at hd
        rw [h₂.direct_eq_some_iff, headedBy_fill hides σ ht] at he
        rcases hd with ⟨hhides, rfl⟩ | ⟨hhides, as, has, rfl⟩
        · obtain ⟨-, rfl⟩ := he.resolve_right fun he => by simp [hhides] at he
          exact .of_children rfl rfl .nil
        · obtain ⟨-, es, hes, rfl⟩ :=
            he.resolve_left fun he => by simp [hhides] at he
          have hfill := enc.view_fill (σ := σ) depth ht
          rw [view_inMode _ _ _ ht] at has ⊢
          rw [view_inMode _ _ _ (head_fill_ne σ ht)] at hes ⊢
          rw [hfill.build]
          refine covers_build ht has.length_eq.symm ?_ (covers_of_forall₂
            (covers_parts hfill.parts has hes ?_))
          · rw [hfill.parts.length_eq, hes.length_eq]
          · intro t' d' a e' hmem ha he'
            refine ih (fun m hm fuel' hle => ?_) ha he'
            exact hτ m ((below_of_mem_parts hmem).mvars hm) fuel' (by omega)
      · push Not at ht
        obtain ⟨m, hm⟩ := ht
        refine h.covers_hole hm₁ hm hd ?_
        rintro rfl
        exact hτ m (List.mem_singleton_self m) (fuel + 1) (Nat.le_refl _) depth
          e he

/-- A term without metavariables leaves none to its encoding. -/
theorem Plain.closes (h : enc.Plain hides) :
    enc.Closes fun t => t.mvars = [] := by
  refine ⟨fun t t' ht hr => ?_, fun t depth t' d ht hmem => ?_,
    fun t m ht hm => ?_⟩
  · rw [h.reduce] at hr
    split at hr
    · cases hr
    · cases hr
      rwa [h.convert]
  · have hsub := (below_of_mem_parts hmem).mvars
    rwa [ht, List.subset_nil] at hsub
  · obtain ⟨hhead, -⟩ := of_spine (Q := fun u => u.mvars = [])
      (fun _ _ => List.append_eq_nil_iff.mp) ht
    rw [hm] at hhead
    cases hhead

/-- The encodings of a closed term agree, whatever the fuel and the binders. -/
theorem Plain.direct_unique (h : enc.Plain hides) (ht : t.looseRange = 0)
    {fuel fuel' : Nat} (hle : fuel ≤ fuel') {p p' : Pattern}
    (hp : enc.direct fuel t depth = some p)
    (hp' : enc.direct fuel' t 0 = some p') : p = p' := by
  have hdeep := h.direct_shift (Nat.le_of_eq ht) hp' depth
  rw [Nat.zero_add] at hdeep
  exact Option.some.inj ((direct_mono hle hp).symm.trans hdeep)

/-! ## With fuel for the instance -/

theorem Plain.exists_direct (h : enc.Plain hides) {fuel : Nat}
    (hfuel : t.size ≤ fuel) (depth : Nat) :
    ∃ p, enc.direct fuel t depth = some p := by
  obtain ⟨ps, hps⟩ := h.encode_finishes hfuel depth false
  obtain ⟨p, hp, -⟩ := encode_head hps
  exact ⟨p, hp⟩

/-- With fuel for the instance, both terms are encoded, the one covers the
other, and no metavariable is left in the instance. -/
theorem Plain.exists_covers (h : enc.Plain hides) (m₁ m₂ : Mode)
    (hm₁ : m₁ ≠ .query false) (hσ : Grounds σ t) {fuel : Nat}
    (hfuel : (t.fill σ).size ≤ fuel) :
    ∃ τ d e, (enc.inMode m₁).direct fuel t 0 = some d
      ∧ (enc.inMode m₂).direct fuel (t.fill σ) 0 = some e
      ∧ Covers τ [d] [e] ∧ e.isStar = false ∧ Anonymous [e] := by
  have h₁ : (enc.inMode m₁).Plain hides := ⟨h.rules, h.reduce⟩
  have h₂ : (enc.inMode m₂).Plain hides := ⟨h.rules, h.reduce⟩
  obtain ⟨d, hd⟩ :=
    h₁.exists_direct ((t.size_le_fill σ).trans hfuel) 0
  obtain ⟨e, he⟩ := h₂.exists_direct hfuel 0
  let τ := fun m =>
    ((enc.inMode m₂).direct fuel (σ m) 0).getD .hidden
  refine ⟨τ, d, e, hd, he, h.covers_fill hm₁ ?_ hd he,
    h₂.closes.direct (mvars_fill hσ) he⟩
  intro m hm fuel' hle depth e' he'
  obtain ⟨p, hp⟩ := h₂.exists_direct ((size_filled hm).trans hfuel) 0
  have hτ : τ m = p := by simp only [τ, hp, Option.getD_some]
  rw [hτ]
  exact h₂.direct_unique (hσ m hm).1 hle he' hp

end Encoder

/-! ## Reduction without steps -/

namespace Signature

/-- Without a policy nothing is reduced, but hidden constants still hide. -/
theorem step_none (sig : Signature) (fuel : Nat)
    (normal : Term → Option Reduct) (t : Term) :
    sig.step .none fuel normal t
      = some (if t.headedBy sig.hides then .hidden else .stop) := by
  unfold step headedBy
  split
  · rfl
  · cases t.head with
    | const n =>
        cases hn : sig.hides n with
        | true => simp [hn]
        | false => simp [hn, Policy.none]
    | _ => simp [Policy.none]

theorem whnf_none (sig : Signature) {fuel : Nat} (hfuel : fuel ≠ 0) (t : Term) :
    sig.whnf fuel .none t
      = some (if t.headedBy sig.hides then .hidden else .term t) := by
  obtain ⟨fuel, rfl⟩ := Nat.exists_eq_add_one_of_ne_zero hfuel
  change sig.reduce .none (fuel + 1) (511 + 1) t = _
  rw [reduce, step_none]
  cases t.headedBy sig.hides <;> rfl

end Signature

/-- Reduction by a signature, and any relevance. -/
def Host.structural (fuel : Nat) (sig : Signature)
    (irrelevant : Term → Nat → Term → Bool) : Host :=
  ⟨sig.whnf fuel, irrelevant, fuel⟩

namespace Index

variable {α : Type} {ix : Index α}

theorem plain_encoder (hpolicy : ix.settings.encoding.policy = .none)
    (hrules : ix.rules = []) {fuel : Nat} (hfuel : fuel ≠ 0) (sig : Signature)
    (irrelevant : Term → Nat → Term → Bool) (mode : Mode) :
    (ix.encoder (.structural fuel sig irrelevant) mode).Plain sig.hides := by
  refine ⟨hrules, fun t => ?_⟩
  change sig.whnf fuel ix.settings.encoding.policy t = _
  rw [hpolicy, sig.whnf_none hfuel]

end Index

end TermIndex
