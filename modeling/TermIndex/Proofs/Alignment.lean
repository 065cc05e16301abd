import TermIndex.Proofs.Covering
import TermIndex.Proofs.Encodings

/-!
# Encodings node by node

The view of a term without a metavariable at its head has a fixed key, and
builds the node over its parts or a leaf (`view_shape`). So whatever relates the
encodings of the parts carries over to the node. This is all that is used of the
shape of terms when two encodings are compared.
-/

namespace TermIndex

/-- The view builds nodes with this key over its parts. -/
def View.Node (v : View) (k : Key) : Prop :=
  ∀ as, as.length = v.parts.length →
    (v.build as).key? = some k ∧ (v.build as).children = as

/-- The view builds a leaf with this key. -/
def View.Leaf (v : View) (k : Key) : Prop :=
  ∀ as, (v.build as).key? = some k ∧ (v.build as).children = []

theorem View.node_app (parts : List (Option (Term × Nat))) (h : Head) :
    View.Node ⟨parts, .app h⟩ (.app h parts.length) :=
  fun as has => ⟨by rw [← has]; rfl, rfl⟩

theorem View.node_proj (part : Option (Term × Nat))
    (parts : List (Option (Term × Nat))) (s : Name) (i : Nat) :
    View.Node ⟨part :: parts, fun ps => .proj s i (ps.headD .hidden) ps.tail⟩
      (.proj s i (parts.length + 1)) := by
  intro as has
  obtain ⟨a, as, rfl⟩ := List.exists_cons_of_length_eq_add_one has
  exact ⟨by rw [← Nat.succ.inj has]; rfl, rfl⟩

namespace Encoder

variable {enc : Encoder} {t : Term} {depth : Nat}

theorem viewSpine_shape (enc : Encoder) (depth : Nat)
    (ht : ∀ m, t.head ≠ .mvar m) :
    ∃ k, (enc.viewSpine t depth).Node k ∨ (enc.viewSpine t depth).Leaf k := by
  unfold viewSpine
  cases hhead : t.head with
  | mvar m => exact absurd hhead (ht m)
  | const n | fvar x => exact ⟨_, Or.inl (View.node_app _ _)⟩
  | bvar i =>
      simp only
      split
      · exact ⟨_, Or.inr fun as => ⟨rfl, rfl⟩⟩
      · exact ⟨_, Or.inl (View.node_app _ _)⟩
  | proj s i value =>
      exact ⟨_, Or.inl (View.node_proj _ _ s i)⟩
  | _ => exact ⟨_, Or.inr fun as => ⟨rfl, rfl⟩⟩

theorem view_shape (enc : Encoder) (depth : Nat) (ht : ∀ m, t.head ≠ .mvar m) :
    ∃ k, (enc.view t depth).Node k ∨ (enc.view t depth).Leaf k := by
  cases t with
  | lit l | sort l | letE n ty v b => exact ⟨_, Or.inr fun as => ⟨rfl, rfl⟩⟩
  | lam n info domain body =>
      refine ⟨.lam, Or.inl fun as has => ?_⟩
      obtain ⟨a, rfl⟩ := List.length_eq_one_iff.mp has
      exact ⟨rfl, rfl⟩
  | pi n info domain body =>
      refine ⟨.pi, Or.inl fun as has => ?_⟩
      obtain ⟨a, a', rfl⟩ := List.length_eq_two.mp has
      exact ⟨rfl, rfl⟩
  | app f a => exact viewSpine_shape enc depth ht
  | bvar i => exact viewSpine_shape enc depth ht
  | fvar x => exact viewSpine_shape enc depth ht
  | mvar m => exact absurd rfl (ht m)
  | const n => exact viewSpine_shape enc depth ht
  | proj s i e => exact viewSpine_shape enc depth ht

/-- Whether a term is viewed as a spine depends on its head. -/
theorem view_eq_viewSpine
    (ht : enc.view t.head depth = enc.viewSpine t.head depth) :
    enc.view t depth = enc.viewSpine t depth := by
  cases t with
  | app f a => rfl
  | _ => exact ht

/-- A metavariable hides what it is applied to. -/
theorem view_mvar (enc : Encoder) (depth : Nat) {m : MVar}
    (ht : t.head = .mvar m) :
    enc.view t depth = .leaf (enc.encodeMVar m (0 < t.numArgs)) := by
  rw [view_eq_viewSpine (by rw [ht]; rfl), viewSpine, ht]

/-! ## Modes -/

/-- The encoder in another mode. -/
def inMode (enc : Encoder) (mode : Mode) : Encoder := { enc with mode }

/-- Only metavariables are encoded differently in another mode. -/
theorem view_inMode (enc : Encoder) (mode : Mode) (depth : Nat)
    (ht : ∀ m, t.head ≠ .mvar m) :
    (enc.inMode mode).view t depth = enc.view t depth := by
  have hspine : (enc.inMode mode).viewSpine t depth
      = enc.viewSpine t depth := by
    unfold viewSpine
    cases hhead : t.head with
    | mvar m => exact absurd hhead (ht m)
    | _ => rfl
  cases t with
  | lit l | sort l | letE n ty v b | lam n i d b | pi n i d b => rfl
  | _ => exact hspine

theorem parts_inMode (enc : Encoder) (mode : Mode) (t : Term) (depth : Nat) :
    ((enc.inMode mode).view t depth).parts = (enc.view t depth).parts := by
  by_cases ht : ∀ m, t.head ≠ .mvar m
  · rw [view_inMode enc mode depth ht]
  · push Not at ht
    obtain ⟨m, hm⟩ := ht
    rw [view_mvar _ _ hm, view_mvar _ _ hm]
    rfl

/-- A relation of patterns that holds where both modes leave something out, and
is kept when nodes are built, relates the encodings in two modes. In particular
both can be computed. -/
theorem exists_inMode {mode mode' : Mode}
    {R : List Pattern → List Pattern → Prop}
    (hlist : ∀ {as es}, List.Forall₂ (fun a e => R [a] [e]) as es → R as es)
    (hleft : R [.star none] [.star none]) (hhidden : R [.hidden] [.hidden])
    (hbuild : ∀ {t : Term} {depth : Nat} {as es : List Pattern},
      as.length = (enc.view t depth).parts.length →
      es.length = (enc.view t depth).parts.length → R as es →
        R [((enc.inMode mode).view t depth).build as]
          [((enc.inMode mode').view t depth).build es])
    {fuel : Nat} {d : Pattern}
    (h : (enc.inMode mode).direct fuel t depth = some d) :
    ∃ e, (enc.inMode mode').direct fuel t depth = some e ∧ R [d] [e] := by
  induction fuel generalizing t depth d with
  | zero => cases h
  | succ fuel ih =>
      simp only [direct_eq_some_iff]
      rcases direct_eq_some_iff.mp h with ⟨hr, rfl⟩ | ⟨t', as, hr, has, rfl⟩
      · exact ⟨.hidden, Or.inl ⟨hr, rfl⟩, hhidden⟩
      rw [Parts, parts_inMode] at has
      obtain ⟨es, hes, hall⟩ : ∃ es,
          List.Forall₂ (fun x e => View.part (.star none)
            ((enc.inMode mode').direct fuel) x = some e)
            (enc.view (enc.convert t') depth).parts es
          ∧ List.Forall₂ (fun a e => R [a] [e]) as es := by
        refine forall₂_exists ?_ has
        rintro (_ | ⟨t, d⟩) a ha
        · obtain rfl := Option.some.inj ha
          exact ⟨.star none, rfl, hleft⟩
        · exact ih ha
      refine ⟨_, Or.inr ⟨t', es, hr, ?_, rfl⟩, hbuild
        has.length_eq.symm hes.length_eq.symm (hlist hall)⟩
      rw [Parts, parts_inMode]
      exact hes

/-! ## Covering -/

variable {τ : MVar → Pattern} {as es : List Pattern}

/-- What is built of patterns that are covered is covered. -/
theorem covers_build (ht : ∀ m, t.head ≠ .mvar m)
    (has : as.length = (enc.view t depth).parts.length)
    (hes : es.length = (enc.view t depth).parts.length)
    (h : Covers τ as es) :
    Covers τ [(enc.view t depth).build as] [(enc.view t depth).build es] := by
  obtain ⟨k, hnode | hleaf⟩ := view_shape enc depth ht
  · obtain ⟨hkey, hchildren⟩ := hnode as has
    obtain ⟨hkey', hchildren'⟩ := hnode es hes
    exact .of_children hkey hkey' (by rwa [hchildren, hchildren'])
  · obtain ⟨hkey, hchildren⟩ := hleaf as
    obtain ⟨hkey', hchildren'⟩ := hleaf es
    refine .of_children hkey hkey' ?_
    rw [hchildren, hchildren']
    exact .nil

theorem anonymous_build (ht : ∀ m, t.head ≠ .mvar m)
    (has : as.length = (enc.view t depth).parts.length) (h : Anonymous as) :
    Anonymous [(enc.view t depth).build as] := by
  obtain ⟨k, hnode | hleaf⟩ := view_shape enc depth ht
  · obtain ⟨hkey, hchildren⟩ := hnode as has
    rw [Anonymous, Pattern.wildcardsAll_of_key hkey, hchildren,
      List.append_nil]
    exact h
  · obtain ⟨hkey, hchildren⟩ := hleaf as
    rw [Anonymous, Pattern.wildcardsAll_of_key hkey, hchildren]
    exact List.forall_mem_nil _

theorem isStar_build (ht : ∀ m, t.head ≠ .mvar m)
    (has : as.length = (enc.view t depth).parts.length) :
    ((enc.view t depth).build as).isStar = false := by
  obtain ⟨k, hnode | hleaf⟩ := view_shape enc depth ht
  · exact Pattern.isStar_of_key (hnode as has).1
  · exact Pattern.isStar_of_key (hleaf as).1

/-! ## Encodings without metavariables -/

/-- A property of terms that their parts have as well, and that leaves no
metavariable to become a wildcard. -/
structure Closes (enc : Encoder) (Q : Term → Prop) : Prop where
  reduce : ∀ t t', Q t →
    enc.host.reduce enc.options.policy t = some (.term t') →
      Q (enc.convert t')
  parts : ∀ t depth t' d, Q t → some (t', d) ∈ (enc.view t depth).parts → Q t'
  mvar : ∀ t m, Q t → t.head = .mvar m →
    (enc.encodeMVar m (0 < t.numArgs)).isStar = false

theorem anonymous_encodeMVar {m : MVar} {applied : Bool}
    (h : (enc.encodeMVar m applied).isStar = false) :
    Anonymous [enc.encodeMVar m applied] := by
  obtain ⟨k, hk⟩ := Pattern.key?_of_isStar h
  rw [Anonymous, Pattern.wildcardsAll_of_key hk]
  unfold encodeMVar
  split <;> exact List.forall_mem_nil _

theorem anonymous_of_forall₂ {xs : List (Option (Term × Nat))}
    (h : List.Forall₂ (fun _ a => Anonymous [a]) xs as) : Anonymous as := by
  induction h with
  | nil => exact nofun
  | cons ha _ ih =>
      rw [Anonymous, Pattern.wildcardsAll_cons]
      rw [Anonymous, Pattern.wildcardsAll_cons] at ha
      exact List.forall_mem_append.mpr
        ⟨(List.forall_mem_append.mp ha).1, ih⟩

/-- Such a term is encoded with anonymous wildcards only, and not as one. -/
theorem Closes.direct {Q : Term → Prop} (hQ : enc.Closes Q) {fuel : Nat}
    {p : Pattern} (ht : Q t) (h : enc.direct fuel t depth = some p) :
    p.isStar = false ∧ Anonymous [p] := by
  induction fuel generalizing t depth p with
  | zero => cases h
  | succ fuel ih =>
      rcases direct_eq_some_iff.mp h with ⟨-, rfl⟩ | ⟨t', as, hr, has, rfl⟩
      · exact ⟨rfl, nofun⟩
      replace ht := hQ.reduce t t' ht hr
      by_cases hhead : ∀ m, (enc.convert t').head ≠ .mvar m
      · refine ⟨isStar_build hhead has.length_eq.symm,
          anonymous_build hhead has.length_eq.symm ?_⟩
        refine anonymous_of_forall₂
          (((List.forall₂_and_left _ _).mpr ⟨fun x hx => hx, has⟩).imp ?_)
        rintro (_ | ⟨t, d⟩) a ⟨hmem, ha⟩
        · obtain rfl := Option.some.inj ha
          exact fun m hm => List.mem_singleton.mp hm
        · exact (ih (hQ.parts _ _ _ _ ht hmem) ha).2
      · push Not at hhead
        obtain ⟨m, hm⟩ := hhead
        rw [view_mvar enc depth hm]
        have hstar := hQ.mvar _ m ht hm
        exact ⟨hstar, anonymous_encodeMVar hstar⟩

end Encoder

end TermIndex
