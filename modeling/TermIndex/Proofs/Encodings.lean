import TermIndex.Index
import TermIndex.Proofs.Choices

/-!
# The direct encoding

A stored term has many encodings, a query only one. What both have in common is
the first encoding of every list, the direct one. `direct` computes it alone: it
views the reduced term as a node and the parts below it, encodes these, and
builds the node.

At every node the results are made from lists of encodings for the parts
(`encodeShape_builtFrom`). Two things are known of how this is done
(`Assembles`): the first result is built from the first encodings, and the front
of all results is made from the fronts of the lists. The first one is used here.
No cap ever drops the first encoding of a list, so that `direct` is the first of
all encodings (`encode_head`) and the only one of a query (`encodeOne_eq`).
-/

namespace TermIndex

/-- The results of a list are all there. -/
theorem mapM_eq_some_iff {β γ : Type} {f : β → Option γ} {xs : List β}
    {ys : List γ} :
    xs.mapM f = some ys ↔ List.Forall₂ (fun x y => f x = some y) xs ys := by
  induction xs generalizing ys with
  | nil =>
      rw [List.mapM_nil, List.forall₂_nil_left_iff, Option.pure_def,
        Option.some.injEq, eq_comm]
  | cons x xs ih =>
      rw [List.mapM_cons, List.forall₂_cons_left_iff]
      simp only [Option.bind_eq_bind, Option.bind_eq_some_iff, Option.pure_def,
        Option.some.injEq, ih]
      constructor
      · rintro ⟨y, hy, ys, hys, rfl⟩
        exact ⟨y, ys, hy, hys, rfl⟩
      · rintro ⟨y, ys, hy, hys, rfl⟩
        exact ⟨y, hy, ys, hys, rfl⟩

/-- A function with an inverse on its results has one on lists. -/
theorem mapM_eq_some_iff_map {β γ : Type} {f : β → Option γ} {g : γ → β}
    (h : ∀ x y, f x = some y ↔ x = g y) {xs : List β} {ys : List γ} :
    xs.mapM f = some ys ↔ xs = ys.map g := by
  simp only [mapM_eq_some_iff, h]
  rw [← List.forall₂_map_right_iff, List.forall₂_eq_eq_eq]

theorem forall_mem_right {β γ : Type} {R : β → γ → Prop} {Q : γ → Prop}
    {xs : List β} {ys : List γ} (h : List.Forall₂ R xs ys)
    (hR : ∀ x ∈ xs, ∀ y, R x y → Q y) : ∀ y ∈ ys, Q y := by
  induction h with
  | nil => exact List.forall_mem_nil _
  | cons hxy _ ih =>
      obtain ⟨hx, hxs⟩ := List.forall_mem_cons.mp hR
      exact List.forall_mem_cons.mpr ⟨hx _ hxy, ih hxs⟩

/-- What holds of all results of a function holds of the results of a list. -/
theorem of_mapM {β γ : Type} {f : β → Option γ} {xs : List β} {ys : List γ}
    {Q : γ → Prop} (h : xs.mapM f = some ys)
    (hf : ∀ x ∈ xs, ∀ y, f x = some y → Q y) : ∀ y ∈ ys, Q y :=
  forall_mem_right (mapM_eq_some_iff.mp h) hf

theorem exists_mapM_iff {β γ : Type} {f : β → Option γ} {xs : List β} :
    (∃ ys, xs.mapM f = some ys) ↔ ∀ x ∈ xs, ∃ y, f x = some y := by
  simp only [mapM_eq_some_iff]
  induction xs with
  | nil => simp
  | cons x xs ih =>
      rw [List.forall_mem_cons, ← ih]
      constructor
      · rintro ⟨_, hall⟩
        obtain ⟨y, ys, hy, hys, rfl⟩ := List.forall₂_cons_left_iff.mp hall
        exact ⟨⟨y, hy⟩, ys, hys⟩
      · rintro ⟨⟨y, hy⟩, ys, hys⟩
        exact ⟨y :: ys, .cons hy hys⟩

/-- Changing every result changes the list of results. -/
theorem mapM_option_map {β γ δ : Type} (f : γ → δ) (g : β → Option γ)
    (xs : List β) :
    xs.mapM (fun x => (g x).map f) = (xs.mapM g).map (List.map f) := by
  induction xs with
  | nil => rfl
  | cons x xs ih =>
      rw [List.mapM_cons, List.mapM_cons, ih]
      cases g x <;> cases xs.mapM g <;> rfl

/-- A list that goes with another one, element by element, by way of a
third one. -/
theorem forall₂_exists {β γ δ : Type} {R : β → γ → Prop} {S : β → δ → Prop}
    {T : γ → δ → Prop} (hstep : ∀ x y, R x y → ∃ z, S x z ∧ T y z)
    {xs : List β} {ys : List γ} (h : List.Forall₂ R xs ys) :
    ∃ zs, List.Forall₂ S xs zs ∧ List.Forall₂ T ys zs := by
  induction h with
  | nil => exact ⟨[], .nil, .nil⟩
  | @cons x y xs ys hxy _ ih =>
      obtain ⟨z, hxz, hyz⟩ := hstep x y hxy
      obtain ⟨zs, hxs, hys⟩ := ih
      exact ⟨z :: zs, .cons hxz hxs, .cons hyz hys⟩

/-- Two lists that go with the same one go with each other. -/
theorem forall₂_join {β γ δ : Type} {R : β → γ → Prop} {S : β → δ → Prop}
    {xs : List β} {ys : List γ} {zs : List δ} (h : List.Forall₂ R xs ys)
    (h' : List.Forall₂ S xs zs) :
    List.Forall₂ (fun y z => ∃ x, R x y ∧ S x z) ys zs := by
  induction h generalizing zs with
  | nil =>
      cases h'
      exact .nil
  | @cons x y xs ys hxy _ ih =>
      cases h' with
      | cons hxz h' => exact .cons ⟨x, hxy, hxz⟩ (ih h')

/-- A term as a node over the parts that are encoded below it: subterms with the
number of binders around them, or nothing where the index keeps a wildcard. -/
structure View where
  parts : List (Option (Term × Nat))
  build : List Pattern → Pattern

namespace View

def leaf (p : Pattern) : View := ⟨[], fun _ => p⟩

/-- All results from the encodings of the parts, and then those of the
contracted form that are new. -/
def results (v : View) (lists : List (List Pattern)) (cs : List Pattern) :
    List Pattern :=
  distinct ((products lists).map v.build ++ cs)

/-- What is done with a part, if a wildcard is `wild`. -/
def part {β : Type} (wild : β) (f : Term → Nat → Option β) :
    Option (Term × Nat) → Option β
  | none => some wild
  | some (t, depth) => f t depth

end View

namespace Encoder

variable {enc : Encoder} {recur : Recur} {t : Term} {depth : Nat}
  {alternates : Bool} {ps : List Pattern}

/-! ## Views -/

def argParts (enc : Encoder) (head : Term) (args : List Term) (depth : Nat) :
    List (Option (Term × Nat)) :=
  args.zipIdx.map fun (arg, i) =>
    if enc.host.irrelevant head i arg then none else some (arg, depth)

theorem mem_argParts {head t' : Term} {args : List Term} {d : Nat}
    (h : some (t', d) ∈ enc.argParts head args depth) :
    t' ∈ args ∧ d = depth := by
  obtain ⟨⟨arg, i⟩, hmem, heq⟩ := List.mem_map.mp h
  simp only at heq
  split at heq
  · cases heq
  · obtain ⟨rfl, rfl⟩ := Prod.mk.inj (Option.some.inj heq)
    exact ⟨List.fst_mem_of_mem_zipIdx hmem, rfl⟩

def viewSpine (enc : Encoder) (t : Term) (depth : Nat) : View :=
  let args := enc.argParts t.head t.args depth
  match t.head with
  | .mvar m => .leaf (enc.encodeMVar m (0 < t.numArgs))
  | .const n => ⟨args, .app (.const n)⟩
  | .fvar x => ⟨args, .app (.fvar x)⟩
  | .bvar i => if depth ≤ i then .leaf .hidden else ⟨args, .app (.bvar i)⟩
  | .proj s i value =>
    ⟨some (value, depth) :: args,
      fun ps => .proj s i (ps.headD .hidden) ps.tail⟩
  | _ => ⟨args, fun _ => .hidden⟩

/-- The view of a reduced term. -/
def view (enc : Encoder) (t : Term) (depth : Nat) : View :=
  match t with
  | .lit l => .leaf (.lit l)
  | .sort _ => .leaf .sort
  | .letE .. => .leaf .hidden
  | .lam _ _ _ body =>
    ⟨[some (body, depth + 1)], fun ps => .lam (ps.headD .hidden)⟩
  | .pi _ _ domain body =>
    ⟨[if enc.options.indexDomains then some (domain, depth) else none,
        some (body, depth + 1)],
      fun ps => .pi (ps.headD .hidden) (ps.tail.headD .hidden)⟩
  | t => enc.viewSpine t depth

/-- A term after the conversions. -/
def convert (enc : Encoder) (t : Term) : Term :=
  (Conversion.convertFirst? enc.rules t).getD t

/-- The first encoding of a term. -/
def direct (enc : Encoder) : Nat → Term → Nat → Option Pattern
  | 0, _, _ => none
  | fuel + 1, t, depth => do
    match ← enc.host.reduce enc.options.policy t with
    | .hidden => some .hidden
    | .term t =>
      let v := enc.view (enc.convert t) depth
      return v.build (← v.parts.mapM (View.part (.star none) (enc.direct fuel)))

/-! ## First elements -/

/-- These patterns come first in their lists. -/
def Firsts : List (List Pattern) → List Pattern → Prop :=
  List.Forall₂ fun l p => l.head? = some p

theorem head?_take_cap (enc : Encoder) {β : Type} (l : List β) :
    (l.take enc.cap).head? = l.head? := by
  have hcap : enc.cap ≠ 0 := by
    unfold cap
    omega
  rw [List.head?_take, if_neg hcap]

theorem head?_limit (enc : Encoder) {β : Type} [DecidableEq β] {x : β}
    {xs : List β} (h : xs.head? = some x) : (enc.limit xs).head? = some x := by
  obtain ⟨xs, rfl⟩ := List.head?_eq_some_iff.mp h
  rw [limit, head?_take_cap]
  rfl

theorem head?_choices {lists : List (List Pattern)} (h : Firsts lists ps) :
    (enc.choices lists).head? = some ps := by
  -- The fold has chosen the patterns before these lists.
  suffices hfold : ∀ (combos : List (List Pattern)) (front : List Pattern),
      combos.head? = some front →
      (lists.foldl (fun combos part =>
        enc.limit (combos.flatMap fun combo => part.map fun p =>
          combo ++ [p])) combos).head? = some (front ++ ps) from
    hfold [[]] [] rfl
  induction h with
  | nil =>
      intro combos front hfront
      rw [List.foldl_nil, hfront, List.append_nil]
  | @cons l p lists ps hp _ ih =>
      intro combos front hfront
      obtain ⟨combos, rfl⟩ := List.head?_eq_some_iff.mp hfront
      obtain ⟨l, rfl⟩ := List.head?_eq_some_iff.mp hp
      rw [List.foldl_cons, List.append_cons]
      exact ih _ _ (enc.head?_limit rfl)

theorem head?_combine {lists : List (List Pattern)} (h : Firsts lists ps)
    (build : List Pattern → Pattern) :
    (enc.combine lists build).head? = some (build ps) := by
  rw [combine, List.head?_map, head?_choices h]
  rfl

theorem encodeArgs_eq (enc : Encoder) (recur : Recur) (depth : Nat)
    (alternates : Bool) (head : Term) (args : List Term) :
    enc.encodeArgs recur depth alternates head args
      = (enc.argParts head args depth).mapM
          (View.part [.star none] (recur · · alternates)) := by
  rw [encodeArgs, argParts, List.mapM_map]
  congr 1
  funext ⟨arg, i⟩
  simp only [Function.comp_apply]
  split <;> rfl

/-! ## One node -/

/-- The encodings of the parts of a view. -/
def partsOf (recur : Recur) (alternates : Bool) (v : View) :
    Option (List (List Pattern)) :=
  v.parts.mapM (View.part [.star none] (recur · · alternates))

/-- How results are made from the encodings of the parts of a view, if these
are the encodings of the contracted form. -/
structure Assembles (enc : Encoder) (v : View) (cs : List Pattern)
    (out : List (List Pattern) → List Pattern) : Prop where
  /-- The first result is built from the first encodings. -/
  first : ∀ lists as, Firsts lists as → (out lists).head? = some (v.build as)
  /-- The fronts of all encodings give the front of all results. -/
  front : ∀ lists whole, (∀ l ∈ lists, Alternatives l) →
    lists.length = v.parts.length → whole.Nodup → cs = whole.take enc.cap →
    out (lists.map (List.take enc.cap))
      = (v.results lists whole).take enc.cap

/-- The results are made from the encodings of the parts. -/
def BuiltFrom (enc : Encoder) (recur : Recur) (alternates : Bool) (v : View)
    (cs : List Pattern) (result : Option (List Pattern)) : Prop :=
  ∃ out : List (List Pattern) → List Pattern,
    result = (partsOf recur alternates v).map out ∧ enc.Assembles v cs out

theorem Assembles.const (enc : Encoder) (parts : List (Option (Term × Nat)))
    (p : Pattern) : enc.Assembles ⟨parts, fun _ => p⟩ [] fun _ => [p] := by
  refine ⟨fun _ _ _ => rfl, fun lists whole hlists _ _ hwhole => ?_⟩
  obtain rfl : whole = [] :=
    (List.take_eq_nil_iff.mp hwhole.symm).resolve_left enc.cap_ne_zero
  rw [View.results, List.append_nil,
    distinct_map_const (Alternatives.products hlists).ne_nil]
  exact (List.take_of_length_le (Nat.le_max_left ..)).symm

theorem Assembles.combine (enc : Encoder) {v : View}
    (hbuild : ∀ ps qs, ps.length = v.parts.length →
      qs.length = v.parts.length → v.build ps = v.build qs → ps = qs) :
    enc.Assembles v [] fun lists => enc.combine lists v.build := by
  refine ⟨fun lists as h => head?_combine h v.build,
    fun lists whole hlists hlength _ hwhole => ?_⟩
  obtain rfl : whole = [] :=
    (List.take_eq_nil_iff.mp hwhole.symm).resolve_left enc.cap_ne_zero
  rw [← hlength] at hbuild
  rw [View.results, List.append_nil, combine_take hlists hbuild]

theorem Assembles.lam (enc : Encoder) (part : Option (Term × Nat))
    (cs : List Pattern) :
    enc.Assembles ⟨[part], fun ps => .lam (ps.headD .hidden)⟩ cs fun lists =>
      enc.limit ((lists.headD [.hidden]).map .lam ++ cs) := by
  constructor
  · intro lists as hfirsts
    refine enc.head?_limit ?_
    cases hfirsts with
    | nil => rfl
    | cons hp _ =>
        obtain ⟨l, rfl⟩ := List.head?_eq_some_iff.mp hp
        rfl
  · rintro lists whole hlists hlength hwhole rfl
    obtain ⟨l, rfl⟩ := List.length_eq_one_iff.mp hlength
    have hl := (hlists l (List.mem_singleton_self l)).nodup
    have hlams : (l.map Pattern.lam).Nodup :=
      hl.map fun p q h => Pattern.lam.inj h
    have hbuilt : (products [l]).map (fun ps => .lam (ps.headD .hidden))
        = l.map Pattern.lam := by
      rw [products_singleton, List.map_map]
      rfl
    rw [View.results, hbuilt, limit, List.map_singleton, List.headD_cons,
      List.map_take, take_distinct_append hlams hwhole]

theorem BuiltFrom.leaf (p : Pattern) :
    BuiltFrom enc recur alternates (.leaf p) [] (some [p]) :=
  ⟨fun _ => [p], rfl, .const enc [] p⟩

theorem args_builtFrom (head : Term) (args : List Term) (h : Head) :
    BuiltFrom enc recur alternates ⟨enc.argParts head args depth, .app h⟩ []
      (enc.encodeArgs recur depth alternates head args >>= fun lists =>
        return enc.combine lists (.app h)) := by
  refine ⟨fun lists => enc.combine lists (.app h), ?_,
    .combine enc fun ps qs _ _ heq => (Pattern.app.inj heq).2⟩
  rw [encodeArgs_eq, partsOf]
  exact (Option.map_eq_bind ..).symm

theorem encodeSpine_builtFrom (enc : Encoder) (recur : Recur) (t : Term)
    (depth : Nat) (alternates : Bool) :
    BuiltFrom enc recur alternates (enc.viewSpine t depth) []
      (enc.encodeSpine recur t depth alternates) := by
  unfold encodeSpine viewSpine encodeApplied
  cases t.head with
  | mvar m => exact .leaf _
  | const n | fvar x => exact args_builtFrom _ _ _
  | bvar i =>
      simp only
      split
      · exact .leaf _
      · exact args_builtFrom _ _ _
  | proj s i value =>
      refine ⟨fun lists => enc.combine lists fun parts =>
        .proj s i (parts.headD .hidden) parts.tail, ?_,
        .combine enc fun ps qs hps hqs heq => ?_⟩
      · simp only [partsOf, List.mapM_cons, encodeArgs_eq, View.part]
        simp [Option.bind_assoc, Option.map_eq_bind]
      · obtain ⟨p, ps, rfl⟩ := List.exists_cons_of_length_eq_add_one hps
        obtain ⟨q, qs, rfl⟩ := List.exists_cons_of_length_eq_add_one hqs
        obtain ⟨-, -, rfl, rfl⟩ := Pattern.proj.inj heq
        rfl
  | _ =>
      refine ⟨fun _ => [.hidden], ?_, .const enc _ .hidden⟩
      simp only [partsOf, encodeArgs_eq]
      exact (Option.map_eq_bind ..).symm

/-- The encodings of the contracted form of a stored lambda. -/
def contracted (recur : Recur) (t : Term) (depth : Nat) (alternates : Bool) :
    Option (List Pattern) :=
  match alternates, t.etaContract? with
  | true, some t' => recur t' depth alternates
  | _, _ => some []

theorem contracted_false (recur : Recur) (t : Term) (depth : Nat) :
    contracted recur t depth false = some [] := rfl

theorem contracted_of_none (ht : t.etaContract? = none) :
    contracted recur t depth alternates = some [] := by
  unfold contracted
  rw [ht]
  cases alternates <;> rfl

theorem encodeShape_lam (enc : Encoder) (recur : Recur) (n : Name)
    (info : BinderInfo) (domain body : Term) (depth : Nat)
    (alternates : Bool) :
    enc.encodeShape recur (.lam n info domain body) depth alternates
      = (recur body (depth + 1) alternates).bind fun direct =>
        (contracted recur (.lam n info domain body) depth alternates).bind
          fun ps => some (enc.limit (direct.map .lam ++ ps)) := by
  simp only [encodeShape, contracted]
  cases alternates with
  | false => rfl
  | true => cases (Term.lam n info domain body).etaContract? <;> rfl

theorem encodeShape_builtFrom (enc : Encoder)
    (h : contracted recur t depth alternates = some ps) :
    BuiltFrom enc recur alternates (enc.view t depth) ps
      (enc.encodeShape recur t depth alternates) := by
  have hnil : t.etaContract? = none → ps = [] := fun ht =>
    Option.some.inj (h.symm.trans (contracted_of_none ht))
  cases t with
  | lit l =>
      obtain rfl := hnil rfl
      exact .leaf _
  | sort l =>
      obtain rfl := hnil rfl
      exact .leaf _
  | letE n ty v b =>
      obtain rfl := hnil rfl
      exact .leaf _
  | lam n info domain body =>
      refine ⟨fun lists =>
        enc.limit ((lists.headD [.hidden]).map Pattern.lam ++ ps), ?_,
        .lam enc _ ps⟩
      simp [encodeShape_lam, h, view, partsOf, View.part, Option.map_eq_bind,
        Option.bind_assoc]
  | pi n info domain body =>
      obtain rfl := hnil rfl
      refine ⟨fun lists => enc.combine lists fun parts =>
        .pi (parts.headD .hidden) (parts.tail.headD .hidden), ?_,
        .combine enc fun ps qs hps hqs heq => ?_⟩
      · simp only [encodeShape, view, partsOf, List.mapM_cons]
        cases enc.options.indexDomains with
        | true => simp [View.part, Option.map_eq_bind, Option.bind_assoc]
        | false => simp [View.part, Option.map_eq_bind, Option.bind_assoc]
      · obtain ⟨p, p', rfl⟩ := List.length_eq_two.mp hps
        obtain ⟨q, q', rfl⟩ := List.length_eq_two.mp hqs
        obtain ⟨rfl, rfl⟩ := Pattern.pi.inj heq
        rfl
  | app f a =>
      obtain rfl := hnil rfl
      exact encodeSpine_builtFrom enc recur (.app f a) depth _
  | bvar i =>
      obtain rfl := hnil rfl
      exact encodeSpine_builtFrom enc recur (.bvar i) depth _
  | fvar x =>
      obtain rfl := hnil rfl
      exact encodeSpine_builtFrom enc recur (.fvar x) depth _
  | mvar m =>
      obtain rfl := hnil rfl
      exact encodeSpine_builtFrom enc recur (.mvar m) depth _
  | const n =>
      obtain rfl := hnil rfl
      exact encodeSpine_builtFrom enc recur (.const n) depth _
  | proj s i e =>
      obtain rfl := hnil rfl
      exact encodeSpine_builtFrom enc recur (.proj s i e) depth _

theorem exists_contracted
    (h : enc.encodeShape recur t depth alternates = some ps) :
    ∃ cs, contracted recur t depth alternates = some cs := by
  cases t with
  | lam n info domain body =>
      rw [encodeShape_lam] at h
      obtain ⟨direct, -, h⟩ := Option.bind_eq_some_iff.mp h
      obtain ⟨cs, hcs, -⟩ := Option.bind_eq_some_iff.mp h
      exact ⟨cs, hcs⟩
  | _ => cases alternates <;> exact ⟨[], rfl⟩

/-- A node is encoded if its parts are, and its contracted form is. -/
theorem exists_encodeShape {cs : List Pattern}
    (hcs : contracted recur t depth alternates = some cs)
    (hparts : ∀ x ∈ (enc.view t depth).parts, ∃ ps,
      View.part [.star none] (recur · · alternates) x = some ps) :
    ∃ ps, enc.encodeShape recur t depth alternates = some ps := by
  obtain ⟨out, hout, -⟩ := encodeShape_builtFrom enc hcs
  obtain ⟨lists, hlists⟩ := exists_mapM_iff.mpr hparts
  rw [hout, partsOf, hlists]
  exact ⟨out lists, rfl⟩

/-! ## The whole term -/

/-- These are the direct encodings of the parts of a view. -/
def Parts (enc : Encoder) (fuel : Nat) (v : View) (as : List Pattern) : Prop :=
  List.Forall₂ (fun x a => View.part (.star none) (enc.direct fuel) x = some a)
    v.parts as

theorem direct_eq_some_iff {fuel : Nat} {p : Pattern} :
    enc.direct (fuel + 1) t depth = some p ↔
      (enc.host.reduce enc.options.policy t = some .hidden ∧ p = .hidden)
      ∨ ∃ t' as, enc.host.reduce enc.options.policy t = some (.term t')
        ∧ enc.Parts fuel (enc.view (enc.convert t') depth) as
        ∧ p = (enc.view (enc.convert t') depth).build as := by
  simp only [direct, Parts, ← mapM_eq_some_iff]
  cases enc.host.reduce enc.options.policy t with
  | none => simp
  | some r =>
      cases r with
      | hidden => simp [@eq_comm _ p]
      | term t' => simp [Option.bind_eq_some_iff, @eq_comm _ p]

/-- The encodings of a term begin with the direct one. -/
theorem encode_head {fuel : Nat}
    (h : enc.encode fuel t depth alternates = some ps) :
    ∃ p, enc.direct fuel t depth = some p ∧ ps.head? = some p := by
  induction fuel generalizing t depth ps with
  | zero => cases h
  | succ fuel ih =>
      obtain ⟨r, hr, h⟩ := Option.bind_eq_some_iff.mp h
      simp only [direct_eq_some_iff, hr]
      cases r with
      | hidden =>
          obtain rfl := Option.some.inj h
          exact ⟨.hidden, Or.inl ⟨rfl, rfl⟩, rfl⟩
      | term t' =>
          obtain ⟨cs, hcs⟩ := exists_contracted h
          obtain ⟨out, hout, hass⟩ := encodeShape_builtFrom enc hcs
          obtain ⟨lists, hlists, rfl⟩ :=
            Option.map_eq_some_iff.mp (hout.symm.trans h)
          -- The lists of the parts begin with their direct encodings.
          obtain ⟨as, has, hheads⟩ :
              ∃ as, enc.Parts fuel (enc.view (enc.convert t') depth) as
                ∧ Firsts lists as := by
            refine forall₂_exists ?_ (mapM_eq_some_iff.mp hlists)
            rintro (_ | ⟨t, d⟩) l hl
            · obtain rfl := Option.some.inj hl
              exact ⟨.star none, rfl, rfl⟩
            · exact ih hl
          exact ⟨_, Or.inr ⟨t', as, rfl, has, rfl⟩, hass.first lists as hheads⟩

/-- Without alternates, a term that has a direct encoding is encoded. -/
theorem encode_of_direct {fuel : Nat} {p : Pattern}
    (h : enc.direct fuel t depth = some p) :
    ∃ ps, enc.encode fuel t depth false = some ps := by
  induction fuel generalizing t depth p with
  | zero => cases h
  | succ fuel ih =>
      simp only [encode, Option.bind_eq_bind, Option.bind_eq_some_iff]
      rcases direct_eq_some_iff.mp h with ⟨hr, -⟩ | ⟨t', as, hr, has, -⟩
      · exact ⟨[.hidden], _, hr, rfl⟩
      · obtain ⟨ps, hps⟩ := exists_encodeShape (contracted_false
          (enc.encode fuel) (enc.convert t') depth) fun x hx => by
            obtain ⟨a, ha⟩ :=
              exists_mapM_iff.mp ⟨as, mapM_eq_some_iff.mpr has⟩ x hx
            cases x with
            | none => exact ⟨[.star none], rfl⟩
            | some x => exact ih ha
        exact ⟨ps, _, hr, hps⟩

/-- The encoding of a query is the direct one. -/
theorem encodeOne_eq (enc : Encoder) (t : Term) :
    enc.encodeOne t = enc.direct enc.host.fuel t 0 := by
  unfold encodeOne
  cases hdirect : enc.direct enc.host.fuel t 0 with
  | none =>
      cases hencode : enc.encode enc.host.fuel t 0 false with
      | none => rfl
      | some ps =>
          obtain ⟨p, hp, -⟩ := encode_head hencode
          cases hdirect.symm.trans hp
  | some p =>
      obtain ⟨ps, hps⟩ := encode_of_direct hdirect
      obtain ⟨p', hp', hhead⟩ := encode_head hps
      obtain rfl := Option.some.inj (hdirect.symm.trans hp')
      obtain ⟨ps, rfl⟩ := List.head?_eq_some_iff.mp hhead
      rw [hps]
      rfl

/-- The encodings of a stored term survive the cap with the direct one first. -/
theorem encodeAll_head (h : enc.encodeAll t = some ps) :
    ∃ p, enc.direct enc.host.fuel t 0 = some p ∧ ps.head? = some p := by
  obtain ⟨all, hall, h⟩ := Option.bind_eq_some_iff.mp h
  obtain rfl := Option.some.inj h
  obtain ⟨p, hp, hhead⟩ := encode_head hall
  exact ⟨p, hp, by rw [head?_take_cap, hhead]⟩

end Encoder

namespace Index

variable {α : Type} {ix : Index α} {host : Host} {t : Term}

theorem query_of_direct {o : LookupOptions} {q : Pattern}
    (h : (ix.encoder host (.query o.unify)).direct host.fuel t 0 = some q) :
    ix.query host o t = .ok q := by
  rw [query, Encoder.encodeOne_eq]
  exact congrArg finished h

theorem encodings_eq_ok_iff {ps : List Pattern} :
    ix.encodings host t = .ok ps
      ↔ (ix.encoder host .store).encodeAll t = some ps := by
  unfold encodings
  cases (ix.encoder host .store).encodeAll t with
  | none => exact ⟨nofun, nofun⟩
  | some ps' => simp [finished]

/-- The direct encoding of a term is the first one that is stored. -/
theorem direct_of_encodings {ps : List Pattern}
    (h : ix.encodings host t = .ok ps) :
    ∃ p rest, (ix.encoder host .store).direct host.fuel t 0 = some p
      ∧ ps = p :: rest := by
  obtain ⟨p, hp, hhead⟩ := Encoder.encodeAll_head (encodings_eq_ok_iff.mp h)
  obtain ⟨rest, rfl⟩ := List.head?_eq_some_iff.mp hhead
  exact ⟨p, rest, hp, rfl⟩

end Index

end TermIndex
