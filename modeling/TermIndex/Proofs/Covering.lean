import TermIndex.Proofs.Fits

/-!
# Patterns that cover others

Encodings of two terms of which one is an instance of the other differ in two
ways. Where the general one has the wildcard of a metavariable, the special one
has what the metavariable stands for; and either may have an anonymous wildcard
in the place of a whole subtree, since each encoding leaves out arguments on its
own. `Covers τ ds es` says that there is no other difference, if `τ` is what the
metavariables stand for.

Then each of them finds the other, if the special patterns have only anonymous
wildcards. Either the general patterns are stored and the special ones fit them
(`fits_stored`), or the other way round (`fits_query`). In both cases what the
stars take is chosen while they are numbered, along the derivation.
-/

namespace TermIndex

/-- The patterns differ only where the first ones have a metavariable `m`, and
the second ones `τ m`, or where one of them has an anonymous wildcard. -/
inductive Covers (τ : MVar → Pattern) : List Pattern → List Pattern → Prop
  | nil : Covers τ [] []
  | mvar {m : MVar} {ds es : List Pattern} (h : Covers τ ds es) :
      Covers τ (.star (some m) :: ds) (τ m :: es)
  | left {e : Pattern} {ds es : List Pattern} (h : Covers τ ds es) :
      Covers τ (.star none :: ds) (e :: es)
  | right {d : Pattern} {ds es : List Pattern} (h : Covers τ ds es) :
      Covers τ (d :: ds) (.star none :: es)
  | node {d e : Pattern} {k : Key} {ds es : List Pattern}
      (hd : d.key? = some k) (he : e.key? = some k)
      (h : Covers τ (d.children ++ ds) (e.children ++ es)) :
      Covers τ (d :: ds) (e :: es)

variable {τ : MVar → Pattern} {ds es : List Pattern}

theorem Covers.append {ds' es' : List Pattern} (h : Covers τ ds es)
    (h' : Covers τ ds' es') : Covers τ (ds ++ ds') (es ++ es') := by
  induction h with
  | nil => exact h'
  | mvar _ ih => exact .mvar ih
  | left _ ih => exact .left ih
  | right _ ih => exact .right ih
  | node hd he _ ih =>
      rw [List.append_assoc, List.append_assoc] at ih
      exact .node hd he ih

theorem covers_of_forall₂
    (h : List.Forall₂ (fun d e => Covers τ [d] [e]) ds es) :
    Covers τ ds es := by
  induction h with
  | nil => exact .nil
  | cons hde _ ih => exact hde.append ih

theorem Covers.of_children {d e : Pattern} {k : Key} (hd : d.key? = some k)
    (he : e.key? = some k) (h : Covers τ d.children e.children) :
    Covers τ [d] [e] :=
  .node hd he (by rwa [List.append_nil, List.append_nil])

/-! ## What stars stand for -/

/-- The stars are bound to these patterns, in the order of their numbers. -/
def Bindings.Takes (b : Bindings) (xs : List Pattern) : Prop :=
  ∀ id p, xs[id]? = some p → b.star id = p

theorem Bindings.Takes.of_append {b : Bindings} {xs ys : List Pattern}
    (h : b.Takes (xs ++ ys)) : b.Takes xs := by
  intro id p hp
  refine h id p ?_
  rw [List.getElem?_append_left (List.getElem?_eq_some_iff.mp hp).1, hp]

theorem Bindings.takes_getD (xs : List Pattern) (mvar : MVar → List Key) :
    Bindings.Takes ⟨fun id => xs[id]?.getD .hidden, mvar⟩ xs := by
  intro id p hp
  simp [hp]

/-- A choice of patterns for the wildcards that are numbered so far. -/
structure Chosen (τ : MVar → Pattern) (seen : List (Option MVar))
    (xs : List Pattern) : Prop where
  length : xs.length = seen.length
  mvar : ∀ (id : Nat) (x : MVar), seen[id]? = some (some x) →
    xs[id]? = some (τ x)

theorem Chosen.nil : Chosen τ [] [] := ⟨rfl, fun _ _ h => by cases h⟩

variable {seen : List (Option MVar)} {xs : List Pattern}

/-- A wildcard that is numbered gets a choice, if that agrees with its
metavariable. -/
theorem Chosen.wild (h : Chosen τ seen xs) {m : Option MVar} {p : Pattern}
    (hp : ∀ x, m = some x → τ x = p) (rest : List Slot) :
    ∃ id seen' ys, Slot.numberedFrom seen (.wild m :: rest)
        = (.star id :: (Slot.numberedFrom seen' rest).1,
          (Slot.numberedFrom seen' rest).2)
      ∧ Chosen τ seen' (xs ++ ys) ∧ (xs ++ ys)[id]? = some p := by
  obtain ⟨id, seen', heq, hcases⟩ := Slot.numberedFrom_wild seen m rest
  refine ⟨id, seen', ?_⟩
  rcases hcases with ⟨rfl, hm, hid⟩ | ⟨rfl, rfl, -⟩
  · obtain ⟨x, rfl⟩ := Option.ne_none_iff_exists'.mp hm
    obtain ⟨hlt, hget, -⟩ := List.idxOf?_eq_some_iff.mp hid
    refine ⟨[], heq, by rwa [List.append_nil], ?_⟩
    rw [List.append_nil, ← hp x rfl]
    exact h.mvar id x (List.getElem?_eq_some_iff.mpr ⟨hlt, hget⟩)
  · have hlast : (xs ++ [p])[seen.length]? = some p := by simp [← h.length]
    refine ⟨[p], heq, ⟨by simp [h.length], fun id x hid => ?_⟩, hlast⟩
    by_cases hlt : id < seen.length
    · rw [List.getElem?_append_left hlt] at hid
      rw [List.getElem?_append_left (h.length ▸ hlt)]
      exact h.mvar id x hid
    · obtain rfl : id = seen.length := by
        have hle := (List.getElem?_eq_some_iff.mp hid).1
        rw [List.length_append, List.length_singleton] at hle
        omega
      rw [hlast, ← hp x (by simpa using hid)]

/-- Every wildcard of some slots gets a choice. -/
theorem Chosen.slots (slots : List Slot) : ∀ {seen : List (Option MVar)}
    {xs : List Pattern}, Chosen τ seen xs →
      ∃ ys, Chosen τ (Slot.numberedFrom seen slots).2 (xs ++ ys) := by
  induction slots with
  | nil => exact fun h => ⟨[], by rwa [List.append_nil]⟩
  | cons slot rest ih =>
      intro seen xs h
      cases slot with
      | key k => exact ih h
      | wild m =>
          obtain ⟨id, seen', ys, heq, h', -⟩ :=
            h.wild (m := m) (p := (m.map τ).getD .hidden)
              (by rintro x rfl; rfl) rest
          obtain ⟨zs, hzs⟩ := ih h'
          rw [List.append_assoc] at hzs
          exact ⟨ys ++ zs, by rwa [heq]⟩

/-! ## Fitting while the stars are numbered -/

/-- The keys that a metavariable skips: those of the pattern at its place, from
some number on. -/
def Skips (place : MVar × Pattern) (skipped : MVar × List Key) : Prop :=
  place.1 = skipped.1
    ∧ ∃ seen, skipped.2 = (Slot.numberedFrom seen place.2.slots).1

/-- However the slots before these are numbered, the patterns fit the keys of
these slots, if their stars take what is chosen for them and the metavariables
skip what stands at their places. -/
def FitsSlots (o : LookupOptions) (τ : MVar → Pattern) (ps : List Pattern)
    (slots : List Slot) (places : List (MVar × Pattern)) : Prop :=
  ∀ (seen : List (Option MVar)) (xs : List Pattern), Chosen τ seen xs →
    ∃ ys skipped, Chosen τ (Slot.numberedFrom seen slots).2 (xs ++ ys)
      ∧ List.Forall₂ Skips places skipped
      ∧ ∀ b : Bindings, b.Takes (xs ++ ys) →
        (∀ s ∈ skipped, b.mvar s.1 = s.2) →
          ∃ taken worth,
            Fits o b ps (Slot.numberedFrom seen slots).1 taken worth

namespace FitsSlots

variable {o : LookupOptions} {ps : List Pattern} {slots : List Slot}
  {places : List (MVar × Pattern)}

theorem nil : FitsSlots o τ [] [] [] := by
  intro seen xs h
  exact ⟨[], [], by rwa [List.append_nil], .nil, fun b _ _ => ⟨_, _, .nil⟩⟩

theorem node {p : Pattern} {k : Key} (hk : p.key? = some k)
    (h : FitsSlots o τ (p.children ++ ps) slots places) :
    FitsSlots o τ (p :: ps) (.key k :: slots) places := by
  intro seen xs hxs
  obtain ⟨ys, skipped, hys, hskips, hfits⟩ := h seen xs hxs
  refine ⟨ys, skipped, hys, hskips, fun b hb hmvar => ?_⟩
  obtain ⟨taken, worth, hks⟩ := hfits b hb hmvar
  exact ⟨taken, _, .node hk hks⟩

/-- A stored wildcard takes what is no live wildcard, and agrees with its
own metavariable. -/
theorem take {p : Pattern} {m : Option MVar}
    (hlive : ∀ x, p = .star x → ¬ o.Live x) (hm : ∀ x, m = some x → τ x = p)
    (h : FitsSlots o τ ps slots places) :
    FitsSlots o τ (p :: ps) (.wild m :: slots) places := by
  intro seen xs hxs
  obtain ⟨id, seen', ys, heq, hys, hid⟩ := hxs.wild hm slots
  obtain ⟨zs, skipped, hzs, hskips, hfits⟩ := h _ _ hys
  rw [List.append_assoc] at hzs hfits
  rw [heq]
  refine ⟨ys ++ zs, skipped, hzs, hskips, fun b hb hmvar => ?_⟩
  obtain ⟨taken, worth, hks⟩ := hfits b hb hmvar
  have hbound : b.star id = p := by
    rw [← List.append_assoc] at hb
    exact hb.of_append id p hid
  exact ⟨_, _, .take hlive hbound hks⟩

/-- A live wildcard skips any stored pattern, which is at the place of its
metavariable. -/
theorem skip {m : Option MVar} {e : Pattern} (hlive : o.Live m)
    (h : FitsSlots o τ ps slots places) :
    FitsSlots o τ (.star m :: ps) (e.slots ++ slots)
      ((m.map (·, e)).toList ++ places) := by
  intro seen xs hxs
  obtain ⟨ys, hys⟩ := hxs.slots e.slots
  obtain ⟨zs, skipped, hzs, hskips, hfits⟩ := h _ _ hys
  obtain ⟨hfront, -⟩ := e.spells_slots seen
  rw [List.append_assoc] at hzs hfits
  rw [Slot.numberedFrom_append]
  cases m with
  | none =>
      refine ⟨ys ++ zs, skipped, hzs, hskips, fun b hb hmvar => ?_⟩
      obtain ⟨taken, worth, hks⟩ := hfits b hb hmvar
      exact ⟨_, _, .skip hlive hfront nofun hks⟩
  | some m =>
      refine ⟨ys ++ zs, (m, (Slot.numberedFrom seen e.slots).1) :: skipped, hzs,
        .cons ⟨rfl, seen, rfl⟩ hskips, fun b hb hmvar => ?_⟩
      obtain ⟨hm, hmvar⟩ := List.forall_mem_cons.mp hmvar
      obtain ⟨taken, worth, hks⟩ := hfits b hb hmvar
      refine ⟨_, _, .skip hlive hfront ?_ hks⟩
      rintro x ⟨⟩
      exact hm

end FitsSlots

/-! ## The general patterns are stored -/

/-- No pattern has a wildcard with a metavariable. -/
def Anonymous (ps : List Pattern) : Prop :=
  ∀ m ∈ Pattern.wildcardsAll ps, m = none

theorem Anonymous.cons {p : Pattern} {ps : List Pattern}
    (h : Anonymous (p :: ps)) :
    (∀ m, p = .star m → m = none) ∧ Anonymous ps := by
  rw [Anonymous, Pattern.wildcardsAll_cons] at h
  obtain ⟨hp, hps⟩ := List.forall_mem_append.mp h
  refine ⟨?_, hps⟩
  rintro m rfl
  exact hp m (List.mem_singleton_self m)

theorem Anonymous.below {p : Pattern} {k : Key} {ps : List Pattern}
    (hk : p.key? = some k) (h : Anonymous (p :: ps)) :
    Anonymous (p.children ++ ps) := by
  rwa [Anonymous, Pattern.wildcardsAll_of_key hk] at h

/-- A stored wildcard meets a pattern that has no metavariable. -/
theorem FitsSlots.star {o : LookupOptions} {e : Pattern} {m : Option MVar}
    {slots : List Slot} (he : ∀ x, e = .star x → x = none)
    (hm : ∀ x, m = some x → τ x = e) (h : FitsSlots o τ es slots []) :
    FitsSlots o τ (e :: es) (.wild m :: slots) [] := by
  by_cases hstar : e = .star none
  · subst hstar
    exact FitsSlots.skip (e := .star m) (Or.inl rfl) h
  · refine FitsSlots.take (fun x hx _ => hstar ?_) hm h
    rw [hx, he x hx]

/-- Special patterns fit the keys of general ones. -/
theorem Covers.fitsSlots_stored {o : LookupOptions} (h : Covers τ ds es)
    (hes : Anonymous es) : FitsSlots o τ es (Pattern.slotsAll ds) [] := by
  induction h with
  | nil => exact FitsSlots.nil
  | mvar _ ih =>
      obtain ⟨he, hes⟩ := hes.cons
      exact FitsSlots.star he (by rintro x ⟨⟩; rfl) (ih hes)
  | left _ ih =>
      obtain ⟨he, hes⟩ := hes.cons
      exact FitsSlots.star (m := none) he nofun (ih hes)
  | right _ ih => exact FitsSlots.skip (Or.inl rfl) (ih hes.cons.2)
  | node hd he _ ih =>
      rw [Pattern.slotsAll_of_key hd]
      exact FitsSlots.node he (ih (hes.below he))

/-- The special pattern finds the general one. -/
theorem Covers.fits_stored {o : LookupOptions} {d e : Pattern}
    (h : Covers τ [d] [e]) (he : Anonymous [e]) :
    ∃ b taken worth, Fits o b [e] d.keys taken worth := by
  obtain ⟨ys, skipped, -, hskips, hfits⟩ := h.fitsSlots_stored he [] [] .nil
  cases hskips
  rw [Pattern.slotsAll_singleton] at hfits
  exact ⟨_, hfits _ (Bindings.takes_getD _ fun _ => []) nofun⟩

/-! ## The special patterns are stored -/

namespace Pattern

mutual

/-- What stands in the second pattern where the first one has a
metavariable. -/
def places : Pattern → Pattern → List (MVar × Pattern)
  | .star (some m), e => [(m, e)]
  | .app _ args, e => placesAll args e.children
  | .lam body, e =>
    match e.children with
    | [body'] => places body body'
    | _ => []
  | .pi domain body, e =>
    match e.children with
    | [domain', body'] => places domain domain' ++ places body body'
    | _ => []
  | .proj _ _ value args, e =>
    match e.children with
    | value' :: args' => places value value' ++ placesAll args args'
    | [] => []
  | _, _ => []

def placesAll : List Pattern → List Pattern → List (MVar × Pattern)
  | d :: ds, e :: es => places d e ++ placesAll ds es
  | _, _ => []

end

theorem placesAll_append {ds es : List Pattern} (h : ds.length = es.length)
    (ds' es' : List Pattern) :
    placesAll (ds ++ ds') (es ++ es')
      = placesAll ds es ++ placesAll ds' es' := by
  induction ds generalizing es with
  | nil =>
      cases es with
      | nil => rfl
      | cons e es => cases h
  | cons d ds ih =>
      cases es with
      | nil => cases h
      | cons e es =>
          simp [placesAll, ih (Nat.succ.inj h)]

theorem placesAll_star (m : Option MVar) (e : Pattern) (ds es : List Pattern) :
    placesAll (.star m :: ds) (e :: es)
      = (m.map (·, e)).toList ++ placesAll ds es := by
  cases m <;> rfl

/-- Nothing stands below a wildcard. -/
theorem placesAll_leaf {d : Pattern} {k : Key} (hd : d.key? = some k)
    (m : Option MVar) (ds es : List Pattern) :
    placesAll (d :: ds) (.star m :: es) = placesAll ds es := by
  cases d with
  | star m => cases hd
  | app h args => cases args <;> rfl
  | _ => rfl

theorem placesAll_of_key {d e : Pattern} {k : Key} (hd : d.key? = some k)
    (he : e.key? = some k) (ds es : List Pattern) :
    placesAll (d :: ds) (e :: es)
      = placesAll (d.children ++ ds) (e.children ++ es) := by
  have hlength : d.children.length = e.children.length := by
    rw [length_children hd, length_children he]
  rw [placesAll_append hlength, placesAll]
  congr 1
  cases d with
  | star m => cases hd
  | lam body =>
      obtain ⟨body', he'⟩ := List.length_eq_one_iff.mp hlength.symm
      rw [places, he']
      simp [placesAll, children]
  | pi domain body =>
      obtain ⟨domain', body', he'⟩ := List.length_eq_two.mp hlength.symm
      rw [places, he']
      simp [placesAll, children]
  | proj s i value args =>
      obtain ⟨value', args', he'⟩ :=
        List.exists_cons_of_length_eq_add_one hlength.symm
      rw [places, he']
      simp [placesAll, children]
  | _ => simp [places, placesAll, children]

end Pattern

/-- General patterns fit the keys of special ones. -/
theorem Covers.fitsSlots_query {o : LookupOptions} (ho : o.unify = true)
    (h : Covers τ ds es) (hes : Anonymous es) :
    FitsSlots o τ ds (Pattern.slotsAll es) (Pattern.placesAll ds es) := by
  have hlive : ∀ m, o.Live m := fun m => Or.inr ho
  induction h with
  | nil => exact FitsSlots.nil
  | mvar _ ih =>
      rw [Pattern.placesAll_star]
      exact FitsSlots.skip (hlive _) (ih hes.cons.2)
  | left _ ih =>
      rw [Pattern.placesAll_star]
      exact FitsSlots.skip (hlive _) (ih hes.cons.2)
  | @right d ds es _ ih =>
      replace ih := ih hes.cons.2
      rcases d.star_or_key with ⟨m, rfl⟩ | ⟨k, hk⟩
      · rw [Pattern.placesAll_star]
        exact FitsSlots.skip (hlive _) ih
      · rw [Pattern.placesAll_leaf hk]
        exact FitsSlots.take (m := none) (Pattern.ne_star_of_key hk) nofun ih
  | node hd he _ ih =>
      rw [Pattern.placesAll_of_key hd he, Pattern.slotsAll_of_key he]
      exact FitsSlots.node hd (ih (hes.below he))

/-- At the place of a metavariable stands what it stands for, unless that is
left out. -/
theorem Covers.of_mem_places (h : Covers τ ds es) :
    ∀ x ∈ Pattern.placesAll ds es, x.2 = τ x.1 ∨ x.2 = .star none := by
  induction h with
  | nil => exact nofun
  | mvar _ ih =>
      rw [Pattern.placesAll_star]
      exact List.forall_mem_cons.mpr ⟨Or.inl rfl, ih⟩
  | left _ ih =>
      rw [Pattern.placesAll_star]
      exact ih
  | @right d ds es _ ih =>
      rcases d.star_or_key with ⟨m, rfl⟩ | ⟨k, hk⟩
      · rw [Pattern.placesAll_star]
        refine List.forall_mem_append.mpr ⟨fun x hx => ?_, ih⟩
        obtain ⟨y, -, rfl⟩ :=
          Option.map_eq_some_iff.mp (Option.mem_toList.mp hx)
        exact Or.inr rfl
      · rwa [Pattern.placesAll_leaf hk]
  | node hd he _ ih => rwa [Pattern.placesAll_of_key hd he]

/-- No two places of a metavariable in the first pattern have a wildcard in the
second one. -/
def Pattern.Faithful (d e : Pattern) : Prop :=
  (places d e).Pairwise fun x y => x.1 = y.1 →
    x.2.wildcards = [] ∧ y.2.wildcards = []

/-- Patterns without wildcards are skipped by the same keys everywhere. -/
theorem Skips.eq_of_eq {x y : MVar × Pattern} {s t : MVar × List Key}
    (hs : Skips x s) (ht : Skips y t) (hxy : x.2 = y.2)
    (hx : x.2.wildcards = []) : s.2 = t.2 := by
  obtain ⟨-, seen, hs⟩ := hs
  obtain ⟨-, seen', ht⟩ := ht
  obtain ⟨ks, hks⟩ := Slot.exists_keys hx
  rw [hs, ht, ← hxy, hks, Slot.numberedFrom_keys, Slot.numberedFrom_keys]

theorem lookup_of_pairwise {β γ : Type} [BEq β] [LawfulBEq β]
    {ss : List (β × γ)} (h : ss.Pairwise fun s t => s.1 = t.1 → s.2 = t.2) :
    ∀ s ∈ ss, ss.lookup s.1 = some s.2 := by
  induction h with
  | nil => exact nofun
  | @cons s ss hs _ ih =>
      refine List.forall_mem_cons.mpr ⟨List.lookup_cons_self, fun t ht => ?_⟩
      by_cases hts : t.1 = s.1
      · rw [hts, List.lookup_cons_self, hs t ht hts.symm]
      · rw [List.lookup_cons, beq_eq_false_iff_ne.mpr hts]
        exact ih t ht

/-- The general pattern finds the special one, if its metavariables skip the
same keys everywhere. -/
theorem Covers.fits_query {o : LookupOptions} (ho : o.unify = true)
    {d e : Pattern} (h : Covers τ [d] [e]) (he : Anonymous [e])
    (hfaithful : d.Faithful e) :
    ∃ b taken worth, Fits o b [d] e.keys taken worth := by
  obtain ⟨ys, skipped, -, hskips, hfits⟩ := h.fitsSlots_query ho he [] [] .nil
  have hplaces : Pattern.placesAll [d] [e] = d.places e :=
    List.append_nil _
  rw [Pattern.slotsAll_singleton] at hfits
  have hstand : ∀ x ∈ Pattern.placesAll [d] [e], x.2.wildcards = [] →
      x.2 = τ x.1 := by
    intro x hx hwild
    refine (h.of_mem_places x hx).resolve_right fun hnone => ?_
    rw [hnone] at hwild
    cases hwild
  have hmvar : skipped.Pairwise fun s t => s.1 = t.1 → s.2 = t.2 := by
    rw [Pattern.Faithful, ← hplaces, List.pairwise_iff_getElem] at hfaithful
    obtain ⟨hlength, hget⟩ := List.forall₂_iff_get.mp hskips
    refine List.pairwise_iff_getElem.mpr fun i j hi hj hij hst => ?_
    have hs := hget i (hlength ▸ hi) hi
    have ht := hget j (hlength ▸ hj) hj
    have hxy := hs.1.trans (hst.trans ht.1.symm)
    obtain ⟨hx, hy⟩ := hfaithful i j _ _ hij hxy
    refine hs.eq_of_eq ht ?_ hx
    rw [hstand _ (List.get_mem _ _) hx, hstand _ (List.get_mem _ _) hy, hxy]
  refine ⟨_, hfits _ (Bindings.takes_getD _ fun m => (skipped.lookup m).getD [])
    fun s hs => ?_⟩
  simp [lookup_of_pairwise hmvar s hs]

end TermIndex
