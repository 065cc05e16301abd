import TermIndex.Proofs.Bindings

/-!
# What a search finds

What a walk may do next depends on what it has bound. `Fits` says what this
comes to, with all bindings chosen beforehand: patterns fit a sequence if, from
the left, every node of the query meets its key, every stored star takes the
subtree it is bound to, and every live wildcard of the query skips the keys it
is bound to.

A query follows a sequence exactly if it fits it under some bindings, those
that the walk ends with (`fitted_of_follow`, `follow_of_fits`). So what a search
finds is stated and proved about `Fits` (`fits_of_hitOn`, `hitOn_of_fits`).
-/

namespace TermIndex

/-- The wildcards of a query that skip stored subtrees: those without a
metavariable, and with unification all of them. -/
def LookupOptions.Live (o : LookupOptions) (m : Option MVar) : Prop :=
  m = none ∨ o.unify

/-- The patterns of a query fit the keys. The stars in `taken` have taken
something, each one as often as it stands there; `worth` is the worth of the
match if all of this counts. -/
inductive Fits (o : LookupOptions) (b : Bindings) :
    List Pattern → List Key → List Nat → Nat → Prop
  | nil : Fits o b [] [] [] 0
  | node {p : Pattern} {k : Key} {ps : List Pattern} {ks : List Key}
      {taken : List Nat} {worth : Nat} (hkey : p.key? = some k)
      (h : Fits o b (p.children ++ ps) ks taken worth) :
      Fits o b (p :: ps) (k :: ks) taken (k.worth + worth)
  | take {p : Pattern} {id : Nat} {ps : List Pattern} {ks : List Key}
      {taken : List Nat} {worth : Nat}
      (hlive : ∀ m, p = .star m → ¬ o.Live m) (hbound : b.star id = p)
      (h : Fits o b ps ks taken worth) :
      Fits o b (p :: ps) (.star id :: ks) (id :: taken) (p.size + worth)
  | skip {m : Option MVar} {front : List Key} {ps : List Pattern}
      {ks : List Key} {taken : List Nat} {worth : Nat}
      (hlive : o.Live m) (hfront : Key.Completes 1 front)
      (hbound : ∀ x, m = some x → b.mvar x = front)
      (h : Fits o b ps ks taken worth) :
      Fits o b (.star m :: ps) (front ++ ks) taken (skipWorth front + worth)

theorem Pattern.ne_star_of_key {o : LookupOptions} {p : Pattern} {k : Key}
    (h : p.key? = some k) : ∀ m, p = .star m → ¬ o.Live m := by
  rintro m rfl
  cases h

theorem Fits.completes {o : LookupOptions} {b : Bindings} {ps : List Pattern}
    {ks : List Key} {taken : List Nat} {worth : Nat}
    (h : Fits o b ps ks taken worth) : Key.Completes ps.length ks := by
  induction h with
  | nil => exact Key.Completes.nil
  | @node p k ps ks taken worth hkey _ ih =>
      rw [List.length_append, Pattern.length_children hkey, Nat.add_comm] at ih
      exact Key.completes_cons_iff.mpr ⟨ps.length, rfl, ih⟩
  | @take p id ps ks taken worth _ _ _ ih =>
      exact Key.completes_cons_iff.mpr ⟨ps.length, rfl, ih⟩
  | @skip m front ps ks taken worth _ hfront _ _ ih =>
      rw [List.length_cons, Nat.add_comm]
      exact hfront.append ih

namespace Walk

variable {α : Type} {o : LookupOptions} {b : Bindings} {w w' : Walk α}

/-! ## Following, one pattern at a time -/

theorem follow_live {m : Option MVar} (hm : o.Live m) (w : Walk α) :
    follow o (.star m) w = if w.starsAllowed o then w.skip m else none := by
  have hor : m = none ∨ o.unify = true := hm
  rw [follow, if_pos hor]
  rfl

theorem follow_eq_around {p : Pattern} (hp : ∀ m, p = .star m → ¬ o.Live m)
    (w : Walk α) : follow o p w = around o p (followAll o p.children) w := by
  have hnil : (followAll o [] : Walk α → Option (Walk α)) = some := rfl
  cases p with
  | star m =>
      have hor : ¬ (m = none ∨ o.unify = true) := hp m rfl
      rw [follow, if_neg hor, Pattern.children, hnil]
  | lam body | pi domain body =>
      simp only [follow, Pattern.children, followAll, Option.bind_fun_some]
  | proj s i value args => simp only [follow, Pattern.children, followAll]
  | _ => simp only [follow, Pattern.children, hnil]

theorem followAll_cons (p : Pattern) (ps : List Pattern) (w : Walk α) :
    followAll o (p :: ps) w = (follow o p w).bind (followAll o ps) := rfl

theorem followAll_append (ps qs : List Pattern) : ∀ w : Walk α,
    followAll o (ps ++ qs) w = (followAll o ps w).bind (followAll o qs) := by
  induction ps with
  | nil => exact fun w => rfl
  | cons p ps ih =>
      intro w
      simp only [List.cons_append, followAll, Option.bind_assoc]
      exact congrArg _ (funext ih)

/-- A live wildcard skips a subtree. -/
theorem followAll_live_eq_some {m : Option MVar} {ps : List Pattern}
    (hm : o.Live m) :
    followAll o (.star m :: ps) w = some w' ↔
      w.starsAllowed o = true
        ∧ ∃ v, w.skip m = some v ∧ followAll o ps v = some w' := by
  rw [followAll_cons, follow_live hm, Option.bind_eq_some_iff]
  cases w.starsAllowed o with
  | true => simp
  | false => simp

/-- A node of the query goes on behind its key, or a star takes it. -/
theorem followAll_cons_eq_some {p : Pattern} {ps : List Pattern}
    (hp : ∀ m, p = .star m → ¬ o.Live m) :
    followAll o (p :: ps) w = some w' ↔
      (∃ k v, p.key? = some k ∧ w.exact k = some v
        ∧ followAll o (p.children ++ ps) v = some w')
      ∨ (w.starsAllowed o = true
        ∧ ∃ v, w.taken p = some v ∧ followAll o ps v = some w') := by
  rw [followAll_cons, Option.bind_eq_some_iff]
  simp only [follow_eq_around hp, around, followAll_append]
  constructor
  · rintro ⟨v, hv, hps⟩
    rcases Option.or_eq_some_iff.mp hv with hexact | ⟨-, htaken⟩
    · obtain ⟨u, hu, hv⟩ := Option.bind_eq_some_iff.mp hexact
      obtain ⟨k, hk, hu⟩ := Option.bind_eq_some_iff.mp hu
      exact Or.inl ⟨k, u, hk, hu, Option.bind_eq_some_iff.mpr ⟨v, hv, hps⟩⟩
    · split at htaken
      · next hw => exact Or.inr ⟨hw, v, htaken, hps⟩
      · cases htaken
  · rintro (⟨k, u, hk, hu, hbelow⟩ | ⟨hw, v, htaken, hps⟩)
    · obtain ⟨v, hv, hps⟩ := Option.bind_eq_some_iff.mp hbelow
      refine ⟨v, ?_, hps⟩
      simp only [hk, Option.bind_some, hu, hv, Option.some_or]
    · refine ⟨v, ?_, hps⟩
      rcases around_exclusive p (followAll o p.children) w with hnone | hnone
      · simp only [hnone, Option.none_or, if_pos hw, htaken]
      · rw [hnone] at htaken
        cases htaken

/-! ## What is followed fits -/

/-- The patterns fit the keys between two walks, under all bindings that the
second one has. -/
def Fitted (o : LookupOptions) (ps : List Pattern) (w w' : Walk α) : Prop :=
  ∃ ks taken worth, Passes w ks w'
    ∧ ∀ b, Under b w' → Under b w ∧ Fits o b ps ks taken worth

theorem Fitted.nil (w : Walk α) : Fitted o [] w w :=
  ⟨[], [], 0, ⟨rfl, by simp⟩, fun _ hb => ⟨hb, .nil⟩⟩

theorem Fitted.node {p : Pattern} {k : Key} {ps : List Pattern} {v : Walk α}
    (hk : p.key? = some k) (hv : w.exact k = some v)
    (h : Fitted o (p.children ++ ps) v w') : Fitted o (p :: ps) w w' := by
  obtain ⟨hpass, -, hunder⟩ := exact_step hv
  obtain ⟨ks, taken, worth, hpasses, hfits⟩ := h
  refine ⟨k :: ks, taken, k.worth + worth, hpass.trans hpasses, fun b hb => ?_⟩
  obtain ⟨hbv, hks⟩ := hfits b hb
  exact ⟨(hunder b).1.mp hbv, .node hk hks⟩

theorem Fitted.take {p : Pattern} {ps : List Pattern} {v : Walk α}
    (hp : ∀ m, p = .star m → ¬ o.Live m) (hv : w.taken p = some v)
    (h : Fitted o ps v w') : Fitted o (p :: ps) w w' := by
  obtain ⟨id, hpass, -, hunder⟩ := taken_step hv
  obtain ⟨ks, taken, worth, hpasses, hfits⟩ := h
  refine ⟨.star id :: ks, id :: taken, p.size + worth, hpass.trans hpasses,
    fun b hb => ?_⟩
  obtain ⟨hbv, hks⟩ := hfits b hb
  obtain ⟨hbw, hid⟩ := (hunder b).1.mp hbv
  exact ⟨hbw, .take hp hid hks⟩

theorem Fitted.skip {m : Option MVar} {ps : List Pattern} {v : Walk α}
    (hm : o.Live m) (hv : w.skip m = some v) (h : Fitted o ps v w') :
    Fitted o (.star m :: ps) w w' := by
  obtain ⟨front, hfront, hpass, -, hunder⟩ := skip_step hv
  obtain ⟨ks, taken, worth, hpasses, hfits⟩ := h
  refine ⟨front ++ ks, taken, skipWorth front + worth, hpass.trans hpasses,
    fun b hb => ?_⟩
  obtain ⟨hbv, hks⟩ := hfits b hb
  obtain ⟨hbw, hx⟩ := (hunder b).1.mp hbv
  exact ⟨hbw, .skip hm hfront hx hks⟩

theorem fitted_of_follow (ps : List Pattern) : ∀ {w w' : Walk α},
    followAll o ps w = some w' → Fitted o ps w w' := by
  induction ps using Pattern.nodes_induction with
  | nil =>
      intro w w' h
      cases h
      exact .nil w
  | star m ps ih =>
      intro w w' h
      by_cases hm : o.Live m
      · obtain ⟨-, v, hv, h⟩ := (followAll_live_eq_some hm).mp h
        exact .skip hm hv (ih h)
      · have hp : ∀ m', Pattern.star m = .star m' → ¬ o.Live m' := by
          rintro m' ⟨⟩
          exact hm
        rcases (followAll_cons_eq_some hp).mp h with ⟨k, v, hk, -⟩ | ⟨-, h⟩
        · cases hk
        · obtain ⟨v, hv, h⟩ := h
          exact .take hp hv (ih h)
  | node p k ps hk ih ihbelow =>
      intro w w' h
      have hp := Pattern.ne_star_of_key hk (o := o)
      rcases (followAll_cons_eq_some hp).mp h with h | ⟨-, v, hv, h⟩
      · obtain ⟨k', v, hk', hv, h⟩ := h
        exact .node hk' hv (ihbelow h)
      · exact .take hp hv (ih h)

/-! ## What fits is followed -/

/-- Stars are allowed, or there is none at the front of the query or ahead. -/
def Admits (o : LookupOptions) (ps : List Pattern) (w : Walk α) : Prop :=
  w.starsAllowed o = true
    ∨ (∀ m, ps.head? ≠ some (.star m)) ∧ ∀ id, w.ahead.head? ≠ some (.star id)

theorem admits_exact {k : Key} (h : w.exact k = some w')
    (ps : List Pattern) : Admits o ps w' :=
  Or.inl ((exact_step h).1.starsAllowed (List.cons_ne_nil _ _) o)

theorem admits_taken {p : Pattern} (h : w.taken p = some w')
    (ps : List Pattern) : Admits o ps w' := by
  obtain ⟨id, hpass, -⟩ := taken_step h
  exact Or.inl (hpass.starsAllowed (List.cons_ne_nil _ _) o)

theorem admits_skip {m : Option MVar} (h : w.skip m = some w')
    (ps : List Pattern) : Admits o ps w' := by
  obtain ⟨front, hfront, hpass, -⟩ := skip_step h
  obtain ⟨k, rest, rfl, -⟩ := hfront.exists_cons
  exact Or.inl (hpass.starsAllowed (List.cons_ne_nil _ _) o)

theorem admits_of_follow {p : Pattern} {ps : List Pattern}
    (h : followAll o (p :: ps) w = some w') : Admits o (p :: ps) w := by
  by_cases hp : ∀ m, p = .star m → ¬ o.Live m
  · rcases (followAll_cons_eq_some hp).mp h with ⟨k, v, hk, hv, -⟩ | ⟨hw, -⟩
    · refine Or.inr ⟨fun m hm => ?_, fun id hid => ?_⟩
      · obtain rfl : p = .star m := Option.some.inj hm
        cases hk
      · obtain ⟨rest, hahead, -⟩ := exact_eq_some hv
        rw [hahead] at hid
        obtain rfl : k = .star id := Option.some.inj hid
        exact key?_ne_star hk
    · exact Or.inl hw
  · push Not at hp
    obtain ⟨m, rfl, hm⟩ := hp
    exact Or.inl ((followAll_live_eq_some hm).mp h).1

/-- Patterns that fit what is ahead, under bindings that the walk has, are
followed. Every star that takes something is bound, and pays for it. -/
theorem follow_of_fits {ps : List Pattern} {ks : List Key} {taken : List Nat}
    {worth : Nat} (h : Fits o b ps ks taken worth) :
    ∀ {w : Walk α} {rest : List Key}, Admits o ps w →
      w.ahead = ks ++ rest → Under b w →
      ∃ w', followAll o ps w = some w' ∧ Passes w ks w'
        ∧ w'.bound = w.bound ∪ taken.toFinset
        ∧ spent b w' = spent b w + worth := by
  induction h with
  | nil =>
      intro w rest _ _ _
      exact ⟨w, rfl, ⟨rfl, by simp⟩, by simp, rfl⟩
  | @node p k ps ks taken worth hk h ih =>
      intro w rest _ hahead hb
      have hp := Pattern.ne_star_of_key hk (o := o)
      obtain ⟨v, hv⟩ := exact_of_ahead hahead
      obtain ⟨hpass, hbound, hunder⟩ := exact_step hv
      obtain ⟨hbv, hspent⟩ := hunder b
      obtain ⟨w', hw', hpasses, hbound', hspent'⟩ :=
        ih (admits_exact hv _) (hpass.ahead_eq hahead) (hbv.mpr hb)
      refine ⟨w', (followAll_cons_eq_some hp).mpr (Or.inl ⟨k, v, hk, hv, hw'⟩),
        hpass.trans hpasses, ?_, ?_⟩
      · rw [hbound', hbound]
      · rw [hspent', hspent, Nat.add_assoc]
  | @take p id ps ks taken worth hlive hid h ih =>
      intro w rest hw hahead hb
      replace hw : w.starsAllowed o = true :=
        hw.resolve_right fun hnone => hnone.2 id (by rw [hahead]; rfl)
      obtain ⟨v, hv⟩ := taken_of_under hahead hb hid
      obtain ⟨id', hpass, hbound, hunder⟩ := taken_step hv
      obtain rfl : id' = id := by
        have hhead := hpass.ahead.symm.trans hahead
        exact Key.star.inj (List.cons.inj hhead).1
      obtain ⟨hbv, hspent⟩ := hunder b
      obtain ⟨w', hw', hpasses, hbound', hspent'⟩ :=
        ih (admits_taken hv _) (hpass.ahead_eq hahead) (hbv.mpr ⟨hb, hid⟩)
      refine ⟨w',
        (followAll_cons_eq_some hlive).mpr (Or.inr ⟨hw, v, hv, hw'⟩),
        hpass.trans hpasses, ?_, ?_⟩
      · rw [hbound', hbound, List.toFinset_cons, Finset.insert_union,
          Finset.union_insert]
      · rw [hspent', hspent hid, Nat.add_assoc]
  | @skip m front ps ks taken worth hlive hfront hx h ih =>
      intro w rest hw hahead hb
      replace hw : w.starsAllowed o = true :=
        hw.resolve_right fun hnone => hnone.1 m rfl
      rw [List.append_assoc] at hahead
      obtain ⟨v, hv⟩ := skip_of_under hahead hfront hb hx
      obtain ⟨front', hfront', hpass, hbound, hunder⟩ := skip_step hv
      obtain ⟨rfl, hrest⟩ :=
        hfront'.append_inj hfront (hpass.ahead.symm.trans hahead)
      obtain ⟨hbv, hspent⟩ := hunder b
      obtain ⟨w', hw', hpasses, hbound', hspent'⟩ :=
        ih (admits_skip hv _) hrest (hbv.mpr ⟨hb, hx⟩)
      refine ⟨w', (followAll_live_eq_some hlive).mpr ⟨hw, v, hv, hw'⟩,
        hpass.trans hpasses, ?_, ?_⟩
      · rw [hbound', hbound]
      · rw [hspent', hspent, Nat.add_assoc]

end Walk

namespace Search

/-! ## Hits -/

variable {α : Type} {o : LookupOptions} {query : Pattern}
  {e : List Key × List α}

/-- The root lets a query and a sequence through: stars are allowed there, or
neither is a star on its own. -/
def RootAllows (o : LookupOptions) (query : Pattern) (ks : List Key) : Prop :=
  o.allowRootStar = true
    ∨ query.isStar = false ∧ ∀ id, ks.head? ≠ some (.star id)

theorem admits_start_iff :
    (Walk.start e).Admits o [query] ↔ RootAllows o query e.1 := by
  have hstar : (∀ m, [query].head? ≠ some (.star m))
      ↔ query.isStar = false := by
    cases query <;> simp [Pattern.isStar]
  rw [Walk.Admits, hstar]
  rfl

theorem hitOn_eq (o : LookupOptions) (query : Pattern)
    (e : List Key × List α) :
    hitOn o query e
      = (Walk.followAll o [query] (Walk.start e)).map Walk.hit := by
  rw [Walk.followAll_cons]
  exact congrArg (Option.map Walk.hit) (Option.bind_fun_some _).symm

/-- A query that hits a sequence fits it. -/
theorem fits_of_hitOn (he : Key.Completes 1 e.1)
    (h : (hitOn o query e).isSome = true) :
    RootAllows o query e.1
      ∧ ∃ b taken worth, Fits o b [query] e.1 taken worth := by
  rw [hitOn_eq, Option.isSome_map] at h
  obtain ⟨w, hw⟩ := Option.isSome_iff_exists.mp h
  refine ⟨admits_start_iff.mp (Walk.admits_of_follow hw), ?_⟩
  obtain ⟨ks, taken, worth, hpass, hfits⟩ := Walk.fitted_of_follow _ hw
  obtain ⟨-, hks⟩ := hfits w.bindings w.under_bindings
  -- What was passed is complete, and nothing can follow it in the sequence.
  have hahead : e.1 = ks ++ w.ahead := hpass.ahead
  obtain rfl : e.1 = ks := by
    rw [hahead] at he ⊢
    rw [hks.completes.append_nil he, List.append_nil]
  exact ⟨w.bindings, taken, worth, hks⟩

/-- A query that fits a sequence hits it, unless the root is in the way. The
first occurrence of every star that takes something is free. -/
theorem hitOn_of_fits {b : Bindings} {taken : List Nat} {worth : Nat}
    (hroot : RootAllows o query e.1)
    (h : Fits o b [query] e.1 taken worth) :
    ∃ hit, hitOn o query e = some hit ∧ (hit.keys, hit.values) = e
      ∧ hit.score + ∑ id ∈ taken.toFinset, (b.star id).size = worth := by
  have hunder : Walk.Under b (Walk.start e) := ⟨nofun, nofun⟩
  obtain ⟨w, hw, hpass, hbound, hspent⟩ := Walk.follow_of_fits h
    (admits_start_iff.mpr hroot) (List.append_nil _).symm hunder
  have hentry := Walk.keeps_followAll o [query] _ _ hw
  have hend : w.ahead = [] := hpass.ahead_eq (List.append_nil _).symm
  refine ⟨w.hit, by rw [hitOn_eq, hw]; rfl, ?_, ?_⟩
  · rw [Walk.entry, hend, List.append_nil] at hentry
    exact hentry
  · have hstart : (Walk.start e).bound = ∅ := rfl
    rw [hstart, Finset.empty_union] at hbound
    rw [Walk.spent, hbound] at hspent
    exact hspent.trans (Nat.zero_add worth)

end Search

end TermIndex
