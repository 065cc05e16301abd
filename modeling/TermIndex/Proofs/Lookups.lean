import TermIndex.Proofs.Fits
import TermIndex.Proofs.Runs

/-!
# Lookups in an index that grows

A lookup without limits returns the hits of the search (`lookupPattern_perm`):
hits have different sequences, so that nothing is merged, and ranking only
reorders them.

Insertions keep an index checked, and what it stores stays stored up to equality
of values (`Extends`). So once a value is stored, a query that fits its sequence
returns it for good (`lookup_of_fits`).
-/

namespace TermIndex

/-! ## Lookups -/

/-- What the limits leave of ranked hits. -/
def LookupOptions.limited {α : Type} (o : LookupOptions) (hs : List (Hit α)) :
    List (Hit α) :=
  let kept := hs.filter fun h => o.minScore ≤ h.score
  o.maxResults.elim kept kept.take

theorem LookupOptions.limited_eq {α : Type} {o : LookupOptions}
    (hmax : o.maxResults = none) (hmin : o.minScore = 0) (hs : List (Hit α)) :
    o.limited hs = hs := by
  simp [limited, hmax, hmin]

theorem LookupOptions.limited_sublist {α : Type} (o : LookupOptions)
    (hs : List (Hit α)) : (o.limited hs).Sublist hs := by
  unfold limited
  cases o.maxResults with
  | none => exact List.filter_sublist
  | some n => exact (List.take_sublist n _).trans List.filter_sublist

namespace Index

variable {α : Type}

theorem collect_ok {β : Type} (bs : List β) :
    Outcomes.collect (bs.map .ok) = .ok bs := by
  unfold Outcomes.collect
  induction bs with
  | nil => rfl
  | cons b bs ih =>
      rw [List.map_cons, List.mapM_cons, ih]
      rfl

theorem mergeHit_new {groups : List (Hit α)} {h : Hit α}
    (hnew : ∀ g ∈ groups, g.keys ≠ h.keys) :
    mergeHit groups h = groups ++ [h] := by
  induction groups with
  | nil => rfl
  | cons g rest ih =>
      obtain ⟨hg, hrest⟩ := List.forall_mem_cons.mp hnew
      rw [mergeHit, if_neg hg, ih hrest, List.cons_append]

/-- Hits of different sequences are not merged. -/
theorem foldl_mergeHit {groups hs : List (Hit α)}
    (h : ((groups ++ hs).map Hit.keys).Nodup) :
    hs.foldl mergeHit groups = groups ++ hs := by
  induction hs generalizing groups with
  | nil => rw [List.append_nil, List.foldl_nil]
  | cons hit hs ih =>
      have hnew : ∀ g ∈ groups, g.keys ≠ hit.keys := by
        rw [List.map_append] at h
        intro g hg
        exact (List.nodup_append.mp h).2.2 _ (List.mem_map_of_mem hg) _
          (List.mem_map_of_mem (List.mem_cons_self ..))
      rw [List.append_cons] at h
      rw [List.foldl_cons, mergeHit_new hnew, ih h, ← List.append_cons]

/-- The search in a checked index finds the hits on its entries. Merging leaves
them as they are. -/
theorem exists_hits {ix : Index α} (hix : ix.check = .ok ()) (q : Pattern)
    (o : LookupOptions) :
    ∃ hs : List (Hit α), Search.hits o ix.forest q = hs.map .ok
      ∧ hs.Perm (ix.entries.filterMap (Search.hitOn o q))
      ∧ hs.foldl mergeHit [] = hs := by
  have hshaped : ix.forest.Shaped := Forest.check_eq_ok_iff.mp hix
  obtain ⟨⟨hs, hhs, hperm⟩, -⟩ := Search.hits_perm hshaped o q
  have hnodup : (hs.map Hit.keys).Nodup :=
    (hperm.map Hit.keys).nodup_iff.mpr (Search.nodup_hitOn hshaped o q)
  exact ⟨hs, hhs, hperm, foldl_mergeHit hnodup⟩

theorem lookupPattern_eq {ix : Index α} {q : Pattern} {o : LookupOptions}
    {hs : List (Hit α)} (h : Search.hits o ix.forest q = hs.map .ok) :
    ix.lookupPattern q o
      = .ok (o.limited (Search.ranked (hs.foldl mergeHit []))) := by
  have hcollect : (Search.hits o ix.forest q).collect = .ok hs := by
    rw [h, collect_ok]
  rw [lookupPattern, hcollect, LookupOptions.limited]
  cases o.maxResults with
  | none => rfl
  | some n => rfl

/-- A lookup without limits returns every hit of the query on an entry. -/
theorem lookupPattern_perm {ix : Index α} (hix : ix.check = .ok ())
    {o : LookupOptions} (hmax : o.maxResults = none) (hmin : o.minScore = 0)
    (q : Pattern) :
    ∃ groups, ix.lookupPattern q o = .ok groups
      ∧ groups.Perm (ix.entries.filterMap (Search.hitOn o q)) := by
  obtain ⟨hs, hhs, hperm, hmerge⟩ := exists_hits hix q o
  refine ⟨Search.ranked hs, ?_, (List.mergeSort_perm ..).trans hperm⟩
  rw [lookupPattern_eq hhs, hmerge, LookupOptions.limited_eq hmax hmin]

end Index

/-! ## Stored values -/

variable {α : Type} [BEq α]

/-- A value under these keys is the value, or equal to it. -/
def StoredIn (es : List (List Key × List α)) (ks : List Key) (value : α) :
    Prop :=
  ∃ vs, (ks, vs) ∈ es ∧ ∃ v ∈ vs, v = value ∨ v == value

theorem Merged.mem {value : α} {us vs : List α} (h : Merged value us vs) :
    value ∈ vs := by
  cases h with
  | replaced us w ws _ _ => simp
  | appended us _ => simp

/-- A value that goes is equal to the one that takes its place. -/
theorem Merged.mem_or {value u : α} {us vs : List α} (h : Merged value us vs)
    (hu : u ∈ us) : u ∈ vs ∨ (u == value) = true := by
  cases h with
  | replaced us w ws _ hw =>
      rcases List.mem_append.mp hu with hus | hu
      · exact Or.inl (List.mem_append_left _ hus)
      rcases List.mem_cons.mp hu with rfl | hws
      · exact Or.inr hw
      · exact Or.inl (List.mem_append_right _ (List.mem_cons_of_mem _ hws))
  | appended us _ => exact Or.inl (List.mem_append_left _ hu)

variable {ks keys : List Key} {v value : α} {es es' : List (List Key × List α)}

theorem Put.storedIn (h : Put keys value es es') : StoredIn es' keys value := by
  cases h with
  | added pre post _ _ => exact ⟨[value], by simp, value, by simp, Or.inl rfl⟩
  | @merged pre post us vs hmerged =>
      exact ⟨vs, by simp, value, hmerged.mem, Or.inl rfl⟩

/-- What is stored stays stored. This takes symmetry and transitivity of the
equality of values, and no reflexivity. -/
theorem Put.keeps [PartialEquivBEq α] (h : Put keys value es es')
    (hv : StoredIn es ks v) : StoredIn es' ks v := by
  obtain ⟨us, hus, u, hu, huv⟩ := hv
  cases h with
  | added pre post _ _ =>
      refine ⟨us, ?_, u, hu, huv⟩
      rcases List.mem_append.mp hus with hpre | hpost
      · exact List.mem_append_left _ hpre
      · exact List.mem_append_right _ (List.mem_cons_of_mem _ hpost)
  | @merged pre post us' vs hmerged =>
      rcases List.mem_append.mp hus with hpre | hus
      · exact ⟨us, List.mem_append_left _ hpre, u, hu, huv⟩
      rcases List.mem_cons.mp hus with heq | hpost
      · cases heq
        refine ⟨vs, by simp, ?_⟩
        rcases hmerged.mem_or hu with hmem | hvalue
        · exact ⟨u, hmem, huv⟩
        · refine ⟨value, hmerged.mem, Or.inr ?_⟩
          rcases huv with rfl | huv
          · exact PartialEquivBEq.symm hvalue
          · exact PartialEquivBEq.trans (PartialEquivBEq.symm hvalue) huv
      · exact ⟨us, List.mem_append_right _ (List.mem_cons_of_mem _ hpost), u,
          hu, huv⟩

/-! ## Insertions -/

namespace Index

/-- What insertions into a checked index leave as it was. -/
structure Extends (ix ix' : Index α) : Prop where
  settings : ix'.settings = ix.settings
  rules : ix'.rules = ix.rules
  check : ix'.check = .ok ()
  stored : ∀ ks v, StoredIn ix.entries ks v → StoredIn ix'.entries ks v

variable {ix ix' ix'' : Index α}

theorem Extends.refl (h : ix.check = .ok ()) : Extends ix ix :=
  ⟨rfl, rfl, h, fun _ _ => id⟩

theorem Extends.trans (h : Extends ix ix') (h' : Extends ix' ix'') :
    Extends ix ix'' :=
  ⟨h'.settings.trans h.settings, h'.rules.trans h.rules, h'.check,
    fun ks v hv => h'.stored ks v (h.stored ks v hv)⟩

/-- Terms are encoded as before. -/
theorem Extends.query (h : Extends ix ix') (host : Host) (o : LookupOptions)
    (t : Term) : ix'.query host o t = ix.query host o t := by
  rw [Index.query, Index.query, encoder, encoder, h.settings, h.rules]

variable [PartialEquivBEq α]

theorem extends_forest (hix : ix.check = .ok ())
    (hkeys : Key.check keys = .ok ()) (value : α) :
    ∃ f, ix.forest.insert keys value = .ok f
      ∧ Extends ix { ix with forest := f } ∧ StoredIn f.entries keys value := by
  obtain ⟨f, hinsert, hshaped, hput⟩ :=
    (Forest.check_eq_ok_iff.mp hix).insert_checked hkeys value
  exact ⟨f, hinsert, ⟨rfl, rfl, Forest.check_eq_ok_iff.mpr hshaped,
    fun ks v => hput.keeps⟩, hput.storedIn⟩

theorem extends_pattern (hix : ix.check = .ok ()) (p : Pattern) (value : α) :
    ∃ ix', ix.insertPattern p value = .ok ix' ∧ Extends ix ix'
      ∧ StoredIn ix'.entries p.keys value := by
  obtain ⟨f, hinsert, hext, hstored⟩ :=
    extends_forest hix p.check_keys value
  refine ⟨{ ix with forest := f }, ?_, hext, hstored⟩
  rw [insertPattern, hinsert]
  rfl

theorem extends_patterns (hix : ix.check = .ok ()) (ps : List Pattern)
    (value : α) :
    ∃ ix', ps.foldlM (fun ix p => ix.insertPattern p value) ix = .ok ix'
      ∧ Extends ix ix' ∧ ∀ p ∈ ps, StoredIn ix'.entries p.keys value := by
  induction ps generalizing ix with
  | nil => exact ⟨ix, rfl, .refl hix, nofun⟩
  | cons p ps ih =>
      obtain ⟨ix₁, hinsert, hext, hstored⟩ := extends_pattern hix p value
      obtain ⟨ix', hrest, hext', hstored'⟩ := ih hext.check
      refine ⟨ix', ?_, hext.trans hext', List.forall_mem_cons.mpr
        ⟨hext'.stored _ _ hstored, hstored'⟩⟩
      rw [List.foldlM_cons, hinsert]
      exact hrest

/-- Inserting a term stores the value under all its encodings. -/
theorem extends_insert (hix : ix.check = .ok ()) {host : Host} {t : Term}
    {ps : List Pattern} (hps : ix.encodings host t = .ok ps) (value : α) :
    ∃ ix', ix.insert host t value = .ok ix' ∧ Extends ix ix'
      ∧ ∀ p ∈ ps, StoredIn ix'.entries p.keys value := by
  obtain ⟨ix', hinsert, hext⟩ := extends_patterns hix ps value
  refine ⟨ix', ?_, hext⟩
  rw [insert, hps]
  exact hinsert

theorem extends_perform (hix : ix.check = .ok ()) {op : Insertion α}
    (h : ix.perform op = .ok ix') : Extends ix ix' := by
  cases op with
  | keys ks value =>
      cases hks : Key.check ks with
      | error e =>
          simp only [perform, insertKeys, hks] at h
          cases h
          exact .refl hix
      | ok _ =>
          obtain ⟨f, hinsert, hext, -⟩ := extends_forest hix hks value
          simp only [perform, insertKeys, hks, hinsert] at h
          cases h
          exact hext
  | pattern p value =>
      obtain ⟨ix₁, hinsert, hext, -⟩ := extends_pattern hix p value
      obtain rfl := Except.ok.inj (hinsert.symm.trans h)
      exact hext
  | term host t value =>
      rcases encodings_cases ix host t with ⟨ps, hps⟩ | hnone
      · obtain ⟨ix₁, hinsert, hext, -⟩ := extends_insert hix hps value
        obtain rfl := Except.ok.inj (hinsert.symm.trans h)
        exact hext
      · simp only [perform, insert, hnone] at h
        cases h

theorem extends_run (hix : ix.check = .ok ()) {ops : List (Insertion α)}
    (h : ix.run ops = .ok ix') : Extends ix ix' := by
  induction ops generalizing ix with
  | nil =>
      cases h
      exact .refl hix
  | cons op ops ih =>
      rw [run, List.foldlM_cons] at h
      cases hop : ix.perform op with
      | error e =>
          rw [hop] at h
          cases h
      | ok ix₁ =>
          rw [hop] at h
          have hext := extends_perform hix hop
          exact hext.trans (ih hext.check h)

/-! ## Finding what is stored -/

omit [PartialEquivBEq α] in
/-- A query that fits the sequence of a stored value finds it. -/
theorem lookup_of_fits (hix : ix.check = .ok ()) {host : Host} {t : Term}
    {o : LookupOptions} (hmax : o.maxResults = none) (hmin : o.minScore = 0)
    {q : Pattern} (hq : ix.query host o t = .ok q)
    (hstored : StoredIn ix.entries ks v) (hroot : Search.RootAllows o q ks)
    {b : Bindings} {taken : List Nat} {worth : Nat}
    (hfits : Fits o b [q] ks taken worth) :
    ∃ groups, ix.lookup host o t = .ok groups
      ∧ ∃ g ∈ groups,
        g.score + ∑ id ∈ taken.toFinset, (b.star id).size = worth
        ∧ ∃ u ∈ g.values, u = v ∨ u == v := by
  obtain ⟨vs, hmem, hv⟩ := hstored
  obtain ⟨groups, hgroups, hperm⟩ := lookupPattern_perm hix hmax hmin q
  obtain ⟨g, hg, hentry, hscore⟩ := Search.hitOn_of_fits (e := (ks, vs)) hroot
    hfits
  refine ⟨groups, ?_, g, ?_, hscore, ?_⟩
  · rw [lookup, hq]
    exact hgroups
  · exact hperm.mem_iff.mpr (List.mem_filterMap.mpr ⟨_, hmem, hg⟩)
  · rw [(Prod.mk.inj hentry).2]
    exact hv

/-- After a term is inserted, and more, its value is found by every query that
fits one of the encodings. -/
theorem lookup_inserted (hix : ix.check = .ok ()) {host : Host} {t : Term}
    {ps : List Pattern} (hps : ix.encodings host t = .ok ps) (value : α) :
    ∃ ix₁, ix.insert host t value = .ok ix₁
      ∧ ∀ ops ix₂, ix₁.run ops = .ok ix₂ →
        ∀ o : LookupOptions, o.maxResults = none → o.minScore = 0 →
          ∀ p ∈ ps, ∀ t' q, ix.query host o t' = .ok q →
            (p.isStar = false ∧ q.isStar = false ∨ o.allowRootStar = true) →
            ∀ b taken worth, Fits o b [q] p.keys taken worth →
              ∃ groups, ix₂.lookup host o t' = .ok groups
                ∧ ∃ g ∈ groups,
                  g.score + ∑ id ∈ taken.toFinset, (b.star id).size = worth
                  ∧ ∃ u ∈ g.values, u = value ∨ u == value := by
  obtain ⟨ix₁, hinsert, hext, hstored⟩ := extends_insert hix hps value
  refine ⟨ix₁, hinsert, fun ops ix₂ hrun o hmax hmin p hp t' q hq hroot b taken
    worth hfits => ?_⟩
  have hext₂ := extends_run hext.check hrun
  have hq₂ : ix₂.query host o t' = .ok q := by
    rw [(hext.trans hext₂).query, hq]
  have hallows : Search.RootAllows o q p.keys :=
    hroot.symm.imp_right fun ⟨hpstar, hqstar⟩ =>
      ⟨hqstar, Pattern.head?_keys hpstar⟩
  exact lookup_of_fits hext₂.check hmax hmin hq₂
    (hext₂.stored _ _ (hstored p hp)) hallows hfits

end Index

end TermIndex
