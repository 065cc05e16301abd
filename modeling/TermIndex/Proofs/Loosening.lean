import TermIndex.Proofs.Ranking
import TermIndex.Proofs.RoundTrip
import TermIndex.Proofs.SelfRetrieval
import TermIndex.Proofs.Unification

/-!
# What unification gains and loses

With unification, the query for a term has wildcards where the one without it
has fixed metavariables and hidden subtrees (`Loosened`). So whatever the query
without unification fits, the other one fits as far as the keys go. What may
fail are the bindings. A wildcard has to skip the same keys wherever it stands,
while its fixed node took part in no binding; and a star has to take the same
subtree wherever it stands, while subtrees that agreed may have become
different ones.

Both can be read off the two trees. If the query is laid over the tree of the
sequence, then every wildcard stands on some keys, and every star under some
subtree of the query. The query fits under the bindings that agree with all of
this and no others (`Fits.loosened_iff`), so that it fits under some exactly if
no two places contradict each other (`Consistent`).
-/

namespace TermIndex

/-! ## Keys of a tree -/

/-- The key that is read as this place. -/
def Slot.source : Slot → Key
  | .wild m => .star (m.elim 0 MVar.id)
  | .key k => k

/-- The keys that are read as this tree, with the number of its metavariable for
the star of a wildcard. -/
def Pattern.source (t : Pattern) : List Key := t.slots.map Slot.source

theorem Pattern.children_of_hidden {p : Pattern}
    (h : p.key? = some .hidden) : p.children = [] :=
  List.length_eq_zero_iff.mp (length_children h)

theorem Pattern.source_of_filled {ks : List Key} {t : Pattern}
    (h : Filled ofStar ks [t]) : t.source = ks := by
  have hid : ∀ k, Slot.source (slotOf k) = k := by
    intro k
    cases k <;> rfl
  rw [source, ← slotsAll_singleton, slotsAll_of_filled h, List.map_map]
  exact List.map_id'' hid ks

/-- The first tree of a sequence is read from its first subtree. -/
theorem Filled.split_front {s : Nat → Pattern} {front ks : List Key}
    {ts : List Pattern} (hfront : Key.Completes 1 front)
    (h : Filled s (front ++ ks) ts) :
    ∃ t rest, ts = t :: rest ∧ Filled s front [t] ∧ Filled s ks rest := by
  cases ts with
  | nil =>
      generalize hks : front ++ ks = ls at h
      cases h
      obtain ⟨rfl, -⟩ := List.append_eq_nil_iff.mp hks
      cases hfront
  | cons t rest =>
      replace h : Filled s (front ++ ks) ([t] ++ rest) := h
      obtain ⟨as, bs, heq, has, hbs⟩ := h.split
      obtain ⟨rfl, rfl⟩ := hfront.append_inj has.completes heq
      exact ⟨t, rest, rfl, has, hbs⟩

/-! ## Bindings that agree with the places -/

/-- Each metavariable of the query is bound to the keys on which it stands, and
each star to the subtree under which it stands, unless that is a wildcard. -/
structure Bindings.Agrees (b : Bindings) (ds ts : List Pattern) : Prop where
  skipped : ∀ x ∈ Pattern.placesAll ds ts, b.mvar x.1 = x.2.source
  taken : ∀ x ∈ Pattern.placesAll ts ds, x.2.isStar = false →
    b.star x.1.id = x.2

/-- A metavariable of the query stands on the same keys everywhere, and a star
under the same subtree everywhere, wildcards aside. -/
structure Consistent (ds ts : List Pattern) : Prop where
  skipped : (Pattern.placesAll ds ts).Pairwise fun x y =>
    x.1 = y.1 → x.2.source = y.2.source
  taken : (Pattern.placesAll ts ds).Pairwise fun x y =>
    x.2.isStar = false → y.2.isStar = false → x.1 = y.1 → x.2 = y.2

instance (ds ts : List Pattern) : Decidable (Consistent ds ts) :=
  decidable_of_iff (_ ∧ _) ⟨fun h => ⟨h.1, h.2⟩, fun h => ⟨h.1, h.2⟩⟩

/-- Values for names can be chosen if no name has two. -/
theorem exists_choice_iff {β γ : Type} [BEq β] [LawfulBEq β] [Inhabited γ]
    {ss : List (β × γ)} :
    (∃ f : β → γ, ∀ s ∈ ss, f s.1 = s.2)
      ↔ ss.Pairwise fun s t => s.1 = t.1 → s.2 = t.2 := by
  constructor
  · rintro ⟨f, hf⟩
    refine List.pairwise_of_forall_mem_list fun s hs t ht hst => ?_
    rw [← hf s hs, hst, hf t ht]
  · intro h
    refine ⟨fun x => (ss.lookup x).getD default, fun s hs => ?_⟩
    simp [lookup_of_pairwise h s hs]

theorem exists_agrees_iff {ds ts : List Pattern} :
    (∃ b : Bindings, b.Agrees ds ts) ↔ Consistent ds ts := by
  let skips := (Pattern.placesAll ds ts).map fun x => (x.1, x.2.source)
  let takes := (Pattern.placesAll ts ds).filter fun x => !x.2.isStar
  have hskips : skips.Pairwise (fun s t => s.1 = t.1 → s.2 = t.2)
      ↔ (Pattern.placesAll ds ts).Pairwise fun x y =>
        x.1 = y.1 → x.2.source = y.2.source :=
    List.pairwise_map
  have htakes : takes.Pairwise (fun s t => s.1 = t.1 → s.2 = t.2)
      ↔ (Pattern.placesAll ts ds).Pairwise fun x y =>
        x.2.isStar = false → y.2.isStar = false → x.1 = y.1 → x.2 = y.2 := by
    simp only [takes, List.pairwise_filter, Bool.not_eq_true']
  have : Inhabited Pattern := ⟨.hidden⟩
  constructor
  · rintro ⟨b, hskipped, htaken⟩
    refine ⟨hskips.mp (exists_choice_iff.mp ⟨b.mvar, ?_⟩),
      htakes.mp (exists_choice_iff.mp ⟨fun m => b.star m.id, ?_⟩)⟩
    · exact List.forall_mem_map.mpr hskipped
    · intro x hx
      obtain ⟨hmem, hstar⟩ := List.mem_filter.mp hx
      exact htaken x hmem (by simpa using hstar)
  · rintro ⟨hskipped, htaken⟩
    obtain ⟨f, hf⟩ := exists_choice_iff.mpr (hskips.mpr hskipped)
    obtain ⟨g, hg⟩ := exists_choice_iff.mpr (htakes.mpr htaken)
    refine ⟨⟨fun id => g ⟨id⟩, f⟩, List.forall_mem_map.mp hf, ?_⟩
    intro x hx hstar
    exact hg x (List.mem_filter.mpr ⟨hx, by simpa using hstar⟩)

/-! ## Nothing stands twice -/

namespace Pattern

/-- Only trees below a node stand below it. -/
theorem places_children {d : Pattern} {k : Key} (hd : d.key? = some k)
    (e : Pattern) : (places d e).Sublist (placesAll d.children e.children) := by
  cases d with
  | star m => cases hd
  | app h args => exact .refl _
  | lam body | pi domain body | proj st i value args =>
      unfold places
      split
      · simp_all [placesAll, children]
      · exact List.nil_sublist _
  | _ => exact List.nil_sublist _

theorem mvars_of_key {d : Pattern} {k : Key} (hd : d.key? = some k) :
    d.mvars = mvarsAll d.children := by
  rw [← mvarsAll_singleton, mvarsAll_of_key hd, List.append_nil]

theorem placesAll_mvars_of {ds : List Pattern}
    (h : ∀ d ∈ ds, ∀ e, ((places d e).map Prod.fst).Sublist d.mvars) :
    ∀ es, ((placesAll ds es).map Prod.fst).Sublist (mvarsAll ds) := by
  induction ds with
  | nil => exact fun _ => List.nil_sublist _
  | cons d ds ih =>
      obtain ⟨hd, hds⟩ := List.forall_mem_cons.mp h
      intro es
      cases es with
      | nil => exact List.nil_sublist _
      | cons e es =>
          rw [placesAll, List.map_append, mvarsAll_cons]
          exact (hd e).append (ih hds es)

/-- A metavariable has no more places than it stands in the pattern. -/
theorem places_mvars (d : Pattern) :
    ∀ e, ((places d e).map Prod.fst).Sublist d.mvars := by
  induction d using induction_on with
  | node d ih =>
      intro e
      rcases d.star_or_key with ⟨m, rfl⟩ | ⟨k, hd⟩
      · cases m <;> exact .refl _
      · rw [mvars_of_key hd]
        exact ((places_children hd e).map _).trans (placesAll_mvars_of ih _)

theorem placesAll_mvars (ds es : List Pattern) :
    ((placesAll ds es).map Prod.fst).Sublist (mvarsAll ds) :=
  placesAll_mvars_of (fun d _ => places_mvars d) es

theorem mvarsAll_of_filled {ks : List Key} {ts : List Pattern}
    (h : Filled ofStar ks ts) : mvarsAll ts = (starIds ks).map MVar.mk := by
  rw [mvarsAll, wildcardsAll, slotsAll_of_filled h, filterMap_slotOf,
    List.filterMap_map]
  exact congrFun List.filterMap_eq_map' (starIds ks)

end Pattern

/-- Places contradict each other only if something stands twice. -/
theorem Consistent.of_nodup {ds ts : List Pattern} {ks : List Key}
    (hread : Filled Pattern.ofStar ks ts)
    (hmvars : (Pattern.mvarsAll ds).Nodup) (hstars : (starIds ks).Nodup) :
    Consistent ds ts := by
  have hts : (Pattern.mvarsAll ts).Nodup := by
    rw [Pattern.mvarsAll_of_filled hread]
    exact hstars.map fun i j hij => congrArg MVar.id hij
  have hskips := List.pairwise_map.mp
    (hmvars.sublist (Pattern.placesAll_mvars ds ts))
  have htakes := List.pairwise_map.mp
    (hts.sublist (Pattern.placesAll_mvars ts ds))
  exact ⟨hskips.imp fun hne heq => absurd heq hne,
    htakes.imp fun hne _ _ heq => absurd heq hne⟩

/-! ## One step -/

/-- The patterns fit the keys under these bindings, with some worth. -/
def FitsUnder (o : LookupOptions) (b : Bindings) (ps : List Pattern)
    (ks : List Key) : Prop :=
  ∃ taken worth, Fits o b ps ks taken worth

section

variable {o : LookupOptions} {b : Bindings} {d t : Pattern} {k : Key}
  {ds ts : List Pattern} {ks front : List Key} {m : Option MVar} {id : Nat}

theorem fitsUnder_star_iff (ho : o.unify = true)
    (hfront : Key.Completes 1 front) :
    FitsUnder o b (.star m :: ds) (front ++ ks)
      ↔ (∀ x, m = some x → b.mvar x = front) ∧ FitsUnder o b ds ks := by
  constructor
  · rintro ⟨taken, worth, h⟩
    generalize hls : front ++ ks = ls at h
    cases h with
    | node hkey _ => cases hkey
    | take hlive _ _ => exact absurd (Or.inr ho) (hlive m rfl)
    | skip _ hfront' hbound h =>
        obtain ⟨rfl, rfl⟩ := hfront.append_inj hfront' hls
        exact ⟨hbound, _, _, h⟩
  · rintro ⟨hbound, taken, worth, h⟩
    exact ⟨_, _, .skip (Or.inr ho) hfront hbound h⟩

theorem fitsUnder_node_iff (hd : d.key? = some k) :
    FitsUnder o b (d :: ds) (k :: ks)
      ↔ FitsUnder o b (d.children ++ ds) ks := by
  constructor
  · rintro ⟨taken, worth, h⟩
    generalize hls : k :: ks = ls at h
    cases h with
    | node hkey h =>
        obtain ⟨rfl, rfl⟩ := List.cons.inj hls
        exact ⟨_, _, h⟩
    | take _ _ _ =>
        obtain ⟨rfl, -⟩ := List.cons.inj hls
        exact (Walk.key?_ne_star hd).elim
    | skip _ _ _ _ => cases hd
  · rintro ⟨taken, worth, h⟩
    exact ⟨_, _, .node hd h⟩

theorem fitsUnder_take_iff (hd : d.key? = some k) :
    FitsUnder o b (d :: ds) (.star id :: ks)
      ↔ b.star id = d ∧ FitsUnder o b ds ks := by
  constructor
  · rintro ⟨taken, worth, h⟩
    generalize hls : Key.star id :: ks = ls at h
    cases h with
    | node hkey _ =>
        obtain ⟨rfl, -⟩ := List.cons.inj hls
        exact (Walk.key?_ne_star hkey).elim
    | take _ hbound h =>
        obtain ⟨⟨⟩, rfl⟩ := List.cons.inj hls
        exact ⟨hbound, _, _, h⟩
    | skip _ _ _ _ => cases hd
  · rintro ⟨hbound, taken, worth, h⟩
    exact ⟨_, _, .take (Pattern.ne_star_of_key hd) hbound h⟩

theorem agrees_nil : b.Agrees [] [] := ⟨nofun, nofun⟩

theorem agrees_star_iff :
    b.Agrees (.star m :: ds) (t :: ts)
      ↔ (∀ x, m = some x → b.mvar x = t.source) ∧ b.Agrees ds ts := by
  have htaken : (∀ x ∈ Pattern.placesAll (t :: ts) (.star m :: ds),
        x.2.isStar = false → b.star x.1.id = x.2)
      ↔ ∀ x ∈ Pattern.placesAll ts ds, x.2.isStar = false →
        b.star x.1.id = x.2 := by
    rcases t.star_or_key with ⟨x, rfl⟩ | ⟨k, ht⟩
    · rw [Pattern.placesAll_star, List.forall_mem_append]
      refine and_iff_right fun y hy hstar => ?_
      -- A star under a wildcard takes nothing.
      obtain ⟨z, -, rfl⟩ := Option.map_eq_some_iff.mp (Option.mem_toList.mp hy)
      cases hstar
    · rw [Pattern.placesAll_leaf ht]
  constructor
  · rintro ⟨hskipped, h⟩
    rw [Pattern.placesAll_star] at hskipped
    obtain ⟨hhere, hrest⟩ := List.forall_mem_append.mp hskipped
    refine ⟨?_, hrest, htaken.mp h⟩
    rintro x rfl
    exact hhere (x, t) (List.mem_singleton_self _)
  · rintro ⟨hhere, hrest, h⟩
    refine ⟨?_, htaken.mpr h⟩
    rw [Pattern.placesAll_star]
    refine List.forall_mem_append.mpr ⟨fun y hy => ?_, hrest⟩
    obtain ⟨x, rfl, rfl⟩ := Option.map_eq_some_iff.mp (Option.mem_toList.mp hy)
    exact hhere x rfl

theorem agrees_take_iff (hd : d.key? = some k) :
    b.Agrees (d :: ds) (.ofStar id :: ts)
      ↔ b.star id = d ∧ b.Agrees ds ts := by
  have hskipped : Pattern.placesAll (d :: ds) (.ofStar id :: ts)
      = Pattern.placesAll ds ts := Pattern.placesAll_leaf hd _ _ _
  have hplaces : Pattern.placesAll (.ofStar id :: ts) (d :: ds)
      = (⟨id⟩, d) :: Pattern.placesAll ts ds := rfl
  constructor
  · rintro ⟨h, htaken⟩
    rw [hplaces] at htaken
    obtain ⟨hhere, hrest⟩ := List.forall_mem_cons.mp htaken
    exact ⟨hhere (Pattern.isStar_of_key hd), hskipped ▸ h, hrest⟩
  · rintro ⟨hhere, h, hrest⟩
    refine ⟨by rwa [hskipped], ?_⟩
    rw [hplaces]
    exact List.forall_mem_cons.mpr ⟨fun _ => hhere, hrest⟩

theorem agrees_node_iff (hd : d.key? = some k) (ht : t.key? = some k) :
    b.Agrees (d :: ds) (t :: ts)
      ↔ b.Agrees (d.children ++ ds) (t.children ++ ts) := by
  have hskipped := Pattern.placesAll_of_key hd ht ds ts
  have htaken := Pattern.placesAll_of_key ht hd ts ds
  constructor
  · rintro ⟨h, h'⟩
    exact ⟨hskipped ▸ h, htaken ▸ h'⟩
  · rintro ⟨h, h'⟩
    exact ⟨hskipped ▸ h, htaken ▸ h'⟩

/-- A wildcard skips the keys on which it stands. -/
theorem fitsUnder_agrees_star (ho : o.unify = true)
    (ht : Filled Pattern.ofStar front [t])
    (h : FitsUnder o b ds ks ↔ b.Agrees ds ts) :
    FitsUnder o b (.star m :: ds) (front ++ ks)
      ↔ b.Agrees (.star m :: ds) (t :: ts) := by
  rw [fitsUnder_star_iff ho ht.completes, agrees_star_iff,
    Pattern.source_of_filled ht, h]

end

/-! ## Queries in both modes -/

/-- The first query has wildcards where the second one has hidden leaves, and
there is no other difference. -/
inductive Loosened : List Pattern → List Pattern → Prop
  | nil : Loosened [] []
  | anonymous {ds es : List Pattern} (h : Loosened ds es) :
      Loosened (.star none :: ds) (.star none :: es)
  | hidden {m : Option MVar} {e : Pattern} {ds es : List Pattern}
      (he : e.key? = some .hidden) (h : Loosened ds es) :
      Loosened (.star m :: ds) (e :: es)
  | node {d e : Pattern} {k : Key} {ds es : List Pattern}
      (hd : d.key? = some k) (he : e.key? = some k)
      (hbelow : Loosened d.children e.children) (h : Loosened ds es) :
      Loosened (d :: ds) (e :: es)

section

variable {ds es ds' es' : List Pattern}

theorem Loosened.append (h : Loosened ds es) (h' : Loosened ds' es') :
    Loosened (ds ++ ds') (es ++ es') := by
  induction h with
  | nil => exact h'
  | anonymous _ ih => exact .anonymous ih
  | hidden he _ ih => exact .hidden he ih
  | node hd he hbelow _ _ ih => exact .node hd he hbelow ih

theorem loosened_of_forall₂
    (h : List.Forall₂ (fun e d => Loosened [d] [e]) es ds) :
    Loosened ds es := by
  induction h with
  | nil => exact .nil
  | cons hde _ ih => exact hde.append ih

/-- The bindings under which the loosened query fits what the other one fits are
those that agree with the places. -/
theorem Fits.loosened_iff {o o' : LookupOptions} (ho : o.unify = true)
    {b' : Bindings} {ks : List Key} {taken : List Nat} {worth : Nat}
    (h : Fits o' b' es ks taken worth) (hloose : Loosened ds es)
    {ts : List Pattern} (hread : Filled Pattern.ofStar ks ts) (b : Bindings) :
    FitsUnder o b ds ks ↔ b.Agrees ds ts := by
  induction h generalizing ds ts with
  | nil =>
      cases hloose
      cases hread
      exact iff_of_true ⟨_, _, .nil⟩ agrees_nil
  | @node e k es ks taken worth hkey h ih =>
      cases hloose with
      | anonymous _ => cases hkey
      | hidden he hloose =>
          -- The wildcard skips the one key that the hidden leaf met.
          obtain rfl := Option.some.inj (hkey.symm.trans he)
          have hfront : Key.Completes 1 [.hidden] := rfl
          obtain ⟨t, rest, rfl, ht, hread⟩ := hread.split_front hfront
          rw [Pattern.children_of_hidden he, List.nil_append] at ih
          exact fitsUnder_agrees_star ho ht (ih hloose hread)
      | node hd he hbelow hloose =>
          obtain rfl := Option.some.inj (hkey.symm.trans he)
          cases hread with
          | star _ => exact (Walk.key?_ne_star hkey).elim
          | node ht hread =>
              rw [fitsUnder_node_iff hd, agrees_node_iff hd ht]
              exact ih (hbelow.append hloose) hread
  | @take e id es ks taken worth hlive _ h ih =>
      cases hloose with
      | anonymous _ => exact absurd (Or.inl rfl) (hlive none rfl)
      | hidden he hloose =>
          -- The star took the hidden leaf, and now it is skipped itself.
          have hfront : Key.Completes 1 [.star id] := rfl
          obtain ⟨t, rest, rfl, ht, hread⟩ := hread.split_front hfront
          exact fitsUnder_agrees_star ho ht (ih hloose hread)
      | node hd he hbelow hloose =>
          cases hread with
          | star hread =>
              rw [fitsUnder_take_iff hd, agrees_take_iff hd, ih hloose hread]
          | node ht _ => exact (Walk.key?_ne_star ht).elim
  | @skip m front es ks taken worth hlive hfront _ h ih =>
      cases hloose with
      | anonymous hloose =>
          obtain ⟨t, rest, rfl, ht, hread⟩ := hread.split_front hfront
          exact fitsUnder_agrees_star ho ht (ih hloose hread)
      | hidden he _ => cases he
      | node _ he _ _ => cases he

end

namespace Encoder

variable {enc : Encoder} {t : Term} {depth : Nat}

theorem loosened_build {as es : List Pattern}
    (hes : es.length = (enc.view t depth).parts.length)
    (has : as.length = (enc.view t depth).parts.length)
    (h : Loosened as es) :
    Loosened [((enc.inMode (.query true)).view t depth).build as]
      [((enc.inMode (.query false)).view t depth).build es] := by
  by_cases ht : ∀ m, t.head ≠ .mvar m
  · rw [view_inMode _ _ _ ht, view_inMode _ _ _ ht]
    obtain ⟨k, hnode | hleaf⟩ := view_shape enc depth ht
    · obtain ⟨hkey, hchildren⟩ := hnode as has
      obtain ⟨hkey', hchildren'⟩ := hnode es hes
      exact .node hkey hkey' (by rwa [hchildren, hchildren']) .nil
    · obtain ⟨hkey, hchildren⟩ := hleaf as
      obtain ⟨hkey', hchildren'⟩ := hleaf es
      refine .node hkey hkey' ?_ .nil
      rw [hchildren, hchildren']
      exact .nil
  · push Not at ht
    obtain ⟨m, hm⟩ := ht
    rw [view_mvar _ _ hm, view_mvar _ _ hm]
    cases decide (0 < t.numArgs) with
    | true => exact .hidden rfl .nil
    | false => exact .hidden rfl .nil

/-- If a query can be encoded without unification, then also with it, and that
loosens it. -/
theorem exists_loosened {fuel : Nat} {e : Pattern}
    (h : (enc.inMode (.query false)).direct fuel t depth = some e) :
    ∃ d, (enc.inMode (.query true)).direct fuel t depth = some d
      ∧ Loosened [d] [e] :=
  exists_inMode (R := fun es ds => Loosened ds es) loosened_of_forall₂
    (.anonymous .nil) (.node rfl rfl .nil .nil) loosened_build h

end Encoder

namespace Index

open Search

variable {α : Type} {ix : Index α} {host : Host} {o : LookupOptions} {t : Term}

theorem lookup_eq_ok_iff {groups : List (Hit α)} :
    ix.lookup host o t = .ok groups
      ↔ ∃ q, (ix.encoder host (.query o.unify)).direct host.fuel t 0 = some q
        ∧ ix.lookupPattern q o = .ok groups := by
  have hquery : ix.query host o t
      = finished ((ix.encoder host (.query o.unify)).direct host.fuel t 0) :=
    congrArg finished (Encoder.encodeOne_eq _ t)
  rw [lookup, hquery]
  cases (ix.encoder host (.query o.unify)).direct host.fuel t 0 with
  | none =>
      constructor
      · intro h
        cases h
      · rintro ⟨q, hq, -⟩
        cases hq
  | some q =>
      constructor
      · exact fun h => ⟨q, rfl, h⟩
      · rintro ⟨q', hq, h⟩
        cases hq
        exact h

/-- A lookup without limits returns the stored sequences that the query fits. -/
theorem mem_keys_iff (hcheck : ∀ e ∈ ix.entries, Key.check e.1 = .ok ())
    {q : Pattern} {groups : List (Hit α)}
    (hperm : groups.Perm (ix.entries.filterMap (hitOn o q))) {ks : List Key} :
    ks ∈ groups.map Hit.keys
      ↔ (∃ vs, (ks, vs) ∈ ix.entries) ∧ RootAllows o q ks
        ∧ ∃ b, FitsUnder o b [q] ks := by
  rw [(hperm.map Hit.keys).mem_iff, List.map_filterMap, List.mem_filterMap]
  constructor
  · rintro ⟨e, he, hks⟩
    obtain ⟨hit, hhit, rfl⟩ := Option.map_eq_some_iff.mp hks
    obtain ⟨hcompletes, -⟩ := Key.check_eq_ok_iff.mp (hcheck e he)
    obtain ⟨hroot, b, taken, worth, hfits⟩ :=
      fits_of_hitOn hcompletes (Option.isSome_of_eq_some hhit)
    obtain ⟨hit', hhit', rfl, -⟩ := hitOn_of_fits hroot hfits
    obtain rfl := Option.some.inj (hhit.symm.trans hhit')
    exact ⟨⟨_, he⟩, hroot, b, taken, worth, hfits⟩
  · rintro ⟨⟨vs, he⟩, hroot, b, taken, worth, hfits⟩
    obtain ⟨hit, hhit, hentry, -⟩ :=
      hitOn_of_fits (e := (ks, vs)) hroot hfits
    exact ⟨(ks, vs), he, Option.map_eq_some_iff.mpr
      ⟨hit, hhit, (Prod.mk.inj hentry).1⟩⟩

variable [BEq α]

/-- **What turning unification on loses.** After any run of insertions, a lookup
without limits that ends without unification ends with it too. What it returned
is returned again, with two exceptions: a query that is a wildcard now may not
be allowed at the root, and the places on which its wildcards and the stored
stars stand may contradict each other. They do not if no metavariable stands
twice in the query and no star twice in the sequence. -/
theorem lookup_loosened (settings : Settings) (rules : List Conversion)
    {ops : List (Insertion α)}
    (hrun : ((empty settings).withRules rules).run ops = .ok ix)
    (hmax : o.maxResults = none) (hmin : o.minScore = 0)
    {groups : List (Hit α)}
    (hfixed : ix.lookup host { o with unify := false } t = .ok groups) :
    ∃ q groups', ix.query host { o with unify := true } t = .ok q
      ∧ ix.lookup host { o with unify := true } t = .ok groups'
      ∧ ∀ g ∈ groups,
        (g.keys ∈ groups'.map Hit.keys
          ↔ (o.allowRootStar = true ∨ q.isStar = false)
            ∧ Consistent [q] (Pattern.readAll g.keys))
        ∧ (q.mvars.Nodup → (starIds g.keys).Nodup →
          Consistent [q] (Pattern.readAll g.keys)) := by
  have hnew : Grown ((empty settings : Index α).withRules rules)
      ((empty settings).withRules rules) := ⟨.empty, .empty, rfl⟩
  have hgrown := hnew.of_run hrun
  obtain ⟨e, he, hgroups⟩ := lookup_eq_ok_iff.mp hfixed
  have hdirect : ((ix.encoder host .store).inMode (.query false)).direct
      host.fuel t 0 = some e := he
  obtain ⟨q, hq, hloose⟩ := Encoder.exists_loosened hdirect
  obtain ⟨groups₀, hgroups₀, hperm⟩ := lookupPattern_perm hgrown.check
    (o := { o with unify := false }) hmax hmin e
  obtain rfl := Except.ok.inj (hgroups₀.symm.trans hgroups)
  obtain ⟨groups', hgroups', hperm'⟩ := lookupPattern_perm hgrown.check
    (o := { o with unify := true }) hmax hmin q
  refine ⟨q, groups', query_of_direct hq,
    lookup_eq_ok_iff.mpr ⟨q, hq, hgroups'⟩, fun g hg => ?_⟩
  obtain ⟨hstored, hroot, b', taken, worth, hfits⟩ :=
    (mem_keys_iff hgrown.check_keys hperm).mp (List.mem_map_of_mem hg)
  obtain ⟨vs, hmem⟩ := hstored
  obtain ⟨hcompletes, hproper⟩ :=
    Key.check_eq_ok_iff.mp (hgrown.check_keys _ hmem)
  have hread := filled_readAll hcompletes hproper
  have hbindings : (∃ b, FitsUnder { o with unify := true } b [q] g.keys)
      ↔ Consistent [q] (Pattern.readAll g.keys) := by
    rw [← exists_agrees_iff]
    exact exists_congr (hfits.loosened_iff rfl hloose hread)
  have hroots : RootAllows { o with unify := true } q g.keys
      ↔ o.allowRootStar = true ∨ q.isStar = false := by
    constructor
    · exact Or.imp_right And.left
    · rintro (hallow | hstar)
      · exact Or.inl hallow
      · exact hroot.imp_right fun h => ⟨hstar, h.2⟩
  refine ⟨?_, fun hmvars hstars => Consistent.of_nodup hread ?_ hstars⟩
  · rw [mem_keys_iff hgrown.check_keys hperm', hroots, hbindings]
    exact and_iff_right ⟨vs, hmem⟩
  · rwa [Pattern.mvarsAll_singleton]

/-- The query `f ?0 ?0` finds `f *0 *0` and `f *0 *1` without unification. With
it, `?0` stands on two different stars of the second one. -/
theorem lookup_loosened_repeated :
    ∃ (host : Host) (s t : Term) (ix : Index Nat) (g h : Hit Nat)
      (groups : List (Hit Nat)),
      host = .ofTables 10 .empty .empty
      ∧ s = .app (.app (.const ⟨"f"⟩) (.mvar ⟨0⟩)) (.mvar ⟨1⟩)
      ∧ t = .app (.app (.const ⟨"f"⟩) (.mvar ⟨0⟩)) (.mvar ⟨0⟩)
      ∧ ((empty .standard).withRules []).run [.term host s 1, .term host t 2]
        = .ok ix
      ∧ ix.lookup host { LookupOptions.standard with unify := false } t
        = .ok [g, h]
      ∧ ix.lookup host .standard t = .ok groups
      ∧ g.keys ∈ groups.map Hit.keys ∧ h.keys ∉ groups.map Hit.keys := by
  let host := Host.ofTables 10 .empty .empty
  let f := fun m n : Nat =>
    Term.app (.app (.const ⟨"f"⟩) (.mvar ⟨m⟩)) (.mvar ⟨n⟩)
  let p := fun m n : Nat =>
    Pattern.app (.const ⟨"f"⟩) [.star (some ⟨m⟩), .star (some ⟨n⟩)]
  let e := Pattern.app (.const ⟨"f"⟩) [.fixed ⟨0⟩, .fixed ⟨0⟩]
  let g : Hit Nat := ⟨[.app (.const ⟨"f"⟩) 2, .star 0, .star 0], [2], 2⟩
  let h : Hit Nat := ⟨[.app (.const ⟨"f"⟩) 2, .star 0, .star 1], [1], 1⟩
  let o : LookupOptions := { LookupOptions.standard with unify := false }
  obtain ⟨ix, hpatterns, hhits⟩ : ∃ ix : Index Nat,
      ((empty .standard).withRules []).run
        [.pattern (p 0 1) 1, .pattern (p 0 0) 2] = .ok ix
      ∧ hits o ix.forest e = [g, h].map .ok := by
    refine ⟨_, rfl, ?_⟩
    rfl
  have hrun : ((empty .standard).withRules []).run
      [.term host (f 0 1) 1, .term host (f 0 0) 2] = .ok ix := by
    rw [← hpatterns]
    rfl
  obtain ⟨hquery, hdirect⟩ : ix.query host .standard (f 0 0) = .ok (p 0 0)
      ∧ (ix.encoder host (.query false)).direct host.fuel (f 0 0) 0
        = some e := by
    cases hpatterns
    exact ⟨rfl, rfl⟩
  have hfixed : ix.lookup host o (f 0 0) = .ok [g, h] :=
    lookup_eq_ok_iff.mpr ⟨e, hdirect, lookupPattern_of_hits rfl rfl hhits
      (by decide) (List.pairwise_pair.mpr (Nat.le_succ 1))⟩
  obtain ⟨q, groups, hq, hgroups, hkept⟩ :=
    lookup_loosened (o := .standard) .standard [] hrun rfl rfl hfixed
  obtain rfl := Except.ok.inj (hquery.symm.trans hq)
  refine ⟨host, _, _, ix, g, h, groups, rfl, rfl, rfl, hrun, hfixed, hgroups,
    (hkept g (by simp)).1.mpr ⟨Or.inr rfl, by decide⟩, fun hmem => ?_⟩
  exact absurd ((hkept h (by simp)).1.mp hmem).2 (by decide)

/-- Turning unification on can lose the only result. -/
theorem lookup_loosened_lost :
    ∃ (host : Host) (s t : Term) (ix : Index Nat) (g : Hit Nat),
      host = .ofTables 10 .empty .empty
      ∧ s = .app (.app (.const ⟨"f"⟩) (.mvar ⟨0⟩)) (.mvar ⟨1⟩)
      ∧ t = .app (.app (.const ⟨"f"⟩) (.mvar ⟨0⟩)) (.mvar ⟨0⟩)
      ∧ ((empty .standard).withRules []).run [.term host s 1] = .ok ix
      ∧ ix.lookup host { LookupOptions.standard with unify := false } t
        = .ok [g]
      ∧ ix.lookup host { LookupOptions.standard with unify := true } t
        = .ok [] := by
  refine ⟨_, _, _, _, ⟨[.app (.const ⟨"f"⟩) 2, .star 0, .star 1], [1], 1⟩,
    rfl, rfl, rfl, rfl, ?_, ?_⟩
  · refine lookup_eq_ok_iff.mpr ⟨_, rfl, lookupPattern_of_hits rfl rfl ?_
      (by decide) (List.pairwise_singleton _ _)⟩
    rfl
  · refine lookup_eq_ok_iff.mpr ⟨_, rfl, lookupPattern_of_hits rfl rfl ?_
      .nil .nil⟩
    rfl

end Index

end TermIndex
