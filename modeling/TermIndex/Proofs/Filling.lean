import Mathlib.Algebra.Order.BigOperators.Group.Finset
import TermIndex.Proofs.Fits

/-!
# Queries without live wildcards

If no wildcard of a query skips anything, then all that is open in a match is
what the stars of the sequence take. So the query is the sequence with its stars
filled in (`Filled`), and the score is the size of the query without what the
first occurrences took (`calls_exact`).

A query without any wildcard has no subtree of size zero. Then every star costs
something, and only the query's own sequence matches with the full score.
-/

namespace TermIndex

/-- The stars of a sequence, one for each place. -/
def starIds (ks : List Key) : List Nat := ks.filterMap Key.starId?

@[simp] theorem starIds_nil : starIds [] = [] := rfl

@[simp] theorem starIds_star (id : Nat) (ks : List Key) :
    starIds (.star id :: ks) = id :: starIds ks := rfl

theorem starIds_append (ks ls : List Key) :
    starIds (ks ++ ls) = starIds ks ++ starIds ls :=
  List.filterMap_append

theorem starIds_of_key {p : Pattern} {k : Key} (h : p.key? = some k)
    (ks : List Key) : starIds (k :: ks) = starIds ks :=
  List.filterMap_cons_none (Pattern.starId?_of_key h)

/-- Reading the keys in prefix order and putting `s id` in the place of the star
`id` gives the patterns. A hidden key may be read as a hidden or as any fixed
node, which is what `key?` says. -/
inductive Filled (s : Nat → Pattern) : List Key → List Pattern → Prop
  | nil : Filled s [] []
  | star {id : Nat} {ks : List Key} {ps : List Pattern}
      (h : Filled s ks ps) : Filled s (.star id :: ks) (s id :: ps)
  | node {p : Pattern} {k : Key} {ks : List Key} {ps : List Pattern}
      (hkey : p.key? = some k) (h : Filled s ks (p.children ++ ps)) :
      Filled s (k :: ks) (p :: ps)

/-! ## Fitting is filling -/

variable {o : LookupOptions} {s : Nat → Pattern} {ks : List Key}
  {ps : List Pattern}

theorem Filled.fits (h : Filled s ks ps)
    (hlive : ∀ m ∈ Pattern.wildcardsAll ps, ¬ o.Live m) :
    Fits o ⟨s, fun _ => []⟩ ps ks (starIds ks) (Pattern.sizes ps) := by
  induction h with
  | nil => exact .nil
  | @star id ks ps h ih =>
      rw [Pattern.wildcardsAll_cons] at hlive
      obtain ⟨hhere, hrest⟩ := List.forall_mem_append.mp hlive
      refine .take (fun m hm => hhere m ?_) rfl (ih hrest)
      rw [hm]
      exact List.mem_singleton_self m
  | @node p k ks ps hkey h ih =>
      rw [Pattern.wildcardsAll_of_key hkey] at hlive
      rw [Pattern.sizes_of_key hkey, starIds_of_key hkey]
      exact .node hkey (ih hlive)

theorem Fits.filled {b : Bindings} {taken : List Nat} {worth : Nat}
    (h : Fits o b ps ks taken worth)
    (hlive : ∀ m ∈ Pattern.wildcardsAll ps, ¬ o.Live m) :
    Filled b.star ks ps := by
  induction h with
  | nil => exact .nil
  | @node p k ps ks taken worth hkey h ih =>
      rw [Pattern.wildcardsAll_of_key hkey] at hlive
      exact .node hkey (ih hlive)
  | @take p id ps ks taken worth _ hbound h ih =>
      rw [Pattern.wildcardsAll_cons] at hlive
      obtain ⟨-, hrest⟩ := List.forall_mem_append.mp hlive
      rw [← hbound]
      exact .star (ih hrest)
  | @skip m front ps ks taken worth hm _ _ _ _ =>
      rw [Pattern.wildcardsAll_star] at hlive
      exact absurd hm (hlive m (List.mem_cons_self ..))

/-- A complete tree that begins with a star is nothing but the star. -/
theorem Key.Completes.head?_ne_star (hks : Key.Completes 1 ks)
    (hne : ∀ id, ks ≠ [.star id]) : ∀ id, ks.head? ≠ some (.star id) := by
  intro id hid
  obtain ⟨rest, rfl⟩ := List.head?_eq_some_iff.mp hid
  obtain ⟨n, hn, hrest⟩ := Key.completes_cons_iff.mp hks
  cases hn
  exact hne id (by rw [hrest.eq_nil])

/-- A wildcard fills a lone star only, so that it is allowed at the root
whenever the sequence is. -/
theorem Filled.rootAllows_iff {q : Pattern} (h : Filled s ks [q])
    (hks : Key.Completes 1 ks) :
    Search.RootAllows o q ks
      ↔ o.allowRootStar = true ∨ ∀ id, ks ≠ [.star id] := by
  refine or_congr Iff.rfl ⟨?_, fun hne => ⟨?_, hks.head?_ne_star hne⟩⟩
  · rintro ⟨-, hhead⟩ id rfl
    exact hhead id rfl
  · cases h with
    | star hrest =>
        cases hrest
        exact absurd rfl (hne _)
    | node hkey _ => exact Pattern.isStar_of_key hkey

/-! ## Queries without wildcards -/

theorem Pattern.keys_of_slots {q : Pattern} {ks : List Key}
    (h : q.slots = ks.map .key) : q.keys = ks := by
  rw [keys, h, Slot.numberedFrom_keys]

/-- Patterns without wildcards have a sequence without stars. -/
theorem Pattern.filled_slotsAll (s : Nat → Pattern) (ps : List Pattern) :
    wildcardsAll ps = [] →
      ∃ ks, slotsAll ps = ks.map .key ∧ starIds ks = [] ∧ Filled s ks ps := by
  induction ps using nodes_induction with
  | nil => exact fun _ => ⟨[], rfl, rfl, .nil⟩
  | star m ps _ =>
      intro h
      cases h
  | node p k ps hkey _ ih =>
      intro h
      rw [wildcardsAll_of_key hkey] at h
      obtain ⟨ks, hks, hstars, hfilled⟩ := ih h
      refine ⟨k :: ks, ?_, ?_, .node hkey hfilled⟩
      · rw [slotsAll_of_key hkey, hks, List.map_cons]
      · rw [starIds_of_key hkey, hstars]

/-- A sequence without stars is filled by patterns of that sequence only. -/
theorem Filled.slotsAll_eq (h : Filled s ks ps) (hstars : starIds ks = []) :
    Pattern.slotsAll ps = ks.map .key := by
  induction h with
  | nil => rfl
  | star _ _ => cases hstars
  | @node p k ks ps hkey _ ih =>
      rw [starIds_of_key hkey] at hstars
      rw [Pattern.slotsAll_of_key hkey, ih hstars, List.map_cons]

theorem Filled.wildcards_eq_nil (h : Filled s ks ps)
    (hps : Pattern.wildcardsAll ps = []) :
    ∀ id ∈ starIds ks, (s id).wildcards = [] := by
  induction h with
  | nil => simp
  | @star id ks ps h ih =>
      rw [Pattern.wildcardsAll_cons, List.append_eq_nil_iff] at hps
      rw [starIds_star]
      exact List.forall_mem_cons.mpr ⟨hps.1, ih hps.2⟩
  | @node p k ks ps hkey h ih =>
      rw [Pattern.wildcardsAll_of_key hkey] at hps
      rw [starIds_of_key hkey]
      exact ih hps

theorem Pattern.size_pos {p : Pattern} (h : p.wildcards = []) : 0 < p.size := by
  induction p using induction_on with
  | node p ih =>
      cases p with
      | star m => cases h
      | lam body => exact ih body (List.mem_singleton_self body) h
      | _ => simp [size, Nat.add_comm 1]

/-- If every star takes something of positive size, the stars cost nothing only
if there are none. -/
theorem sum_size_eq_zero_iff {ids : List Nat}
    (hpos : ∀ id ∈ ids, 0 < (s id).size) :
    ∑ id ∈ ids.toFinset, (s id).size = 0 ↔ ids = [] := by
  rw [Finset.sum_eq_zero_iff]
  constructor
  · intro hzero
    refine List.eq_nil_iff_forall_not_mem.mpr fun id hid => ?_
    exact (hpos id hid).ne' (hzero id (List.mem_toFinset.mpr hid))
  · rintro rfl id hid
    cases hid

/-! ## The search -/

namespace Search

variable {α : Type} {q : Pattern} {vs : List α}

/-- The hit of a query without live wildcards on one entry. -/
theorem hitOn_isSome_iff (hks : Key.Completes 1 ks)
    (hlive : ∀ m ∈ q.wildcards, ¬ o.Live m) :
    (hitOn o q (ks, vs)).isSome = true
      ↔ (o.allowRootStar = true ∨ ∀ id, ks ≠ [.star id])
        ∧ ∃ s, Filled s ks [q] := by
  replace hlive : ∀ m ∈ Pattern.wildcardsAll [q], ¬ o.Live m := by
    rwa [Pattern.wildcardsAll_singleton]
  constructor
  · intro hhit
    obtain ⟨hroot, b, taken, worth, hfits⟩ := fits_of_hitOn hks hhit
    have hfilled := hfits.filled hlive
    exact ⟨(hfilled.rootAllows_iff hks).mp hroot, b.star, hfilled⟩
  · rintro ⟨hroot, s, hfilled⟩
    obtain ⟨hit, hhit, -⟩ := hitOn_of_fits (e := (ks, vs))
      ((hfilled.rootAllows_iff hks).mpr hroot) (hfilled.fits hlive)
    rw [hhit]
    rfl

theorem score_of_filled (hks : Key.Completes 1 ks)
    (hlive : ∀ m ∈ q.wildcards, ¬ o.Live m) (hfilled : Filled s ks [q])
    {hit : Hit α} (hhit : hitOn o q (ks, vs) = some hit) :
    (hit.keys, hit.values) = (ks, vs)
      ∧ hit.score + ∑ id ∈ (starIds ks).toFinset, (s id).size = q.size := by
  replace hlive : ∀ m ∈ Pattern.wildcardsAll [q], ¬ o.Live m := by
    rwa [Pattern.wildcardsAll_singleton]
  obtain ⟨hroot, -⟩ := fits_of_hitOn hks (Option.isSome_of_eq_some hhit)
  obtain ⟨hit', hhit', hentry, hscore⟩ :=
    hitOn_of_fits (e := (ks, vs)) hroot (hfilled.fits hlive)
  obtain rfl := Option.some.inj (hhit.symm.trans hhit')
  exact ⟨hentry, hscore⟩

/-- A query without wildcards has its full score on its own sequence only. -/
theorem score_eq_size_iff (hks : Key.Completes 1 ks)
    (hq : q.wildcards = []) :
    (∃ hit ∈ hitOn o q (ks, vs), hit.score = q.size) ↔ ks = q.keys := by
  have hlive : ∀ m ∈ q.wildcards, ¬ o.Live m := by simp [hq]
  have hwild : Pattern.wildcardsAll [q] = [] := by
    rwa [Pattern.wildcardsAll_singleton]
  constructor
  · rintro ⟨hit, hhit, hsize⟩
    obtain ⟨-, s, hfilled⟩ :=
      (hitOn_isSome_iff hks hlive).mp (Option.isSome_of_eq_some hhit)
    obtain ⟨-, hscore⟩ := score_of_filled hks hlive hfilled hhit
    rw [hsize, Nat.add_eq_left] at hscore
    have hstars := (sum_size_eq_zero_iff fun id hid =>
      Pattern.size_pos (hfilled.wildcards_eq_nil hwild id hid)).mp hscore
    have hslots := hfilled.slotsAll_eq hstars
    rw [Pattern.slotsAll_singleton] at hslots
    exact (Pattern.keys_of_slots hslots).symm
  · rintro rfl
    obtain ⟨ks, hslots, hstars, hfilled⟩ :=
      Pattern.filled_slotsAll (fun _ => .hidden) [q] hwild
    rw [Pattern.slotsAll_singleton] at hslots
    obtain rfl := Pattern.keys_of_slots hslots
    have hne : ∀ id, q.keys ≠ [.star id] := by
      intro id hid
      rw [hid] at hstars
      cases hstars
    have hsome : (hitOn o q (q.keys, vs)).isSome = true :=
      (hitOn_isSome_iff hks hlive).mpr ⟨Or.inr hne, _, hfilled⟩
    obtain ⟨hit, hhit⟩ := Option.isSome_iff_exists.mp hsome
    obtain ⟨-, hscore⟩ := score_of_filled hks hlive hfilled hhit
    rw [hstars] at hscore
    exact ⟨hit, hhit, hscore⟩

/-- **What a query without live wildcards matches.** Against a single stored
sequence there is a call exactly if the stars of the sequence can be filled in
to give the query, and the root allows a lone star. The score is the size of
the query without what its stars take, each of them once. So a query without
any wildcard scores at most its size, and its size on its own sequence only. -/
theorem calls_exact {f : Forest α} (hf : f.check = .ok ())
    (hentries : f.entries = [(ks, vs)])
    (hlive : ∀ m ∈ q.wildcards, ¬ o.Live m) :
    ∃ call : Option (Hit α), calls o f q = .ok (call.toList, true)
      ∧ (call.isSome = true
        ↔ (o.allowRootStar = true ∨ ∀ id, ks ≠ [.star id])
          ∧ ∃ s, Filled s ks [q])
      ∧ (∀ hit ∈ call, (hit.keys, hit.values) = (ks, vs)
        ∧ ∀ s, Filled s ks [q] →
          hit.score + ∑ id ∈ (starIds ks).toFinset, (s id).size = q.size)
      ∧ (q.wildcards = [] →
        (∀ hit ∈ call, hit.score ≤ q.size)
        ∧ ((∃ hit ∈ call, hit.score = q.size) ↔ ks = q.keys)) := by
  have hshaped := Forest.check_eq_ok_iff.mp hf
  have hks : Key.Completes 1 ks :=
    hshaped.completes (ks, vs) (hentries ▸ List.mem_singleton_self _)
  have hfilled : ∀ hit ∈ hitOn o q (ks, vs), ∃ s, Filled s ks [q] :=
    fun hit hhit =>
      ((hitOn_isSome_iff hks hlive).mp (Option.isSome_of_eq_some hhit)).2
  refine ⟨hitOn o q (ks, vs), calls_single hshaped hentries o q,
    hitOn_isSome_iff hks hlive, fun hit hhit => ?_,
    fun hq => ⟨fun hit hhit => ?_, score_eq_size_iff hks hq⟩⟩
  · obtain ⟨s, hs⟩ := hfilled hit hhit
    exact ⟨(score_of_filled hks hlive hs hhit).1,
      fun s' hs' => (score_of_filled hks hlive hs' hhit).2⟩
  · obtain ⟨s, hs⟩ := hfilled hit hhit
    exact Nat.le_of_add_right_le (score_of_filled hks hlive hs hhit).2.le

/-- A star that stands twice takes `g a` twice, and pays for it once. -/
theorem calls_exact_repeated :
    ∃ (f : Forest Nat) (ga q : Pattern) (ks : List Key),
      ga = .app (.const ⟨"g"⟩) [.app (.const ⟨"a"⟩) []]
      ∧ q = .app (.const ⟨"f"⟩) [ga, ga]
      ∧ ks = [.app (.const ⟨"f"⟩) 2, .star 0, .star 0]
      ∧ f.check = .ok () ∧ f.entries = [(ks, [7])]
      ∧ Filled (fun _ => ga) ks [q]
      ∧ calls .standard f q = .ok ([⟨ks, [7], 3⟩], true)
      ∧ 3 + ga.size = q.size ∧ ks ≠ q.keys := by
  let ga := Pattern.app (.const ⟨"g"⟩) [.app (.const ⟨"a"⟩) []]
  let q := Pattern.app (.const ⟨"f"⟩) [ga, ga]
  let ks := [Key.app (.const ⟨"f"⟩) 2, .star 0, .star 0]
  have hcheck : (Forest.only (ks, [7])).check = .ok () := rfl
  have hentries : (Forest.only (ks, [7])).entries = [(ks, [7])] := rfl
  have hfilled : Filled (fun _ => ga) ks [q] := .node rfl (.star (.star .nil))
  have hhit : hitOn .standard q (ks, [7]) = some ⟨ks, [7], 3⟩ := rfl
  have hrun : calls .standard (Forest.only (ks, [7])) q
      = .ok ([⟨ks, [7], 3⟩], true) := by
    rw [calls_single (Forest.check_eq_ok_iff.mp hcheck) hentries, hhit]
    rfl
  obtain ⟨call, hcalls, -, hscore, hwild⟩ := calls_exact (o := .standard)
    (q := q) hcheck hentries (fun m hm => by cases hm)
  have hcall : call = some ⟨ks, [7], 3⟩ := by
    rw [hrun, Except.ok.injEq, Prod.mk.injEq] at hcalls
    exact Option.toList_eq_singleton_iff.mp hcalls.1.symm
  have hsize := (hscore _ hcall).2 _ hfilled
  have hids : (starIds ks).toFinset = {0} := rfl
  rw [hids, Finset.sum_singleton] at hsize
  obtain ⟨-, hfull⟩ := hwild rfl
  refine ⟨Forest.only (ks, [7]), ga, q, ks, rfl, rfl, rfl, hcheck, hentries,
    hfilled, hrun, hsize, fun hks => ?_⟩
  obtain ⟨hit, hmem, hfive⟩ := hfull.mpr hks
  rw [hcall, Option.mem_some_iff] at hmem
  subst hmem
  cases hfive

end Search

end TermIndex
