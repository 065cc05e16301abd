import Mathlib.Algebra.BigOperators.Ring.Finset
import TermIndex.Proofs.Reading

/-!
# More specific sequences score higher

Let the tree of one stored sequence come out of that of another by filling in
its stars, and let both match a query without wildcards. Then the first one
scores at least as much (`calls_specific`).

A score is the size of the query without what the stars take, each of them once.
So the two scores are compared by what the stars take (`Refined.sum_sizes_eq`). What
a star of the general sequence takes is what it is filled with, filled in once
more: it has the size of the former, and in addition what the stars of the
special sequence take, as often as they stand there. The special sequence pays
for each of its stars once only.
-/

namespace TermIndex

/-- The numbers of the wildcards that were read from stars, one for each
place. -/
def Pattern.stars (p : Pattern) : List Nat :=
  p.wildcards.filterMap fun m => m.map MVar.id

def Pattern.starsAll (ps : List Pattern) : List Nat :=
  (wildcardsAll ps).filterMap fun m => m.map MVar.id

variable {s s₁ s₂ : Nat → Pattern} {ks ls : List Key}
  {ps ts qs : List Pattern}

theorem Filled.starsAll_eq (h : Filled s ks ps) :
    Pattern.starsAll ps = (starIds ks).flatMap fun id => (s id).stars := by
  rw [Pattern.starsAll, h.wildcardsAll_eq, List.filterMap_flatMap]
  rfl

/-- The stars of what was read are those of the sequence. -/
theorem Filled.starsAll_ofStar (h : Filled Pattern.ofStar ks ps) :
    Pattern.starsAll ps = starIds ks := by
  rw [h.starsAll_eq]
  exact List.flatMap_singleton' _

/-- Patterns `qs` match two sequences. The trees `ts` of the special one, `ls`,
come out of the general one, `ks`, with `s id` in the place of the star `id`. -/
structure Refined (s s₁ s₂ : Nat → Pattern) (ls ks : List Key)
    (ts qs : List Pattern) : Prop where
  special : Filled s₁ ls qs
  general : Filled s₂ ks qs
  read : Filled Pattern.ofStar ls ts
  filled : Filled s ks ts

/-! ## What one star takes -/

/-- What a star of the general sequence takes is what it is filled with, with
the stars of the special one filled in. -/
theorem Filled.under (h₂ : Filled s₂ ks qs) (h₁ : Filled s₁ ls qs)
    (hread : Filled Pattern.ofStar ls ts) (hs : Filled s ks ts) :
    ∀ id ∈ starIds ks, ∃ as,
      Filled Pattern.ofStar as [s id] ∧ Filled s₁ as [s₂ id] := by
  induction h₂ generalizing ls ts with
  | nil => exact List.forall_mem_nil _
  | @star id ks qs h₂ ih =>
      cases hs with
      | node hkey _ => exact (Walk.key?_ne_star hkey).elim
      | star hs =>
          obtain ⟨as, bs, rfl, hleft, hright, hread, h₁⟩ := hread.split_both h₁
          exact List.forall_mem_cons.mpr ⟨⟨as, hleft, hright⟩, ih h₁ hread hs⟩
  | @node p k ks qs hkey h₂ ih =>
      rw [starIds_of_key hkey]
      cases hs with
      | star _ => exact (Walk.key?_ne_star hkey).elim
      | node hkey' hs =>
          cases hread with
          | star _ => cases hkey'
          | node hkey'' hread =>
              obtain rfl := Option.some.inj (hkey'.symm.trans hkey'')
              cases h₁ with
              | star _ => exact (Walk.key?_ne_star hkey).elim
              | node _ h₁ => exact ih h₁ hread hs

namespace Refined

theorem size_eq (h : Refined s s₁ s₂ ls ks ts qs) {id : Nat}
    (hid : id ∈ starIds ks) :
    (s₂ id).size
      = (s id).size + ((s id).stars.map fun j => (s₁ j).size).sum := by
  obtain ⟨as, hleft, hright⟩ :=
    h.general.under h.special h.read h.filled id hid
  have hsizes := hright.sizes_eq hleft
  have hstars : (s id).stars = starIds as := by
    have hall := hleft.starsAll_ofStar
    rwa [Pattern.starsAll, Pattern.wildcardsAll_singleton] at hall
  rw [hstars]
  simpa [Pattern.sizes] using hsizes

/-- The stars of the special sequence are those that the stars of the general
one are filled with. -/
theorem mem_starIds_iff (h : Refined s s₁ s₂ ls ks ts qs) {j : Nat} :
    j ∈ starIds ls ↔ ∃ id ∈ starIds ks, j ∈ (s id).stars := by
  rw [← h.read.starsAll_ofStar, h.filled.starsAll_eq, List.mem_flatMap]

end Refined

/-! ## What the stars take altogether -/

/-- How often a star stands in what the stars of a sequence are filled with, if
each of them is filled in once. -/
def timesIn (s : Nat → Pattern) (ks : List Key) (j : Nat) : Nat :=
  ∑ id ∈ (starIds ks).toFinset, (s id).stars.count j

theorem timesIn_pos {id j : Nat} (hid : id ∈ starIds ks)
    (hj : j ∈ (s id).stars) : 0 < timesIn s ks j := by
  have hcount : 0 < (s id).stars.count j := List.count_pos_iff.mpr hj
  have hle : (s id).stars.count j ≤ timesIn s ks j :=
    Finset.single_le_sum (f := fun i => (s i).stars.count j)
      (fun _ _ => Nat.zero_le _) (List.mem_toFinset.mpr hid)
  exact hcount.trans_le hle

/-- A star that two stars share stands there twice. -/
theorem one_lt_timesIn {i id j : Nat} (hi : i ∈ starIds ks)
    (hid : id ∈ starIds ks) (hne : i ≠ id) (hj : j ∈ (s i).stars)
    (hj' : j ∈ (s id).stars) : 1 < timesIn s ks j := by
  have hcount : 0 < (s i).stars.count j := List.count_pos_iff.mpr hj
  have hcount' : 0 < (s id).stars.count j := List.count_pos_iff.mpr hj'
  have hle : (s i).stars.count j + (s id).stars.count j ≤ timesIn s ks j :=
    Finset.add_le_sum (f := fun i => (s i).stars.count j)
      (fun _ _ => Nat.zero_le _) (List.mem_toFinset.mpr hi)
      (List.mem_toFinset.mpr hid) hne
  omega

/-- A sum over a list counts every element as often as it stands there. -/
theorem sum_map_eq_sum_count {l : List Nat} {t : Finset Nat}
    (hl : ∀ j ∈ l, j ∈ t) (w : Nat → Nat) :
    (l.map w).sum = ∑ j ∈ t, l.count j * w j := by
  have hsub : l.toFinset ⊆ t := fun j hj => hl j (List.mem_toFinset.mp hj)
  rw [Finset.sum_list_map_count]
  simp only [Nat.nsmul_eq_mul]
  refine Finset.sum_subset hsub fun j _ hj => ?_
  have hnot : j ∉ l := fun hmem => hj (List.mem_toFinset.mpr hmem)
  rw [List.count_eq_zero_of_not_mem hnot, Nat.zero_mul]

namespace Refined

variable (h : Refined s s₁ s₂ ls ks ts qs)

include h

/-- What the stars of the general sequence take, each of them once. -/
theorem sum_sizes_eq :
    ∑ id ∈ (starIds ks).toFinset, (s₂ id).size
      = ∑ id ∈ (starIds ks).toFinset, (s id).size
        + ∑ j ∈ (starIds ls).toFinset, timesIn s ks j * (s₁ j).size := by
  have hstar : ∀ id ∈ (starIds ks).toFinset, (s₂ id).size = (s id).size
      + ∑ j ∈ (starIds ls).toFinset, (s id).stars.count j * (s₁ j).size := by
    intro id hmem
    have hid := List.mem_toFinset.mp hmem
    have hstars : ∀ j ∈ (s id).stars, j ∈ (starIds ls).toFinset := fun j hj =>
      List.mem_toFinset.mpr (h.mem_starIds_iff.mpr ⟨id, hid, hj⟩)
    rw [h.size_eq hid, sum_map_eq_sum_count hstars]
  rw [Finset.sum_congr rfl hstar, Finset.sum_add_distrib, Finset.sum_comm]
  simp only [timesIn, Finset.sum_mul]

/-- Every star of the special sequence stands there, so that it is paid for. -/
theorem le_timesIn_mul (w : Nat → Nat) :
    ∀ j ∈ (starIds ls).toFinset, w j ≤ timesIn s ks j * w j := by
  intro j hj
  obtain ⟨id, hid, hmem⟩ := h.mem_starIds_iff.mp (List.mem_toFinset.mp hj)
  exact Nat.le_mul_of_pos_left _ (timesIn_pos hid hmem)

theorem sum_sizes_le :
    ∑ j ∈ (starIds ls).toFinset, (s₁ j).size
      ≤ ∑ id ∈ (starIds ks).toFinset, (s₂ id).size := by
  have hpaid := Finset.sum_le_sum (h.le_timesIn_mul fun j => (s₁ j).size)
  rw [h.sum_sizes_eq]
  exact hpaid.trans (Nat.le_add_left ..)

/-- A star that is shared is paid for at least twice, if it takes anything. -/
theorem sum_sizes_lt_of_shared (hqs : Pattern.wildcardsAll qs = [])
    {i id j : Nat} (hi : i ∈ starIds ks) (hid : id ∈ starIds ks) (hne : i ≠ id)
    (hj : j ∈ (s i).stars) (hj' : j ∈ (s id).stars) :
    ∑ j ∈ (starIds ls).toFinset, (s₁ j).size
      < ∑ id ∈ (starIds ks).toFinset, (s₂ id).size := by
  have hmem : j ∈ starIds ls := h.mem_starIds_iff.mpr ⟨i, hi, hj⟩
  have hsize : 0 < (s₁ j).size :=
    Pattern.size_pos (h.special.wildcards_eq_nil hqs j hmem)
  have hlt : (s₁ j).size < timesIn s ks j * (s₁ j).size :=
    (Nat.lt_mul_iff_one_lt_left hsize).mpr (one_lt_timesIn hi hid hne hj hj')
  have hpaid := Finset.sum_lt_sum (h.le_timesIn_mul fun j => (s₁ j).size)
    ⟨j, List.mem_toFinset.mpr hmem, hlt⟩
  rw [h.sum_sizes_eq]
  exact hpaid.trans_le (Nat.le_add_left ..)

/-- What a star is filled with is matched instead of taken. -/
theorem sum_sizes_lt_of_size_pos {i : Nat} (hi : i ∈ starIds ks)
    (hpos : 0 < (s i).size) :
    ∑ j ∈ (starIds ls).toFinset, (s₁ j).size
      < ∑ id ∈ (starIds ks).toFinset, (s₂ id).size := by
  have hsum : 0 < ∑ i ∈ (starIds ks).toFinset, (s i).size :=
    hpos.trans_le (Finset.single_le_sum (f := fun i => (s i).size)
      (fun _ _ => Nat.zero_le _) (List.mem_toFinset.mpr hi))
  have hpaid := Finset.sum_le_sum (h.le_timesIn_mul fun j => (s₁ j).size)
  rw [h.sum_sizes_eq]
  exact hpaid.trans_lt (Nat.lt_add_of_pos_left hsum)

end Refined

/-! ## The scores -/

namespace Search

variable {α : Type} {o : LookupOptions} {q : Pattern}

/-- A call of a query without wildcards is worth the size of the query without
what the stars of the stored sequence take. -/
theorem filled_of_mem_calls {f : Forest α} (hf : f.Shaped)
    (hq : q.wildcards = []) {cs : List (Hit α)}
    (hcs : calls o f q = .ok (cs, true)) {hit : Hit α} (hhit : hit ∈ cs) :
    ∃ s, Filled s hit.keys [q]
      ∧ hit.score + ∑ id ∈ (starIds hit.keys).toFinset, (s id).size
        = q.size := by
  have hlive : ∀ m ∈ q.wildcards, ¬ o.Live m := by simp [hq]
  obtain ⟨cs', hcs', hperm⟩ := calls_perm hf o q
  obtain ⟨rfl, -⟩ := Prod.mk.inj (Except.ok.inj (hcs.symm.trans hcs'))
  obtain ⟨⟨ks, vs⟩, he, hon⟩ := List.mem_filterMap.mp (hperm.mem_iff.mp hhit)
  have hks : Key.Completes 1 ks := hf.completes _ he
  obtain ⟨-, s, hfilled⟩ :=
    (hitOn_isSome_iff hks hlive).mp (Option.isSome_of_eq_some hon)
  obtain ⟨hentry, hscore⟩ := score_of_filled hks hlive hfilled hon
  obtain ⟨rfl, rfl⟩ := Prod.mk.inj hentry
  exact ⟨s, hfilled, hscore⟩

/-- **More specific sequences never rank lower.** Let the tree of one sequence
be that of another with `s id` in the place of the star `id`. If a query without
wildcards matches both, the first one scores at least as much. It scores more if
two stars are filled with trees that share a star, or if one is filled with
something of positive size. -/
theorem calls_specific {f : Forest α} (hf : f.check = .ok ())
    (hq : q.wildcards = []) :
    ∃ cs, calls o f q = .ok (cs, true) ∧ ∀ h₁ ∈ cs, ∀ h₂ ∈ cs,
      Key.check h₁.keys = .ok () →
      ∀ s, Filled s h₂.keys (Pattern.readAll h₁.keys) →
        h₂.score ≤ h₁.score
        ∧ ((∃ i ∈ starIds h₂.keys, ∃ id ∈ starIds h₂.keys, i ≠ id
              ∧ ∃ j ∈ (s i).stars, j ∈ (s id).stars)
            ∨ (∃ i ∈ starIds h₂.keys, 0 < (s i).size) →
          h₂.score < h₁.score) := by
  have hshaped := Forest.check_eq_ok_iff.mp hf
  obtain ⟨cs, hcs, -⟩ := calls_perm hshaped o q
  refine ⟨cs, hcs, fun h₁ hmem₁ h₂ hmem₂ hcheck s hs => ?_⟩
  have hqs : Pattern.wildcardsAll [q] = [] := by
    rwa [Pattern.wildcardsAll_singleton]
  obtain ⟨hcompletes, hproper⟩ := Key.check_eq_ok_iff.mp hcheck
  have hread := filled_readAll hcompletes hproper
  obtain ⟨s₁, hs₁, hscore₁⟩ := filled_of_mem_calls hshaped hq hcs hmem₁
  obtain ⟨s₂, hs₂, hscore₂⟩ := filled_of_mem_calls hshaped hq hcs hmem₂
  have hrefined : Refined s s₁ s₂ h₁.keys h₂.keys
      (Pattern.readAll h₁.keys) [q] := ⟨hs₁, hs₂, hread, hs⟩
  constructor
  · have hle := hrefined.sum_sizes_le
    omega
  · rintro (⟨i, hi, id, hid, hne, j, hj, hj'⟩ | ⟨i, hi, hpos⟩)
    · have hlt := hrefined.sum_sizes_lt_of_shared hqs hi hid hne hj hj'
      omega
    · have hlt := hrefined.sum_sizes_lt_of_size_pos hi hpos
      omega

/-- The query `Sort → Sort` scores more on `*0 → *0` than on `*0 → *1`, which
becomes the former once both stars are filled with the same star. -/
theorem calls_specific_shared :
    ∃ (f : Forest Nat) (q : Pattern) (h₁ h₂ : Hit Nat),
      q = .pi .sort .sort ∧ h₁.keys = [.pi, .star 0, .star 0]
      ∧ h₂.keys = [.pi, .star 0, .star 1]
      ∧ f.check = .ok () ∧ q.wildcards = [] ∧ Key.check h₁.keys = .ok ()
      ∧ Filled (fun _ => .ofStar 0) h₂.keys (Pattern.readAll h₁.keys)
      ∧ calls .standard f q = .ok ([h₁, h₂], true) ∧ h₂.score < h₁.score := by
  let q := Pattern.pi .sort .sort
  let h₁ : Hit Nat := ⟨[.pi, .star 0, .star 0], [1], 2⟩
  let h₂ : Hit Nat := ⟨[.pi, .star 0, .star 1], [2], 1⟩
  let f : Forest Nat := Forest.empty.set .pi
    (.path [.star 0] (.node [(.star 0, .leaf [1]), (.star 1, .leaf [2])]))
  have hf : f.check = .ok () := rfl
  have hcheck : Key.check h₁.keys = .ok () := rfl
  have hs : Filled (fun _ => .ofStar 0) h₂.keys (Pattern.readAll h₁.keys) :=
    .node rfl (.star (.star .nil))
  have hrun : calls .standard f q = .ok ([h₁, h₂], true) := rfl
  obtain ⟨cs, hcs, hall⟩ := calls_specific (o := .standard) hf (q := q) rfl
  obtain ⟨rfl, -⟩ := Prod.mk.inj (Except.ok.inj (hrun.symm.trans hcs))
  have hmem₁ : h₁ ∈ [h₁, h₂] := List.mem_cons_self ..
  have hmem₂ : h₂ ∈ [h₁, h₂] := List.mem_cons_of_mem _ (List.mem_cons_self ..)
  obtain ⟨-, hlt⟩ := hall h₁ hmem₁ h₂ hmem₂ hcheck _ hs
  -- Both stars are filled with the star `0`.
  have hzero : 0 ∈ (Pattern.ofStar 0).stars := List.mem_singleton_self 0
  have hshared := hlt (Or.inl ⟨0, by decide, 1, by decide, by decide,
    0, hzero, hzero⟩)
  exact ⟨f, q, h₁, h₂, rfl, rfl, rfl, hf, rfl, hcheck, hs, hrun, hshared⟩

end Search

end TermIndex
