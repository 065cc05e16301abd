import Mathlib.Data.List.Forall2
import Mathlib.Data.List.Induction
import Mathlib.Data.List.Nodup
import Mathlib.Data.List.Perm.Subperm
import Mathlib.Data.List.Sections
import TermIndex.Encoding.Encoder

/-!
# Choices under a cap

The encoder combines lists of alternatives and keeps only the first results, at
every step and not just at the end. None of the results that are kept can be
missed in this way: the front of a product is made from the fronts of its
factors (`choices_take`), and so is the front of two lists that are joined
without repetitions (`take_distinct_append`).

For the product this holds because no factor is empty. For the joined lists it
is a matter of counting: what is left out of the second list because it occurs
in the first one takes up no more places than it has there.
-/

namespace TermIndex

variable {β γ : Type} {n : Nat}

/-! ## Fronts of lists -/

/-- The front of a list of blocks is made from the fronts of the first blocks,
as long as no block is empty. -/
theorem take_flatMap {f g : β → List γ} {xs : List β} {m : Nat} (hm : m ≤ n)
    (hne : ∀ x ∈ xs, f x ≠ []) (h : ∀ x ∈ xs, (f x).take m = (g x).take m) :
    ((xs.take n).flatMap f).take m = (xs.flatMap g).take m := by
  induction xs generalizing n m with
  | nil => simp
  | cons x xs ih =>
      obtain ⟨hx, hxs⟩ := List.forall_mem_cons.mp h
      obtain ⟨hne, hnes⟩ := List.forall_mem_cons.mp hne
      cases n with
      | zero =>
          obtain rfl := Nat.le_zero.mp hm
          rw [List.take_zero, List.take_zero]
      | succ n =>
          have hpos := List.length_pos_of_ne_nil hne
          have hrest : ∀ y ∈ xs, (f y).take (m - (f x).length)
              = (g y).take (m - (f x).length) := fun y hy => by
            have hy := congrArg (List.take (m - (f x).length)) (hxs y hy)
            rwa [List.take_take, List.take_take,
              Nat.min_eq_left (Nat.sub_le ..)] at hy
          have hlength : m - (f x).length = m - (g x).length := by
            have heq := congrArg List.length hx
            rw [List.length_take, List.length_take] at heq
            omega
          rw [List.take_succ_cons, List.flatMap_cons, List.flatMap_cons,
            List.take_append, List.take_append, hx, ih (by omega) hnes hrest,
            hlength]

variable [DecidableEq β]

/-! ## Lists without repetitions -/

theorem mem_distinct {x : β} {xs : List β} : x ∈ distinct xs ↔ x ∈ xs := by
  induction xs with
  | nil => rfl
  | cons y xs ih =>
      rw [distinct, List.mem_cons, List.mem_cons, List.mem_filter, ih,
        decide_eq_true_eq]
      by_cases hx : x = y <;> simp [hx]

theorem nodup_distinct (xs : List β) : (distinct xs).Nodup := by
  induction xs with
  | nil => exact List.nodup_nil
  | cons x xs ih => exact List.nodup_cons.mpr ⟨by simp, ih.filter _⟩

theorem distinct_of_nodup {xs : List β} (h : xs.Nodup) : distinct xs = xs := by
  induction xs with
  | nil => rfl
  | cons x xs ih =>
      obtain ⟨hx, hxs⟩ := List.nodup_cons.mp h
      rw [distinct, ih hxs, List.filter_eq_self.mpr]
      exact fun y hy => decide_eq_true fun heq => hx (heq ▸ hy)

theorem distinct_append (xs ys : List β) :
    distinct (xs ++ ys) = distinct xs ++ (distinct ys).filter (· ∉ xs) := by
  induction xs with
  | nil => simp [distinct]
  | cons x xs ih =>
      rw [List.cons_append, distinct, distinct, ih, List.filter_append,
        List.filter_filter, List.cons_append]
      simp only [List.mem_cons, not_or, Bool.decide_and]

theorem distinct_map_const {xs : List γ} (h : xs ≠ []) (y : β) :
    distinct (xs.map fun _ => y) = [y] := by
  obtain ⟨x, xs, rfl⟩ := List.exists_cons_of_ne_nil h
  rw [List.map_cons, distinct, List.filter_eq_nil_iff.mpr]
  intro z hz
  obtain ⟨_, -, rfl⟩ := List.mem_map.mp (mem_distinct.mp hz)
  simp

/-- At most as many elements are in another list as that list has. -/
theorem length_le_filter_notMem {ys : List β} (hy : ys.Nodup) (xs : List β) :
    ys.length ≤ xs.length + (ys.filter (· ∉ xs)).length := by
  have hsub : ys.filter (· ∈ xs) ⊆ xs := fun y hmem =>
    of_decide_eq_true (List.mem_filter.mp hmem).2
  have hle := ((hy.filter _).subperm hsub).length_le
  have hsum := List.length_eq_length_filter_add (l := ys) (decide <| · ∈ xs)
  simp only [← decide_not] at hsum
  omega

/-- The front of two lists that are joined without repetitions is made from
their fronts. -/
theorem take_distinct_append {xs ys : List β} (hx : xs.Nodup) (hy : ys.Nodup)
    (n : Nat) :
    (distinct (xs.take n ++ ys.take n)).take n
      = (distinct (xs ++ ys)).take n := by
  rw [distinct_append, distinct_append, distinct_of_nodup hx,
    distinct_of_nodup hy, distinct_of_nodup (hx.sublist (List.take_sublist ..)),
    distinct_of_nodup (hy.sublist (List.take_sublist ..))]
  rcases Nat.le_total n xs.length with hle | hle
  · rw [List.take_append_of_le_length (by simp [hle]), List.take_take,
      Nat.min_self, List.take_append_of_le_length hle]
  · rw [List.take_of_length_le hle, List.take_append, List.take_append]
    congr 1
    -- What is dropped from the second list is too late in any case.
    rcases Nat.le_total ys.length n with hys | hys
    · rw [List.take_of_length_le hys]
    · have hcount := length_le_filter_notMem
        (hy.sublist (List.take_sublist n ys)) xs
      rw [List.length_take, Nat.min_eq_left hys] at hcount
      conv => rhs; rw [← List.take_append_drop n ys, List.filter_append]
      rw [List.take_append_of_le_length (by omega)]

/-! ## Alternatives -/

omit [DecidableEq β] in
/-- There is at least one, and no two are the same. -/
structure Alternatives (xs : List β) : Prop where
  ne_nil : xs ≠ []
  nodup : xs.Nodup

omit [DecidableEq β] in
theorem Alternatives.singleton (x : β) : Alternatives [x] :=
  ⟨List.cons_ne_nil x [], List.nodup_singleton x⟩

omit [DecidableEq β] in
theorem Alternatives.take {xs : List β} (h : Alternatives xs) (hn : n ≠ 0) :
    Alternatives (xs.take n) :=
  ⟨fun hnil => (List.take_eq_nil_iff.mp hnil).elim hn h.ne_nil,
    h.nodup.sublist (List.take_sublist ..)⟩

/-! ## Products -/

/-- Every choice of one pattern from each list, in lexicographic order. -/
def products (lists : List (List Pattern)) : List (List Pattern) :=
  lists.reverse.sections.map List.reverse

theorem products_nil : products [] = [[]] := rfl

theorem products_concat (lists : List (List Pattern)) (l : List Pattern) :
    products (lists ++ [l])
      = (products lists).flatMap fun combo => l.map fun p => combo ++ [p] := by
  simp only [products, List.reverse_append, List.reverse_singleton,
    List.singleton_append, List.sections, List.map_flatMap, List.flatMap_map,
    List.map_map]
  congr 1
  funext combo
  simp [Function.comp_def]

theorem products_singleton (l : List Pattern) :
    products [l] = l.map fun p => [p] := by
  simpa [products_nil] using products_concat [] l

theorem products_lone (ps : List Pattern) :
    products (ps.map fun p => [p]) = [ps] := by
  induction ps using List.reverseRecOn with
  | nil => rfl
  | append_singleton ps p ih =>
      rw [List.map_append, List.map_singleton, products_concat, ih]
      rfl

theorem mem_products {lists : List (List Pattern)} {ps : List Pattern} :
    ps ∈ products lists ↔ List.Forall₂ (· ∈ ·) ps lists := by
  rw [products, List.mem_map]
  constructor
  · rintro ⟨qs, hqs, rfl⟩
    rw [← List.forall₂_reverse_iff, List.reverse_reverse]
    exact List.mem_sections.mp hqs
  · intro h
    exact ⟨ps.reverse, List.mem_sections.mpr (List.forall₂_reverse_iff.mpr h),
      List.reverse_reverse ps⟩

theorem length_of_mem_products {lists : List (List Pattern)}
    {ps : List Pattern} (h : ps ∈ products lists) : ps.length = lists.length :=
  (mem_products.mp h).length_eq

/-- Choices that go on in different ways stay different. -/
theorem nodup_extend {combos : List (List Pattern)} {l : List Pattern}
    (hcombos : combos.Nodup) (hl : l.Nodup) :
    (combos.flatMap fun combo => l.map fun p => combo ++ [p]).Nodup := by
  refine List.nodup_flatMap.mpr ⟨fun combo _ => ?_, ?_⟩
  · exact hl.map fun p q hpq =>
      List.singleton_injective (List.append_cancel_left hpq)
  · refine hcombos.imp fun {combo combo'} hne ps hps hps' => hne ?_
    obtain ⟨p, -, rfl⟩ := List.mem_map.mp hps
    obtain ⟨q, -, hq⟩ := List.mem_map.mp hps'
    exact (List.append_inj' hq rfl).1.symm

theorem Alternatives.products {lists : List (List Pattern)}
    (h : ∀ l ∈ lists, Alternatives l) : Alternatives (products lists) := by
  induction lists using List.reverseRecOn with
  | nil => exact .singleton []
  | append_singleton lists l ih =>
      obtain ⟨hlists, hl⟩ := List.forall_mem_append.mp h
      replace hl := hl l (List.mem_singleton_self l)
      obtain ⟨hne, hnodup⟩ := ih hlists
      rw [products_concat]
      refine ⟨?_, nodup_extend hnodup hl.nodup⟩
      obtain ⟨combo, hcombo⟩ := List.exists_mem_of_ne_nil _ hne
      obtain ⟨p, hp⟩ := List.exists_mem_of_ne_nil _ hl.ne_nil
      exact List.ne_nil_of_mem (List.mem_flatMap.mpr
        ⟨combo, hcombo, List.mem_map_of_mem hp⟩)

namespace Encoder

variable {enc : Encoder} {lists : List (List Pattern)}

theorem cap_ne_zero (enc : Encoder) : enc.cap ≠ 0 := by
  unfold cap
  omega

theorem limit_of_nodup {xs : List β} (h : xs.Nodup) :
    enc.limit xs = xs.take enc.cap := by
  rw [limit, distinct_of_nodup h]

/-- The choices from the fronts of the lists are the first choices of all. -/
theorem choices_take (h : ∀ l ∈ lists, Alternatives l) :
    enc.choices (lists.map (List.take enc.cap))
      = (products lists).take enc.cap := by
  induction lists using List.reverseRecOn with
  | nil => exact (List.take_of_length_le (Nat.le_max_left ..)).symm
  | append_singleton lists l ih =>
      obtain ⟨hlists, hl⟩ := List.forall_mem_append.mp h
      replace hl := (hl l (List.mem_singleton_self l)).take enc.cap_ne_zero
      have hcombos := (Alternatives.products hlists).take enc.cap_ne_zero
      rw [choices] at ih ⊢
      rw [List.map_append, List.map_singleton, List.foldl_append, ih hlists,
        List.foldl_cons, List.foldl_nil,
        limit_of_nodup (nodup_extend hcombos.nodup hl.nodup), products_concat]
      refine take_flatMap (Nat.le_refl _) (fun combo _ => ?_)
        (fun combo _ => ?_)
      · exact mt List.map_eq_nil_iff.mp hl.ne_nil
      · rw [List.map_take, List.take_take, Nat.min_self]

/-- What is built from the fronts of the lists comes first among all that is
built, if different choices build different patterns. -/
theorem combine_take (h : ∀ l ∈ lists, Alternatives l)
    {build : List Pattern → Pattern}
    (hbuild : ∀ ps qs, ps.length = lists.length → qs.length = lists.length →
      build ps = build qs → ps = qs) :
    enc.combine (lists.map (List.take enc.cap)) build
      = (distinct ((products lists).map build)).take enc.cap := by
  have hnodup : ((products lists).map build).Nodup :=
    (Alternatives.products h).nodup.map_on fun ps hps qs hqs heq =>
      hbuild ps qs (length_of_mem_products hps) (length_of_mem_products hqs) heq
  rw [combine, choices_take h, List.map_take, distinct_of_nodup hnodup]

end Encoder

end TermIndex
