import Mathlib.Data.List.Basic
import Mathlib.Data.List.Nodup
import Mathlib.Data.List.Induction

/-!
# Numbering by first occurrence

The rank of an entry of a list is its place among the different entries, in the
order in which they first occur. Entries that come later do not change it
(`ranks_append`), and it does not depend on what the entries are, but only on
which of them are equal: renaming keeps all ranks (`ranks_map`), and lists of
one length have the same ranks exactly if equal entries stand at the same places
(`ranks_eq_iff`).
-/

namespace TermIndex

variable {ι κ : Type} [DecidableEq ι] [DecidableEq κ]

/-! ## Different entries -/

theorem eraseDups_concat (xs : List ι) (x : ι) :
    (xs ++ [x]).eraseDups
      = if x ∈ xs then xs.eraseDups else xs.eraseDups ++ [x] := by
  rw [List.eraseDups_append]
  by_cases hx : x ∈ xs
  · simp [List.removeAll, hx]
  · simp [List.removeAll, hx, List.eraseDups_cons]

theorem nodup_eraseDups (xs : List ι) : xs.eraseDups.Nodup := by
  induction xs using List.reverseRecOn with
  | nil => exact List.nodup_nil
  | append_singleton xs x ih =>
      rw [eraseDups_concat]
      split
      · exact ih
      · next hx =>
          rw [← List.concat_eq_append]
          exact List.Nodup.concat (mt List.mem_eraseDups.mp hx) ih

/-- No two entries become equal under `f`. -/
def Apart (f : ι → κ) (xs : List ι) : Prop :=
  ∀ a ∈ xs, ∀ b ∈ xs, f a = f b → a = b

theorem eraseDups_map {f : ι → κ} {xs : List ι} (hf : Apart f xs) :
    (xs.map f).eraseDups = xs.eraseDups.map f := by
  induction xs using List.reverseRecOn with
  | nil => rfl
  | append_singleton xs x ih =>
      have hxs : Apart f xs := fun a ha b hb =>
        hf a (List.mem_append_left _ ha) b (List.mem_append_left _ hb)
      have hmem : f x ∈ xs.map f ↔ x ∈ xs := by
        refine ⟨fun h => ?_, List.mem_map_of_mem⟩
        obtain ⟨y, hy, hyx⟩ := List.mem_map.mp h
        have heq := hf y (List.mem_append_left _ hy) x (by simp) hyx
        rwa [← heq]
      rw [List.map_append, List.map_singleton, eraseDups_concat,
        eraseDups_concat, ih hxs]
      by_cases hx : x ∈ xs
      · rw [if_pos hx, if_pos (hmem.mpr hx)]
      · rw [if_neg hx, if_neg (mt hmem.mp hx), List.map_append,
          List.map_singleton]

omit [DecidableEq ι] [DecidableEq κ] in
theorem idxOf_map [BEq ι] [LawfulBEq ι] [BEq κ] [LawfulBEq κ] {f : ι → κ}
    {x : ι} {xs : List ι}
    (hf : ∀ y ∈ xs, f y = f x → y = x) :
    (xs.map f).idxOf (f x) = xs.idxOf x := by
  induction xs with
  | nil => rfl
  | cons y xs ih =>
      obtain ⟨hy, hxs⟩ := List.forall_mem_cons.mp hf
      by_cases hyx : y = x
      · simp [hyx]
      · rw [List.map_cons, List.idxOf_cons_ne _ hyx,
          List.idxOf_cons_ne _ (mt hy hyx), ih hxs]

/-- Different numbers stand at their own places only in `0`, `1`, `2` and so
on. -/
theorem idxOf_eq_self_iff {xs : List Nat} (hxs : xs.Nodup) :
    (∀ x ∈ xs, xs.idxOf x = x) ↔ xs = List.range xs.length := by
  constructor
  · intro h
    refine List.ext_getElem List.length_range.symm fun i hi _ => ?_
    have hidx := h xs[i] (List.getElem_mem hi)
    rw [hxs.idxOf_getElem] at hidx
    rw [List.getElem_range, ← hidx]
  · intro h x hx
    obtain ⟨i, hi, rfl⟩ := List.getElem_of_mem hx
    have hget := List.getElem_of_eq h hi
    rw [List.getElem_range] at hget
    rw [hxs.idxOf_getElem, hget]

/-! ## Ranks -/

/-- Each entry as its place among the different entries, which are in the order
of their first occurrences. -/
def ranks (xs : List ι) : List Nat := xs.map xs.eraseDups.idxOf

@[simp] theorem length_ranks (xs : List ι) : (ranks xs).length = xs.length :=
  List.length_map ..

theorem idxOf_eraseDups_append {xs : List ι} {x : ι} (hx : x ∈ xs)
    (ys : List ι) :
    (xs ++ ys).eraseDups.idxOf x = xs.eraseDups.idxOf x := by
  rw [List.eraseDups_append,
    List.idxOf_append_of_mem (List.mem_eraseDups.mpr hx)]

/-- Entries that come later do not change the ranks of those before. -/
theorem ranks_append (xs ys : List ι) :
    ranks (xs ++ ys) = ranks xs ++ ys.map (xs ++ ys).eraseDups.idxOf := by
  rw [ranks, List.map_append, ranks]
  congr 1
  exact List.map_congr_left fun x hx => idxOf_eraseDups_append hx ys

theorem rank_lt {xs : List ι} {r : Nat} (hr : r ∈ ranks xs) :
    r < xs.eraseDups.length := by
  obtain ⟨x, hx, rfl⟩ := List.mem_map.mp hr
  exact List.idxOf_lt_length_iff.mpr (List.mem_eraseDups.mpr hx)

/-- Renaming keeps all ranks. -/
theorem ranks_map {f : ι → κ} {xs : List ι} (hf : Apart f xs) :
    ranks (xs.map f) = ranks xs := by
  rw [ranks, ranks, List.map_map, eraseDups_map hf]
  refine List.map_congr_left fun x hx => idxOf_map fun y hy => ?_
  exact hf y (List.mem_eraseDups.mp hy) x hx

theorem apart_idxOf (xs : List ι) : Apart xs.eraseDups.idxOf xs := by
  intro a ha b _ hab
  exact (List.idxOf_inj (List.mem_eraseDups.mpr ha)).mp hab

/-- Ranks are their own ranks. -/
theorem ranks_ranks (xs : List ι) : ranks (ranks xs) = ranks xs :=
  ranks_map (apart_idxOf xs)

/-- Equal entries have equal ranks, and no others do. -/
theorem getElem?_ranks_eq_iff (xs : List ι) (i j : Nat) :
    (ranks xs)[i]? = (ranks xs)[j]? ↔ xs[i]? = xs[j]? := by
  rw [ranks, List.getElem?_map, List.getElem?_map]
  constructor
  · intro h
    cases hi : xs[i]? with
    | none =>
        rw [hi, Option.map_none, eq_comm, Option.map_eq_none_iff] at h
        exact h.symm
    | some a =>
        rw [hi, Option.map_some, eq_comm, Option.map_eq_some_iff] at h
        obtain ⟨b, hj, hab⟩ := h
        rw [hj, apart_idxOf xs a (List.mem_of_getElem? hi) b
          (List.mem_of_getElem? hj) hab.symm]
  · intro h
    rw [h]

omit [DecidableEq κ] in
/-- If equal entries stand at the same places, one list is the other one with
its entries renamed. -/
theorem exists_renaming {xs : List ι} {ys : List κ}
    (hlength : xs.length = ys.length)
    (hsame : ∀ i j : Nat, xs[i]? = xs[j]? ↔ ys[i]? = ys[j]?) :
    ∃ f : ι → Option κ, ys.map some = xs.map f ∧ Apart f xs := by
  refine ⟨fun x => ys[xs.idxOf x]?, List.ext_getElem? fun i => ?_, ?_⟩
  · rw [List.getElem?_map, List.getElem?_map]
    cases hi : xs[i]? with
    | none =>
        rw [List.getElem?_eq_none_iff] at hi
        rw [List.getElem?_eq_none_iff.mpr (hlength ▸ hi)]
        rfl
    | some x =>
        have hidx := List.getElem?_idxOf (List.mem_of_getElem? hi)
        rw [Option.map_some, (hsame _ _).mp (hidx.trans hi.symm)]
        have hlt := (List.getElem?_eq_some_iff.mp hi).1
        rw [List.getElem?_eq_getElem (hlength ▸ hlt)]
        rfl
  · intro a ha b hb hab
    have hidx := (hsame _ _).mpr hab
    rw [List.getElem?_idxOf ha, List.getElem?_idxOf hb] at hidx
    exact Option.some.inj hidx

/-- Ranks say which entries are equal, and nothing else. -/
theorem ranks_eq_iff {xs : List ι} {ys : List κ}
    (hlength : xs.length = ys.length) :
    ranks xs = ranks ys ↔ ∀ i j : Nat, xs[i]? = xs[j]? ↔ ys[i]? = ys[j]? := by
  constructor
  · intro h i j
    rw [← getElem?_ranks_eq_iff xs, h, getElem?_ranks_eq_iff ys]
  · intro hsame
    obtain ⟨f, hys, hf⟩ := exists_renaming hlength hsame
    calc ranks xs = ranks (xs.map f) := (ranks_map hf).symm
      _ = ranks (ys.map some) := by rw [hys]
      _ = ranks ys := ranks_map fun _ _ _ _ h => Option.some.inj h

end TermIndex
