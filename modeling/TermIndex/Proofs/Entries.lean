import Mathlib.Data.List.Lex
import TermIndex.Proofs.Shape

/-!
# What a trie stores

The entries of a trie are the sequences below it with their values. They follow
the constructors (`entries_leaf`, `entries_path`, `entries_node`), and a forest
lists its branches like a node does, so that facts about branches serve both.

In a shaped trie every stored sequence completes the subtrees that are owed,
and the entries are in strictly increasing order (`Shaped.entries_ordered`).
Both are inductions on the shape.
-/

namespace TermIndex

namespace Key

def Before (ks ls : List Key) : Prop :=
  List.Lex (fun a b => a.precedes b = true) ks ls

theorem Before.append_left {ks ls : List Key} (h : Before ks ls)
    (front : List Key) :
    Before (front ++ ks) (front ++ ls) :=
  List.Lex.append_left _ h front

theorem before_of_precedes {a b : Key} (h : a.precedes b = true)
    (ks ls : List Key) :
    Before (a :: ks) (b :: ls) :=
  List.Lex.rel h

theorem Before.asymm {ks ls : List Key} (h : Before ks ls)
    (h' : Before ls ks) : False := by
  induction h with
  | nil => cases h'
  | cons _ ih =>
      cases h' with
      | cons h' => exact ih h'
      | rel h' => exact precedes_irrefl _ h'
  | rel hab =>
      cases h' with
      | cons h' => exact precedes_irrefl _ hab
      | rel hba => exact precedes_irrefl _ (precedes_trans hab hba)

theorem Before.ne {ks ls : List Key} (h : Before ks ls) : ks ≠ ls := by
  rintro rfl
  exact h.asymm h

end Key

namespace Trie

variable {α : Type}

/-- An entry as it is seen from above some keys. -/
def under (front : List Key) (e : List Key × List α) : List Key × List α :=
  (front ++ e.1, e.2)

theorem map_under_nil (es : List (List Key × List α)) :
    es.map (under []) = es :=
  List.map_id es

theorem under_under (front keys : List Key) (e : List Key × List α) :
    under front (under keys e) = under (front ++ keys) e := by
  simp [under]

theorem map_under_under (front keys : List Key)
    (es : List (List Key × List α)) :
    (es.map (under keys)).map (under front)
      = es.map (under (front ++ keys)) := by
  rw [List.map_map]
  exact List.map_congr_left fun e _ => under_under front keys e

theorem under_injective (front : List Key) :
    Function.Injective (under (α := α) front) := by
  rintro ⟨ks, vs⟩ ⟨ls, ws⟩ h
  simpa [under] using h

def branchEntries (bs : List (Key × Trie α)) : List (List Key × List α) :=
  bs.flatMap fun b => b.2.entries.map (under [b.1])

@[simp] theorem branchEntries_nil :
    branchEntries ([] : List (Key × Trie α)) = [] := rfl

theorem branchEntries_cons (k : Key) (t : Trie α) (bs : List (Key × Trie α)) :
    branchEntries ((k, t) :: bs)
      = t.entries.map (under [k]) ++ branchEntries bs := rfl

theorem branchEntries_append (bs cs : List (Key × Trie α)) :
    branchEntries (bs ++ cs) = branchEntries bs ++ branchEntries cs :=
  List.flatMap_append

theorem mem_branchEntries {e : List Key × List α} {bs : List (Key × Trie α)} :
    e ∈ branchEntries bs ↔ ∃ b ∈ bs, ∃ d ∈ b.2.entries, under [b.1] d = e := by
  simp [branchEntries]

/-! ## Entries follow the constructors -/

mutual

theorem entriesFrom_eq_map : ∀ (front : List Key) (t : Trie α),
    t.entriesFrom front = t.entries.map (under front)
  | front, .leaf values => by simp [entries, entriesFrom, under]
  | front, .path keys child => by
      rw [entries, entriesFrom, entriesFrom,
        entriesFrom_eq_map (front ++ keys) child,
        List.nil_append, entriesFrom_eq_map keys child, map_under_under]
  | front, .node bs => by
      rw [entries, entriesFrom, entriesFrom, entriesFromAll_eq_map front bs,
        entriesFromAll_eq_map [] bs, map_under_nil]

theorem entriesFromAll_eq_map : ∀ (front : List Key) (bs : List (Key × Trie α)),
    entriesFromAll front bs = (branchEntries bs).map (under front)
  | front, [] => rfl
  | front, (k, t) :: rest => by
      rw [entriesFromAll, entriesFrom_eq_map (front ++ [k]) t,
        entriesFromAll_eq_map front rest, branchEntries_cons, List.map_append,
        map_under_under]

end

@[simp] theorem entries_leaf (values : List α) :
    (Trie.leaf values).entries = [([], values)] := rfl

@[simp] theorem entries_path (keys : List Key) (child : Trie α) :
    (Trie.path keys child).entries = child.entries.map (under keys) := by
  rw [entries, entriesFrom, List.nil_append, entriesFrom_eq_map]

@[simp] theorem entries_node (bs : List (Key × Trie α)) :
    (Trie.node bs).entries = branchEntries bs := by
  rw [entries, entriesFrom, entriesFromAll_eq_map, map_under_nil]

@[simp] theorem entries_along (keys : List Key) (child : Trie α) :
    (along keys child).entries = child.entries.map (under keys) := by
  cases keys with
  | nil => exact (map_under_nil _).symm
  | cons k ks => exact entries_path (k :: ks) child

mutual

theorem numLeaves_eq_length : ∀ t : Trie α, t.numLeaves = t.entries.length
  | .leaf values => rfl
  | .path keys child => by
      rw [numLeaves, entries_path, List.length_map, numLeaves_eq_length child]
  | .node bs => by rw [numLeaves, entries_node, numLeavesAll_eq_length bs]

theorem numLeavesAll_eq_length : ∀ bs : List (Key × Trie α),
    numLeavesAll bs = (branchEntries bs).length
  | [] => rfl
  | (k, t) :: rest => by
      rw [numLeavesAll, branchEntries_cons, List.length_append, List.length_map,
        numLeaves_eq_length t, numLeavesAll_eq_length rest]

end

/-! ## Entries of shaped tries -/

/-- Entries in strictly increasing order of their sequences. -/
def Ordered (es : List (List Key × List α)) : Prop :=
  es.Pairwise fun d e => Key.Before d.1 e.1

theorem Ordered.map_under {es : List (List Key × List α)} (h : Ordered es)
    (front : List Key) : Ordered (es.map (under front)) :=
  List.Pairwise.map _ (fun _ _ hde => hde.append_left front) h

theorem branchEntries_ordered {bs : List (Key × Trie α)}
    (hincreasing : Key.Increasing (branchKeys bs))
    (h : ∀ b ∈ bs, Ordered b.2.entries) : Ordered (branchEntries bs) := by
  refine List.pairwise_flatMap.mpr ⟨fun b hb => (h b hb).map_under [b.1], ?_⟩
  refine (List.pairwise_map.mp hincreasing).imp fun hbc => ?_
  intro d hd e he
  obtain ⟨d', -, rfl⟩ := List.mem_map.mp hd
  obtain ⟨e', -, rfl⟩ := List.mem_map.mp he
  exact Key.before_of_precedes hbc d'.1 e'.1

theorem Shaped.entries_ordered {n : Nat} {t : Trie α} (h : Shaped n t) :
    Ordered t.entries := by
  induction h with
  | leaf _ => exact List.pairwise_singleton _ _
  | path _ _ _ _ ih =>
      rw [entries_path]
      exact ih.map_under _
  | node _ hincreasing _ ih =>
      rw [entries_node]
      exact branchEntries_ordered hincreasing ih

/-- Every stored sequence completes exactly the subtrees that are owed. -/
theorem Shaped.completes {n : Nat} {t : Trie α} (h : Shaped n t) :
    ∀ e ∈ t.entries, Key.Completes n e.1 := by
  induction h with
  | leaf _ =>
      intro e he
      obtain rfl := List.mem_singleton.mp he
      exact Key.Completes.nil
  | path _ _ hspend _ ih =>
      intro e he
      rw [entries_path] at he
      obtain ⟨d, hd, rfl⟩ := List.mem_map.mp he
      exact Key.spendAll_append_eq_ok.mpr ⟨_, hspend, ih d hd⟩
  | node _ _ _ ih =>
      intro e he
      rw [entries_node] at he
      obtain ⟨b, hb, d, hd, rfl⟩ := mem_branchEntries.mp he
      exact Key.completes_cons_iff.mpr ⟨_, rfl, ih b hb d hd⟩

theorem Shaped.values_ne_nil {n : Nat} {t : Trie α} (h : Shaped n t) :
    ∀ e ∈ t.entries, e.2 ≠ [] := by
  induction h with
  | leaf hvalues =>
      intro e he
      obtain rfl := List.mem_singleton.mp he
      exact hvalues
  | path _ _ _ _ ih =>
      intro e he
      rw [entries_path] at he
      obtain ⟨d, hd, rfl⟩ := List.mem_map.mp he
      exact ih d hd
  | node _ _ _ ih =>
      intro e he
      rw [entries_node] at he
      obtain ⟨b, hb, d, hd, rfl⟩ := mem_branchEntries.mp he
      exact ih b hb d hd

/-- Nothing is kept for sequences that are not stored. -/
theorem Formed.entries_ne_nil {t : Trie α} (h : Formed t) :
    t.entries ≠ [] := by
  induction h with
  | leaf _ => exact List.cons_ne_nil _ _
  | path _ _ _ ih => simpa using ih
  | @node bs hlength _ _ ih =>
      obtain ⟨b, rest, rfl⟩ :=
        List.exists_cons_of_length_pos (l := bs) (by omega)
      simpa [branchEntries] using fun h => (ih b (List.mem_cons_self ..) h).elim

theorem Shaped.entries_ne_nil {n : Nat} {t : Trie α} (h : Shaped n t) :
    t.entries ≠ [] :=
  h.formed.entries_ne_nil

end Trie

namespace Forest

variable {α : Type}

theorem entries_eq (f : Forest α) :
    f.entries = Trie.branchEntries f.branches := by
  rw [entries, Trie.entriesFromAll_eq_map, Trie.map_under_nil]

theorem numLeaves_eq_length (f : Forest α) :
    f.numLeaves = f.entries.length := by
  rw [numLeaves, Trie.numLeavesAll_eq_length, entries_eq]

theorem Shaped.entries_ordered {f : Forest α} (h : f.Shaped) :
    Trie.Ordered f.entries := by
  rw [entries_eq]
  exact Trie.branchEntries_ordered f.increasing fun b hb =>
    (h b hb).entries_ordered

theorem Shaped.completes {f : Forest α} (h : f.Shaped) :
    ∀ e ∈ f.entries, Key.Completes 1 e.1 := by
  intro e he
  rw [entries_eq] at he
  obtain ⟨b, hb, d, hd, rfl⟩ := Trie.mem_branchEntries.mp he
  exact Key.completes_cons_iff.mpr ⟨0, rfl, (h b hb).completes d hd⟩

theorem Shaped.values_ne_nil {f : Forest α} (h : f.Shaped) :
    ∀ e ∈ f.entries, e.2 ≠ [] := by
  intro e he
  rw [entries_eq] at he
  obtain ⟨b, hb, d, hd, rfl⟩ := Trie.mem_branchEntries.mp he
  exact (h b hb).values_ne_nil d hd

end Forest

end TermIndex
