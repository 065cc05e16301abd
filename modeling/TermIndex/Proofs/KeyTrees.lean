import Mathlib.Data.List.Basic
import TermIndex.Proofs.Complete

/-!
# Trees of keys

A sequence is checked with a single number, the subtrees that are owed. What it
stands for is a tree in which every node has the children that its key asks for
(`KeyTree.WellFormed`).

Read from its end, a sequence is a list of trees to which every key adds a node:
it takes its children from the front (`readAll`). Whatever the sequence, the
keys of these trees are the sequence again (`keysAll_readAll`), and no other
trees of the right arities have them (`readAll_keysAll`). So the sequences that
complete `n` subtrees are those of `n` trees (`completes_iff`), and the sequences
that pass the check are those of one tree (`Key.listsTree_iff`).
-/

namespace TermIndex

/-- An ordered tree with a key at every node. -/
inductive KeyTree where
  | node (key : Key) (children : List KeyTree)

namespace KeyTree

mutual

/-- The keys of a tree in prefix order. -/
def keys : KeyTree → List Key
  | .node k ts => k :: keysAll ts

def keysAll : List KeyTree → List Key
  | [] => []
  | t :: ts => keys t ++ keysAll ts

end

/-- Every node has as many children as the arity of its key says, and a
projection has at least one, the projected value. -/
inductive WellFormed : KeyTree → Prop
  | node {k : Key} {ts : List KeyTree} (harity : ts.length = k.arity)
      (hvalue : ∀ s i n, k = .proj s i n → ts ≠ [])
      (h : ∀ t ∈ ts, WellFormed t) : WellFormed (.node k ts)

theorem keysAll_append (ts us : List KeyTree) :
    keysAll (ts ++ us) = keysAll ts ++ keysAll us := by
  induction ts with
  | nil => rfl
  | cons t ts ih =>
      rw [List.cons_append, keysAll, keysAll, ih, List.append_assoc]

/-! ## Reading trees -/

/-- Puts a node in front. Its children are the first trees, as many as the arity
of its key says. -/
def graft (k : Key) (ts : List KeyTree) : List KeyTree :=
  .node k (ts.take k.arity) :: ts.drop k.arity

/-- The trees that a sequence lists. -/
def readAll (ks : List Key) : List KeyTree := ks.foldr graft []

theorem keysAll_readAll (ks : List Key) : keysAll (readAll ks) = ks := by
  induction ks with
  | nil => rfl
  | cons k ks ih =>
      change k :: keysAll ((readAll ks).take k.arity)
        ++ keysAll ((readAll ks).drop k.arity) = k :: ks
      rw [List.cons_append, ← keysAll_append, List.take_append_drop, ih]

theorem length_readAll {n : Nat} {ks : List Key} (h : Key.Completes n ks) :
    (readAll ks).length = n := by
  induction ks generalizing n with
  | nil => exact Except.ok.inj h.symm
  | cons k ks ih =>
      obtain ⟨j, rfl, hks⟩ := Key.completes_cons_iff.mp h
      change ((readAll ks).drop k.arity).length + 1 = j + 1
      rw [List.length_drop, ih hks, Nat.add_sub_cancel]

/-- A key of an arity that its kind can have has a child if it is a
projection. -/
theorem badArity_eq_false_iff {k : Key} :
    k.badArity = false ↔ ∀ s i n, k = .proj s i n → 0 < k.arity := by
  rcases k with _ | _ | _ | _ | _ | _ | _ | ⟨s, i, _ | n⟩ <;>
    simp [Key.badArity, Key.arity]

theorem wellFormed_readAll {n : Nat} {ks : List Key} (h : Key.Completes n ks)
    (hproper : Key.Proper ks) : ∀ t ∈ readAll ks, t.WellFormed := by
  induction ks generalizing n with
  | nil => exact List.forall_mem_nil _
  | cons k ks ih =>
      obtain ⟨j, rfl, hks⟩ := Key.completes_cons_iff.mp h
      obtain ⟨hk, hrest⟩ := List.forall_mem_cons.mp hproper
      have hall := ih hks hrest
      have hlength : ((readAll ks).take k.arity).length = k.arity := by
        rw [List.length_take, length_readAll hks]
        omega
      have hvalue : ∀ s i n, k = .proj s i n → (readAll ks).take k.arity ≠ [] := by
        intro s i n hproj
        have hpos := badArity_eq_false_iff.mp hk s i n hproj
        rw [← hlength] at hpos
        exact List.length_pos_iff.mp hpos
      exact List.forall_mem_cons.mpr
        ⟨.node hlength hvalue fun t ht => hall t (List.mem_of_mem_take ht),
          fun t ht => hall t (List.mem_of_mem_drop ht)⟩

/-! ## Listing trees -/

/-- Each of the trees spells a complete subtree of proper keys. -/
theorem completes_keysAll {ts : List KeyTree}
    (h : ∀ t ∈ ts, Key.Completes 1 t.keys ∧ Key.Proper t.keys) :
    Key.Completes ts.length (keysAll ts) ∧ Key.Proper (keysAll ts) := by
  induction ts with
  | nil => exact ⟨Key.Completes.nil, List.forall_mem_nil _⟩
  | cons t ts ih =>
      obtain ⟨⟨ht, htproper⟩, hts⟩ := List.forall_mem_cons.mp h
      obtain ⟨hrest, hproper⟩ := ih hts
      have happ := ht.append hrest
      rw [Nat.add_comm] at happ
      exact ⟨happ, List.forall_mem_append.mpr ⟨htproper, hproper⟩⟩

theorem WellFormed.completes {t : KeyTree} (h : t.WellFormed) :
    Key.Completes 1 t.keys ∧ Key.Proper t.keys := by
  induction h with
  | @node k ts harity hvalue _ ih =>
      obtain ⟨hts, hproper⟩ := completes_keysAll ih
      refine ⟨Key.completes_cons_iff.mpr ⟨0, rfl, ?_⟩,
        List.forall_mem_cons.mpr ⟨?_, hproper⟩⟩
      · rwa [Nat.zero_add, ← harity]
      · refine badArity_eq_false_iff.mpr fun s i n hproj => ?_
        rw [← harity]
        exact List.length_pos_iff.mpr (hvalue s i n hproj)

/-- Reading takes the trees off the front one by one. -/
theorem readAll_keysAll_append {ts : List KeyTree} {ks : List Key}
    (h : ∀ t ∈ ts, ∀ ls, readAll (t.keys ++ ls) = t :: readAll ls) :
    readAll (keysAll ts ++ ks) = ts ++ readAll ks := by
  induction ts with
  | nil => rfl
  | cons t ts ih =>
      obtain ⟨ht, hts⟩ := List.forall_mem_cons.mp h
      rw [keysAll, List.append_assoc, ht, ih hts, List.cons_append]

theorem WellFormed.readAll_keys {t : KeyTree} (h : t.WellFormed) :
    ∀ ks, readAll (t.keys ++ ks) = t :: readAll ks := by
  induction h with
  | @node k ts harity _ _ ih =>
      intro ks
      change graft k (readAll (keysAll ts ++ ks)) = .node k ts :: readAll ks
      rw [readAll_keysAll_append ih, graft, ← harity, List.take_left,
        List.drop_left]

theorem readAll_keysAll {ts : List KeyTree} (h : ∀ t ∈ ts, t.WellFormed) :
    readAll (keysAll ts) = ts := by
  have hread : readAll (keysAll ts ++ []) = ts ++ [] :=
    readAll_keysAll_append fun t ht => (h t ht).readAll_keys
  rwa [List.append_nil, List.append_nil] at hread

/-- Sequences that complete `n` subtrees are the sequences of `n` trees. -/
theorem completes_iff {n : Nat} {ks : List Key} :
    Key.Completes n ks ∧ Key.Proper ks ↔
      ∃ ts : List KeyTree, ts.length = n ∧ (∀ t ∈ ts, t.WellFormed)
        ∧ keysAll ts = ks := by
  constructor
  · rintro ⟨hks, hproper⟩
    exact ⟨readAll ks, length_readAll hks, wellFormed_readAll hks hproper,
      keysAll_readAll ks⟩
  · rintro ⟨ts, rfl, hts, rfl⟩
    exact completes_keysAll fun t ht => (hts t ht).completes

/-- Two trees of the right arities with the same keys are the same. -/
theorem WellFormed.eq_of_keys_eq {t u : KeyTree} (ht : t.WellFormed)
    (hu : u.WellFormed) (h : t.keys = u.keys) : t = u := by
  have hread : u :: readAll [] = t :: readAll [] := by
    rw [← ht.readAll_keys, ← hu.readAll_keys, h]
  exact (List.cons.inj hread).1.symm

end KeyTree

namespace Key

/-! ## One tree -/

/-- The keys are those of exactly one tree, in prefix order. -/
def ListsTree (ks : List Key) : Prop :=
  ∃! t : KeyTree, t.WellFormed ∧ t.keys = ks

theorem listsTree_iff {ks : List Key} :
    ListsTree ks ↔ Completes 1 ks ∧ Proper ks := by
  constructor
  · rintro ⟨t, ⟨ht, rfl⟩, -⟩
    exact ht.completes
  · intro h
    obtain ⟨ts, hlength, hts, rfl⟩ := KeyTree.completes_iff.mp h
    obtain ⟨t, rfl⟩ := List.length_eq_one_iff.mp hlength
    have ht := hts t (List.mem_singleton_self t)
    have hkeys : t.keys = KeyTree.keysAll [t] := (List.append_nil _).symm
    exact ⟨t, ⟨ht, hkeys⟩, fun u ⟨hu, heq⟩ =>
      hu.eq_of_keys_eq ht (heq.trans hkeys.symm)⟩

end Key

end TermIndex
