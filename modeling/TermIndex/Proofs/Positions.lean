import TermIndex.Search.Position
import TermIndex.Proofs.Branches

/-!
# The views of a position agree

A search sees a position in three ways: all its children, the child of one key,
and the children of stars. In a shaped forest a position where a subtree is owed
is nothing but some branches in increasing order, also half way along a path,
where there is one branch. `Branching` collects how every view reads these
branches, so that facts about a search need no case for each kind of position.
-/

namespace TermIndex

namespace Key

theorem starId?_eq_some_iff {k : Key} {id : Nat} :
    k.starId? = some id ↔ k = .star id := by
  cases k <;> simp [starId?]

theorem star_precedes_star {i j : Nat} :
    (star i).precedes (star j) = true ↔ i < j := by
  have hcompare : compare (star i) (star j) = compare i j := by
    change (compareLex (compareOn rank) (compareLex (compareOn text)
      (compareLex (compareOn number) (compareOn arity)))) _ _ = _
    simp [compareLex, compareOn, rank, text, number, arity]
  rw [precedes_iff, hcompare, Nat.compare_eq_lt]

/-- Nothing but a star comes before a star. -/
theorem not_precedes_star {k : Key} (hk : k.starId? = none) (id : Nat) :
    ¬ k.precedes (.star id) = true := by
  have hrank : compareOn rank k (.star id) = .gt := by
    rw [compareOn, Nat.compare_eq_gt]
    cases k with
    | star _ => cases hk
    | app h _ => cases h <;> exact Nat.succ_pos _
    | lit l => cases l <;> exact Nat.succ_pos _
    | _ => exact Nat.succ_pos _
  have hgt : compare k (.star id) = .gt := by
    change compareLex (compareOn rank) _ k (.star id) = .gt
    rw [compareLex, hrank]
    rfl
  rw [precedes_iff, hgt]
  exact nofun

/-- The stars are the keys that come before the smallest key that is none. -/
theorem precedes_firstNonStar (k : Key) :
    k.precedes firstNonStar = k.isStar := by
  rcases k with _ | _ | ⟨_ | _ | _, _⟩ | ⟨_ | _⟩ | _ | _ | _ | _
  all_goals rfl

end Key

namespace Position

variable {α : Type}

/-! ## What a position stores -/

/-- The continuations that are stored below a position, with their values. -/
def entries : Position α → List (List Key × List α)
  | .root f => f.entries
  | .inside t => t.entries

/-- The shape invariants, at a position where this many subtrees are owed. -/
def Shaped (n : Nat) : Position α → Prop
  | .root f => n = 1 ∧ f.Shaped
  | .inside t => Trie.Shaped n t

theorem Shaped.eq_leaf {p : Position α} (h : p.Shaped 0) :
    ∃ vs, p = .inside (.leaf vs) := by
  cases p with
  | root f =>
      obtain ⟨h01, -⟩ := h
      cases h01
  | inside t =>
      cases h with
      | leaf _ => exact ⟨_, rfl⟩
      | path hkeys _ hspend _ =>
          obtain ⟨k, ks, rfl⟩ := List.exists_cons_of_ne_nil hkeys
          obtain ⟨j, hj, -⟩ := Key.spendAll_cons_eq_ok.mp hspend
          cases hj

/-! ## Stars come first -/

def starBranches (bs : List (Key × Trie α)) : List (Nat × Position α) :=
  bs.filterMap fun b => b.1.starId?.map fun id => (id, .inside b.2)

/-- Behind a key that is no star there are no stars. -/
theorem starBranches_of_starId?_eq_none {k : Key} {t : Trie α}
    {bs : List (Key × Trie α)} (hk : k.starId? = none)
    (hfirst : ∀ b ∈ bs, k.precedes b.1 = true) :
    starBranches ((k, t) :: bs) = [] := by
  refine List.filterMap_eq_nil_iff.mpr fun b hb => ?_
  rcases List.mem_cons.mp hb with rfl | hb
  · rw [hk]
    rfl
  · cases hid : b.1.starId? with
    | none => rfl
    | some id =>
        have hstar := Key.starId?_eq_some_iff.mp hid
        exact (Key.not_precedes_star hk id (hstar ▸ hfirst b hb)).elim

theorem leadingStars_eq {bs : List (Key × Trie α)}
    (h : Key.Increasing (Trie.branchKeys bs)) :
    leadingStars bs = starBranches bs := by
  induction bs with
  | nil => rfl
  | cons b bs ih =>
      obtain ⟨k, t⟩ := b
      obtain ⟨hfirst, hrest⟩ :=
        List.pairwise_cons.mp (Trie.branchKeys_pairwise.mp h)
      cases hk : k.starId? with
      | some id =>
          obtain rfl := Key.starId?_eq_some_iff.mp hk
          rw [leadingStars, ih (Trie.branchKeys_pairwise.mpr hrest)]
          rfl
      | none =>
          have hleading : leadingStars ((k, t) :: bs) = [] := by
            cases k with
            | star _ => cases hk
            | _ => rfl
          rw [hleading, starBranches_of_starId?_eq_none hk hfirst]

/-- The range that ends at the smallest key that is no star has all stars. -/
theorem starBranches_takeWhile {bs : List (Key × Trie α)}
    (h : Key.Increasing (Trie.branchKeys bs)) :
    starBranches (bs.takeWhile fun b => b.1.precedes .firstNonStar)
      = starBranches bs := by
  induction bs with
  | nil => rfl
  | cons b bs ih =>
      obtain ⟨k, t⟩ := b
      obtain ⟨hfirst, hrest⟩ :=
        List.pairwise_cons.mp (Trie.branchKeys_pairwise.mp h)
      rw [List.takeWhile_cons, Key.precedes_firstNonStar]
      cases hk : k.starId? with
      | some id =>
          obtain rfl := Key.starId?_eq_some_iff.mp hk
          have hbs := ih (Trie.branchKeys_pairwise.mpr hrest)
          exact congrArg ((id, .inside t) :: ·) hbs
      | none =>
          have hstar : k.isStar = false := by
            cases k with
            | star _ => cases hk
            | _ => rfl
          rw [hstar, starBranches_of_starId?_eq_none hk hfirst]
          rfl

/-! ## Branches -/

/-- The position is these branches, for every view of it. -/
structure Branching (n : Nat) (p : Position α)
    (bs : List (Key × Trie α)) : Prop where
  increasing : Key.Increasing (Trie.branchKeys bs)
  shaped : Trie.ShapedAll n bs
  entries : p.entries = Trie.branchEntries bs
  children : p.children = bs.map fun b => (b.1, .inside b.2)
  child? : ∀ k, p.child? k = (bs.lookup k).map .inside
  starChildren : p.starChildren = starBranches bs
  fault? : p.fault? = none

theorem branching_node {n : Nat} {bs : List (Key × Trie α)}
    (hincreasing : Key.Increasing (Trie.branchKeys bs))
    (hshaped : Trie.ShapedAll n bs) :
    Branching n (.inside (.node bs)) bs where
  increasing := hincreasing
  shaped := hshaped
  entries := Trie.entries_node bs
  children := rfl
  child? k :=
    congrArg (Option.map Position.inside) (Trie.branch?_eq_lookup hincreasing k)
  starChildren := leadingStars_eq hincreasing
  fault? := rfl

theorem branching_path {n m : Nat} {k : Key} {ks : List Key} {child : Trie α}
    (hchild : child.isPath = false)
    (hspend : Key.spendAll (n + k.arity) ks = .ok m) (h : Trie.Shaped m child) :
    Branching n (.inside (.path (k :: ks) child)) [(k, .along ks child)] where
  increasing := List.pairwise_singleton _ _
  shaped b hb := by
    obtain rfl := List.mem_singleton.mp hb
    exact Trie.Shaped.along hspend hchild h
  entries := by
    simp [entries, Trie.branchEntries_cons, Trie.under, Function.comp_def]
  children := rfl
  child? k' := by
    by_cases hk : k = k'
    · simp [child?, hk]
    · simp [child?, hk, List.lookup_cons, beq_eq_false_iff_ne.mpr (Ne.symm hk)]
  starChildren := by
    cases k <;> rfl
  fault? := rfl

theorem branching_root {f : Forest α} (h : f.Shaped) :
    Branching 0 (.root f) f.branches where
  increasing := f.increasing
  shaped := h
  entries := f.entries_eq
  children := rfl
  child? _ := rfl
  starChildren := starBranches_takeWhile f.increasing
  fault? := rfl

/-- Where a subtree is owed, a position is some branches. -/
theorem Shaped.branching {n : Nat} {p : Position α} (h : p.Shaped (n + 1)) :
    ∃ bs, Branching n p bs := by
  cases p with
  | root f =>
      obtain ⟨hn, hf⟩ := h
      obtain rfl : n = 0 := by omega
      exact ⟨f.branches, branching_root hf⟩
  | inside t =>
      cases h with
      | @path _ _ ks child hkeys hchild hspend hshaped =>
          obtain ⟨k, ks, rfl⟩ := List.exists_cons_of_ne_nil hkeys
          obtain ⟨j, hj, hspend⟩ := Key.spendAll_cons_eq_ok.mp hspend
          obtain rfl : n = j := by omega
          exact ⟨_, branching_path hchild hspend hshaped⟩
      | node _ hincreasing hshaped =>
          exact ⟨_, branching_node hincreasing hshaped⟩

end Position

end TermIndex
