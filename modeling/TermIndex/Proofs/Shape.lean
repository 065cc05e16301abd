import TermIndex.Forest
import TermIndex.Proofs.Complete

/-!
# The shape of a trie

`Trie.Shaped n t` states the shape invariants of a trie at a place where `n`
subtrees are owed: a leaf holds values and owes nothing, a path has keys and no
path below it, a node has two or more branches in increasing order. Every
constructor hands its children the number that is owed below them, so an
induction on `Shaped` follows the trie and the arity bookkeeping at once.

`check_eq_ok_iff` is the bridge: the check accepts exactly the shaped tries.
`Trie.Formed` is what is left of the invariants without the number: it says
nothing about the sequences.
-/

namespace TermIndex

namespace Key

theorem increasing_cons_cons_iff {a b : Key} {ks : List Key} :
    Increasing (a :: b :: ks) ↔ a.precedes b = true ∧ Increasing (b :: ks) := by
  constructor
  · intro h
    obtain ⟨hfirst, hrest⟩ := List.pairwise_cons.mp h
    exact ⟨hfirst b (List.mem_cons_self ..), hrest⟩
  · rintro ⟨hab, hrest⟩
    refine List.pairwise_cons.mpr ⟨fun c hc => ?_, hrest⟩
    rcases List.mem_cons.mp hc with rfl | hc
    · exact hab
    · exact precedes_trans hab ((List.pairwise_cons.mp hrest).1 c hc)

theorem checkOrder_eq_ok_iff :
    ∀ {ks : List Key}, checkOrder ks = .ok () ↔ Increasing ks
  | [] => by simp [checkOrder, Increasing]
  | [a] => by simp [checkOrder, Increasing]
  | a :: b :: ks => by
      rw [increasing_cons_cons_iff, checkOrder]
      split
      · next hab => simp [hab, checkOrder_eq_ok_iff]
      · next hab => simp [hab]

theorem precedes_irrefl (k : Key) : ¬ k.precedes k = true := by
  have hself : compare k k = .eq := Std.ReflCmp.compare_self
  rw [precedes_iff, hself]
  exact nofun

theorem ne_of_precedes {a b : Key} (h : a.precedes b = true) : a ≠ b := by
  rintro rfl
  exact precedes_irrefl a h

theorem precedes_or_precedes {a b : Key} (h : a ≠ b) :
    a.precedes b = true ∨ b.precedes a = true := by
  simp only [precedes_iff]
  cases hc : compare a b with
  | lt => exact Or.inl rfl
  | eq => exact absurd (Std.LawfulEqOrd.eq_of_compare hc) h
  | gt => exact Or.inr (Std.OrientedCmp.lt_of_gt hc)

end Key

namespace Trie

variable {α : Type}

/-- The shape invariants, at a place where this many subtrees are owed. -/
inductive Shaped : Nat → Trie α → Prop
  | leaf {values : List α} (hvalues : values ≠ []) : Shaped 0 (.leaf values)
  | path {n m : Nat} {keys : List Key} {child : Trie α} (hkeys : keys ≠ [])
      (hchild : child.isPath = false) (hspend : Key.spendAll n keys = .ok m)
      (h : Shaped m child) : Shaped n (.path keys child)
  | node {n : Nat} {branches : List (Key × Trie α)}
      (hlength : 2 ≤ branches.length)
      (hincreasing : Key.Increasing (branchKeys branches))
      (h : ∀ b ∈ branches, Shaped (n + b.1.arity) b.2) :
      Shaped (n + 1) (.node branches)

/-- The shape invariants alone, whatever is owed. -/
inductive Formed : Trie α → Prop
  | leaf {values : List α} (hvalues : values ≠ []) : Formed (.leaf values)
  | path {keys : List Key} {child : Trie α} (hkeys : keys ≠ [])
      (hchild : child.isPath = false) (h : Formed child) :
      Formed (.path keys child)
  | node {branches : List (Key × Trie α)} (hlength : 2 ≤ branches.length)
      (hincreasing : Key.Increasing (branchKeys branches))
      (h : ∀ b ∈ branches, Formed b.2) : Formed (.node branches)

theorem Shaped.formed {n : Nat} {t : Trie α} (h : Shaped n t) : Formed t := by
  induction h with
  | leaf hvalues => exact .leaf hvalues
  | path hkeys hchild _ _ ih => exact .path hkeys hchild ih
  | node hlength hincreasing _ ih => exact .node hlength hincreasing ih

/-- Every branch is shaped below its key, at a place where `n` more subtrees are
owed than the one that the key starts. -/
def ShapedAll (n : Nat) (branches : List (Key × Trie α)) : Prop :=
  ∀ b ∈ branches, Shaped (n + b.1.arity) b.2

theorem Shaped.along {n m : Nat} {keys : List Key} {child : Trie α}
    (hspend : Key.spendAll n keys = .ok m) (hchild : child.isPath = false)
    (h : Shaped m child) : Shaped n (along keys child) := by
  cases keys with
  | nil =>
      obtain rfl : n = m := by simpa using hspend
      exact h
  | cons k ks => exact .path (List.cons_ne_nil k ks) hchild hspend h

/-! ## The check -/

theorem checkAll_cons_eq_ok {n : Nat} {k : Key} {t : Trie α}
    {bs : List (Key × Trie α)} :
    checkAll n ((k, t) :: bs) = .ok () ↔
      ∃ j, n = j + 1 ∧ check (j + k.arity) t = .ok ()
        ∧ checkAll n bs = .ok () := by
  cases n with
  | zero =>
      constructor
      · intro h
        rw [checkAll] at h
        cases h
      · rintro ⟨j, hj, -⟩
        omega
  | succ n =>
      have hstep : checkAll (n + 1) ((k, t) :: bs)
          = (check (n + k.arity) t >>= fun _ => checkAll (n + 1) bs) := by
        rw [checkAll]
        rfl
      rw [hstep]
      cases hc : check (n + k.arity) t with
      | error e =>
          constructor
          · exact nofun
          · rintro ⟨j, hj, ht, -⟩
            obtain rfl : n = j := by omega
            rw [hc] at ht
            cases ht
      | ok u =>
          constructor
          · exact fun h => ⟨n, rfl, hc, h⟩
          · exact fun ⟨j, hj, ht, hbs⟩ => hbs

theorem check_path_eq_ok {n : Nat} {keys : List Key} {child : Trie α} :
    check n (.path keys child) = .ok () ↔
      keys ≠ [] ∧ child.isPath = false ∧
        ∃ m, Key.spendAll n keys = .ok m ∧ check m child = .ok () := by
  rw [check]
  cases hs : Key.spendAll n keys with
  | error e =>
      cases keys <;> cases hp : child.isPath <;> simp [Bind.bind, Except.bind]
  | ok m =>
      cases keys <;> cases hp : child.isPath <;> simp [Bind.bind, Except.bind]

theorem check_node_eq_ok {n : Nat} {bs : List (Key × Trie α)} :
    check n (.node bs) = .ok () ↔
      2 ≤ bs.length ∧ Key.Increasing (branchKeys bs)
        ∧ checkAll n bs = .ok () := by
  rw [check, ← Key.checkOrder_eq_ok_iff, ← Nat.not_lt]
  by_cases hlen : bs.length < 2
  · simp [hlen]
  · cases hc : Key.checkOrder (branchKeys bs) with
    | error e =>
        simp only [hlen, reduceIte, branchKeys] at hc ⊢
        simp [hc, Bind.bind, Except.bind]
    | ok u =>
        simp only [hlen, reduceIte, branchKeys] at hc ⊢
        simp [hc, Bind.bind, Except.bind]

mutual

theorem shaped_of_check : ∀ {n : Nat} {t : Trie α},
    check n t = .ok () → Shaped n t
  | n, .leaf values, h => by
      cases values with
      | nil => cases h
      | cons v vs =>
          cases n with
          | zero => exact .leaf (List.cons_ne_nil v vs)
          | succ n => cases h
  | n, .path keys child, h => by
      obtain ⟨hkeys, hchild, m, hspend, hm⟩ := check_path_eq_ok.mp h
      exact .path hkeys hchild hspend (shaped_of_check hm)
  | n, .node bs, h => by
      obtain ⟨hlength, hincreasing, hall⟩ := check_node_eq_ok.mp h
      have hbs := shaped_of_checkAll hall
      cases n with
      | zero =>
          cases bs with
          | nil => simp at hlength
          | cons b bs =>
              obtain ⟨j, hj, -⟩ := hbs b (List.mem_cons_self ..)
              omega
      | succ n =>
          refine .node hlength hincreasing fun b hb => ?_
          obtain ⟨j, hj, hshaped⟩ := hbs b hb
          obtain rfl : n = j := by omega
          exact hshaped

theorem shaped_of_checkAll : ∀ {n : Nat} {bs : List (Key × Trie α)},
    checkAll n bs = .ok () → ∀ b ∈ bs, ∃ j, n = j + 1
      ∧ Shaped (j + b.1.arity) b.2
  | _, [], _, _, hb => (List.not_mem_nil hb).elim
  | n, (k, t) :: rest, h, b, hb => by
      obtain ⟨j, hj, ht, hrest⟩ := checkAll_cons_eq_ok.mp h
      rcases List.mem_cons.mp hb with rfl | hb
      · exact ⟨j, hj, shaped_of_check ht⟩
      · exact shaped_of_checkAll hrest b hb

end

theorem checkAll_of_forall {n : Nat} {bs : List (Key × Trie α)}
    (h : ∀ b ∈ bs, check (n + b.1.arity) b.2 = .ok ()) :
    checkAll (n + 1) bs = .ok () := by
  induction bs with
  | nil => rfl
  | cons b bs ih =>
      obtain ⟨hb, hbs⟩ := List.forall_mem_cons.mp h
      exact checkAll_cons_eq_ok.mpr ⟨n, rfl, hb, ih hbs⟩

/-- The check accepts exactly the tries of the right shape. -/
theorem check_eq_ok_iff {n : Nat} {t : Trie α} :
    check n t = .ok () ↔ Shaped n t := by
  constructor
  · exact shaped_of_check
  · intro h
    induction h with
    | @leaf values hvalues => simp [check, hvalues]
    | path hkeys hchild hspend _ ih =>
        exact check_path_eq_ok.mpr ⟨hkeys, hchild, _, hspend, ih⟩
    | node hlength hincreasing _ ih =>
        exact check_node_eq_ok.mpr ⟨hlength, hincreasing, checkAll_of_forall ih⟩

end Trie

namespace Forest

variable {α : Type}

/-- The shape invariants of every trie of a forest. One tree is owed at
its root. -/
def Shaped (f : Forest α) : Prop := Trie.ShapedAll 0 f.branches

def Formed (f : Forest α) : Prop := ∀ b ∈ f.branches, b.2.Formed

theorem check_eq_ok_iff {f : Forest α} : f.check = .ok () ↔ f.Shaped := by
  constructor
  · intro h b hb
    obtain ⟨j, hj, hshaped⟩ := Trie.shaped_of_checkAll h b hb
    obtain rfl : 0 = j := by omega
    exact hshaped
  · exact fun h => Trie.checkAll_of_forall fun b hb =>
      Trie.check_eq_ok_iff.mpr (h b hb)

end Forest

end TermIndex
