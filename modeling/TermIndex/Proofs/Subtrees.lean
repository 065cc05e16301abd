import Mathlib.Algebra.GroupWithZero.Nat
import TermIndex.Proofs.Complete

/-!
# Where subtrees end

A sequence does not mark its subtrees. Their ends are found by counting, and the
count can start at any key. It ends with the subtree that the key begins, as a
sequence begins with one number of complete trees in one way only
(`Completes.append_inj`).

The counts add up. Passing `n` subtrees and then `m` more is passing `n + m`
(`subtreesLength?_append`), so the subtrees below a key follow one another up to
the end of its own subtree (`exists_childLengths`).
-/

namespace TermIndex

namespace Key

/-! ## Counting keys -/

/-- The keys that are counted first complete subtrees, and the count goes on
behind them. -/
theorem subtreesLength?_append {n m : Nat} {front : List Key}
    (h : Completes n front) (rest : List Key) :
    subtreesLength? (n + m) (front ++ rest)
      = (subtreesLength? m rest).map (front.length + ·) := by
  induction front generalizing n with
  | nil =>
      obtain rfl : n = 0 := Except.ok.inj h
      simp
  | cons k front ih =>
      obtain ⟨j, rfl, hfront⟩ := completes_cons_iff.mp h
      have hstep : j + 1 + m = j + m + 1 := by omega
      have hnext : j + m + k.arity = j + k.arity + m := by omega
      rw [hstep, List.cons_append, subtreesLength?, hnext, ih hfront,
        Option.map_map]
      congr 1
      funext l
      change front.length + l + 1 = front.length + 1 + l
      omega

theorem subtreesLength?_front {n : Nat} {front : List Key}
    (h : Completes n front) (rest : List Key) :
    subtreesLength? n (front ++ rest) = some front.length := by
  have hcount := subtreesLength?_append (m := 0) h rest
  rw [subtreesLength?] at hcount
  exact hcount

theorem subtreesLength?_of_completes {n : Nat} {ks : List Key}
    (h : Completes n ks) : subtreesLength? n ks = some ks.length := by
  have hcount := subtreesLength?_front h []
  rwa [List.append_nil] at hcount

/-- A sequence begins with one number of complete trees in one way only. -/
theorem Completes.append_inj {n : Nat} {ks ks' ls ls' : List Key}
    (h : Completes n ks) (h' : Completes n ks')
    (heq : ks ++ ls = ks' ++ ls') : ks = ks' ∧ ls = ls' := by
  have hcount := subtreesLength?_front h ls
  rw [heq, subtreesLength?_front h' ls'] at hcount
  exact List.append_inj heq (Option.some.inj hcount).symm

/-- What completes several subtrees can be cut behind any number of them. -/
theorem Completes.split {n m : Nat} {ks : List Key} (h : Completes (n + m) ks) :
    ∃ front rest, ks = front ++ rest ∧ Completes n front
      ∧ Completes m rest := by
  induction ks generalizing n with
  | nil =>
      obtain ⟨rfl, rfl⟩ : n = 0 ∧ m = 0 := by
        have hsum : n + m = 0 := Except.ok.inj h
        omega
      exact ⟨[], [], rfl, .nil, .nil⟩
  | cons k ks ih =>
      cases n with
      | zero =>
          rw [Nat.zero_add] at h
          exact ⟨[], k :: ks, rfl, .nil, h⟩
      | succ n =>
          obtain ⟨j, hj, hks⟩ := completes_cons_iff.mp h
          obtain rfl : n + m = j := by omega
          rw [show n + m + k.arity = n + k.arity + m by omega] at hks
          obtain ⟨front, rest, rfl, hfront, hrest⟩ := ih hks
          exact ⟨k :: front, rest, rfl,
            completes_cons_iff.mpr ⟨n, rfl, hfront⟩, hrest⟩

/-- At every key of a sequence that completes subtrees, one of them begins. -/
theorem Completes.exists_subtree {n i : Nat} {ks : List Key}
    (h : Completes n ks) (hi : i < ks.length) :
    ∃ front rest, ks.drop i = front ++ rest ∧ Completes 1 front := by
  rw [← List.take_append_drop i ks] at h
  obtain ⟨j, -, hdrop⟩ := spendAll_append_eq_ok.mp h
  cases j with
  | zero =>
      have hnil := List.drop_eq_nil_iff.mp (Completes.eq_nil hdrop)
      omega
  | succ j =>
      rw [Nat.add_comm] at hdrop
      obtain ⟨front, rest, hks, hfront, -⟩ := Completes.split hdrop
      exact ⟨front, rest, hks, hfront⟩

/-! ## Subtrees side by side -/

/-- Subtrees that are owed side by side are counted one after the other. -/
theorem exists_childLengths {a m : Nat} {ks : List Key}
    (h : Completes (a + m) ks) :
    ∃ ns : List Nat, ns.length = a
      ∧ (∀ j < a, subtreeLength? ks (ns.take j).sum = ns[j]?)
      ∧ subtreesLength? a ks = some ns.sum := by
  induction a generalizing ks with
  | zero =>
      exact ⟨[], rfl, fun j hj => absurd hj (Nat.not_lt_zero j),
        by simp [subtreesLength?]⟩
  | succ a ih =>
      rw [show a + 1 + m = 1 + (a + m) by omega] at h
      obtain ⟨front, rest, rfl, hfront, hrest⟩ := Completes.split h
      obtain ⟨ns, rfl, hns, hsum⟩ := ih hrest
      refine ⟨front.length :: ns, rfl, fun j hj => ?_, ?_⟩
      · cases j with
        | zero => exact subtreesLength?_front hfront rest
        | succ j =>
            have hj' := hns j (Nat.lt_of_succ_lt_succ hj)
            simpa [subtreeLength?] using hj'
      · rw [Nat.add_comm, subtreesLength?_append hfront, hsum]
        simp

/-! ## One tree -/

variable {ks : List Key} {i : Nat}

/-- The count gives the one slice that passes the check. -/
theorem exists_subtreeLength (h : check ks = .ok ()) (hi : i < ks.length) :
    ∃ n, subtreeLength? ks i = some n ∧ i + n ≤ ks.length
      ∧ ∀ m, i + m ≤ ks.length →
        (check ((ks.drop i).take m) = .ok () ↔ m = n) := by
  obtain ⟨hks, hproper⟩ := check_eq_ok_iff.mp h
  obtain ⟨front, rest, hdrop, hfront⟩ := hks.exists_subtree hi
  have hlength : ks.length - i = front.length + rest.length := by
    rw [← List.length_drop, hdrop, List.length_append]
  refine ⟨front.length, ?_, by omega, fun m hm => ?_⟩
  · rw [subtreeLength?, hdrop, subtreesLength?_front hfront]
  · rw [check_eq_ok_iff]
    constructor
    · rintro ⟨hslice, -⟩
      have heq : (ks.drop i).take m ++ (ks.drop i).drop m = front ++ rest := by
        rw [List.take_append_drop, hdrop]
      have hsame := congrArg List.length (hslice.append_inj hfront heq).1
      rw [List.length_take, List.length_drop] at hsame
      omega
    · rintro rfl
      refine ⟨?_, fun k hk => ?_⟩
      · rwa [hdrop, List.take_left]
      · exact hproper k (List.mem_of_mem_drop (List.mem_of_mem_take hk))

theorem subtreeLength?_of_length_le (hi : ks.length ≤ i) :
    subtreeLength? ks i = none := by
  rw [subtreeLength?, List.drop_eq_nil_of_le hi]
  rfl

theorem eq_of_check_of_front {ls : List Key} (hks : check ks = .ok ())
    (hls : check ls = .ok ()) (hfront : ks <+: ls) : ks = ls := by
  obtain ⟨rest, rfl⟩ := hfront
  have hnil := (check_eq_ok_iff.mp hks).1.append_nil (check_eq_ok_iff.mp hls).1
  rw [hnil, List.append_nil]

/-- The subtrees of a key's children fill its own subtree behind the key. -/
theorem exists_childLengths_at {k : Key} (h : check ks = .ok ())
    (hk : ks[i]? = some k) :
    ∃ ns : List Nat, ns.length = k.arity
      ∧ (∀ j < k.arity, subtreeLength? ks (i + 1 + (ns.take j).sum) = ns[j]?)
      ∧ subtreeLength? ks i = some (1 + ns.sum) := by
  obtain ⟨hi, rfl⟩ := List.getElem?_eq_some_iff.mp hk
  have hks := (check_eq_ok_iff.mp h).1
  rw [← List.take_append_drop i ks, List.drop_eq_getElem_cons hi] at hks
  obtain ⟨j, -, hdrop⟩ := spendAll_append_eq_ok.mp hks
  obtain ⟨m, -, hbelow⟩ := spendAll_cons_eq_ok.mp hdrop
  rw [Nat.add_comm] at hbelow
  obtain ⟨ns, hlength, hns, hsum⟩ := exists_childLengths hbelow
  refine ⟨ns, hlength, fun j hj => ?_, ?_⟩
  · rw [← hns j hj, subtreeLength?, subtreeLength?, List.drop_drop]
  · rw [subtreeLength?, List.drop_eq_getElem_cons hi, subtreesLength?,
      Nat.zero_add, hsum, Option.map_some, Nat.add_comm]

/-- **Subtrees are unambiguous.** In a sequence that passes the check, exactly
one slice that begins at a key passes the check as well, and counting finds its
length; behind the last key nothing begins. So no sequence that passes is the
front of a longer one, and the subtree of a key consists of the key and of as
many subtrees as its arity says, one behind the other. -/
theorem subtrees_unambiguous (h : check ks = .ok ()) :
    (∀ i < ks.length, ∃ n, subtreeLength? ks i = some n ∧ i + n ≤ ks.length
      ∧ ∀ m, i + m ≤ ks.length →
        (check ((ks.drop i).take m) = .ok () ↔ m = n))
    ∧ (∀ i, ks.length ≤ i → subtreeLength? ks i = none)
    ∧ (∀ ls, check ls = .ok () → ks <+: ls → ks = ls)
    ∧ ∀ i k, ks[i]? = some k → ∃ ns : List Nat, ns.length = k.arity
      ∧ (∀ j < k.arity, subtreeLength? ks (i + 1 + (ns.take j).sum) = ns[j]?)
      ∧ subtreeLength? ks i = some (1 + ns.sum) :=
  ⟨fun _ hi => exists_subtreeLength h hi,
    fun _ hi => subtreeLength?_of_length_le hi,
    fun _ hls hfront => eq_of_check_of_front h hls hfront,
    fun _ _ hk => exists_childLengths_at h hk⟩

end Key

end TermIndex
