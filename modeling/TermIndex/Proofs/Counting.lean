import TermIndex.Proofs.Checking
import TermIndex.Proofs.Subtrees
import TermIndex.Proofs.Tracking
import TermIndex.Words.Counts

/-!
# Counting in words

How many subtrees a sequence owes is counted in a word. `Counts` says that this
is possible: each number that comes up is a word, up to the key that completes
what is owed. A sequence of complete trees that fits in memory can always be
counted (`Counts.of_completes`), as it owes no more subtrees than there are keys
left. So a number overflows only on a sequence that is not one tree, and a
checked count that ends is right.

Without checks a sequence may be taken for one tree because its number wraps
around to zero. Its subtrees are then not where they are counted. They are in
those accepted sequences that can be counted, and in no others
(`subtreesIn_unambiguous`).
-/

namespace TermIndex.Key

variable {o : Overflow} {p : Prop} {n m : Nat} {k : Key} {ks ls : List Key}

/-! ## Sequences that can be counted -/

/-- From this many owed subtrees on, every number that is owed is a word, up to
the key that completes them. -/
def Counts : Nat → List Key → Prop
  | 0, _ => True
  | _ + 1, [] => True
  | n + 1, k :: ks => n + k.arity < Word.counts ∧ Counts (n + k.arity) ks

theorem counts_nil (n : Nat) : Counts n [] := by
  cases n <;> trivial

theorem counts_zero (ks : List Key) : Counts 0 ks := by
  cases ks <;> trivial

theorem Counts.of_add {d : Nat} (h : Counts (n + d) ks) : Counts n ks := by
  induction ks generalizing n with
  | nil => exact counts_nil n
  | cons k ks ih =>
      cases n with
      | zero => trivial
      | succ n =>
          rw [show n + 1 + d = n + d + 1 by omega] at h
          obtain ⟨hlt, hks⟩ := h
          rw [show n + d + k.arity = n + k.arity + d by omega] at hks
          exact ⟨by omega, ih hks⟩

theorem Counts.of_append (h : Counts n (ks ++ ls)) : Counts n ks := by
  induction ks generalizing n with
  | nil => exact counts_nil n
  | cons k ks ih =>
      cases n with
      | zero => trivial
      | succ n => exact ⟨h.1, ih h.2⟩

theorem counts_append_iff (h : spendAll n ks = .ok m) :
    Counts n (ks ++ ls) ↔ Counts n ks ∧ Counts m ls := by
  induction ks generalizing n with
  | nil =>
      obtain rfl : n = m := Except.ok.inj h
      exact (and_iff_right (counts_nil n)).symm
  | cons k ks ih =>
      obtain ⟨j, rfl, hks⟩ := spendAll_cons_eq_ok.mp h
      rw [List.cons_append, Counts, Counts, ih hks, and_assoc]

/-- No more is owed than there are keys left. -/
theorem Counts.of_completes (h : Completes n ks)
    (hlength : ks.length < Word.counts) : Counts n ks := by
  induction ks generalizing n with
  | nil => exact counts_nil n
  | cons k ks ih =>
      obtain ⟨j, rfl, hks⟩ := completes_cons_iff.mp h
      rw [List.length_cons] at hlength
      have hle := le_length_of_spendAll hks
      exact ⟨by omega, ih hks (by omega)⟩

/-! ## Counts and numbers -/

theorem tracks_checkFrom {pos : Nat} (h : p → Counts n ks) :
    Tracks p (fun o => checkFromIn o pos n ks) (checkFrom pos n ks) := by
  induction ks generalizing pos n with
  | nil => exact tracks_ok _
  | cons k ks ih =>
      cases n with
      | zero => exact tracks_ok _
      | succ n =>
          unfold checkFromIn checkFrom
          rw [if_neg (Nat.succ_ne_zero n)]
          cases hbad : k.badArity with
          | true => exact tracks_ok _
          | false =>
              have hrest : Tracks p
                  (fun o => checkFromIn o (pos + 1) (n + k.arity) ks)
                  (checkFrom (pos + 1) (n + k.arity) ks) :=
                ih fun hp => (h hp).2
              exact (tracks_add fun hp => (h hp).1).bind hrest

theorem tracks_check (h : p → Counts 1 ks) :
    Tracks p (fun o => checkIn o ks) (check ks) := by
  cases ks with
  | nil => exact tracks_ok _
  | cons k ks => exact tracks_checkFrom h

theorem tracks_subtreesLength (h : p → Counts n ks) :
    Tracks p (fun o => (subtreesLengthIn? o n ks).run)
      (subtreesLength? n ks) := by
  induction ks generalizing n with
  | nil =>
      cases n with
      | zero => exact tracks_ok _
      | succ n => exact tracks_ok _
  | cons k ks ih =>
      cases n with
      | zero => exact tracks_ok _
      | succ n =>
          have hsum := tracks_add fun hp => (h hp).1
          have hrest := Tracks.map (ih fun hp => (h hp).2) (· + 1)
          exact hsum.lift.bind hrest

/-! ## Accepted sequences -/

theorem checkFromIn_cons_eq_ok {pos : Nat} :
    checkFromIn o pos n (k :: ks) = .ok (.ok ()) ↔
      ∃ j owed, n = j + 1 ∧ k.badArity = false
        ∧ Word.add o Word.counts j k.arity = .ok owed
        ∧ checkFromIn o (pos + 1) owed ks = .ok (.ok ()) := by
  cases n with
  | zero =>
      constructor
      · exact nofun
      · rintro ⟨j, owed, hj, -⟩
        omega
  | succ n =>
      rw [checkFromIn, if_neg (Nat.succ_ne_zero n)]
      cases hbad : k.badArity with
      | true =>
          constructor
          · exact nofun
          · exact fun ⟨_, _, _, hproper, _⟩ => nomatch hproper
      | false =>
          change (Word.add o Word.counts n k.arity >>= fun owed =>
            checkFromIn o (pos + 1) owed ks) = .ok (.ok ()) ↔ _
          constructor
          · intro h
            cases hsum : Word.add o Word.counts n k.arity with
            | error e =>
                rw [hsum] at h
                cases h
            | ok owed =>
                rw [hsum] at h
                exact ⟨n, owed, rfl, rfl, hsum, h⟩
          · rintro ⟨j, owed, hj, -, hsum, h⟩
            obtain rfl : n = j := by omega
            rw [hsum]
            exact h

theorem proper_of_checkFromIn {pos : Nat}
    (h : checkFromIn o pos n ks = .ok (.ok ())) : Proper ks := by
  induction ks generalizing pos n with
  | nil => exact List.forall_mem_nil _
  | cons k ks ih =>
      obtain ⟨j, owed, -, hbad, -, hrest⟩ := checkFromIn_cons_eq_ok.mp h
      exact List.forall_mem_cons.mpr ⟨hbad, ih hrest⟩

/-- What is accepted with checks has been counted to its end. -/
theorem counts_of_checkFromIn {pos : Nat}
    (h : checkFromIn .faults pos n ks = .ok (.ok ())) : Counts n ks := by
  induction ks generalizing pos n with
  | nil => exact counts_nil n
  | cons k ks ih =>
      obtain ⟨j, owed, rfl, -, hsum, hrest⟩ := checkFromIn_cons_eq_ok.mp h
      by_cases hlt : j + k.arity < Word.counts
      · obtain rfl : j + k.arity = owed :=
          Except.ok.inj ((if_pos hlt).symm.trans hsum)
        exact ⟨hlt, ih hrest⟩
      · cases (if_neg hlt).symm.trans hsum

theorem checkFromIn_of_checkIn (h : checkIn o ks = .ok (.ok ())) :
    ks ≠ [] ∧ checkFromIn o 0 1 ks = .ok (.ok ()) := by
  cases ks with
  | nil => cases h
  | cons k ks => exact ⟨List.cons_ne_nil k ks, h⟩

/-- A sequence is accepted with checks exactly if it is one tree and can be
counted. -/
theorem checkIn_faults_eq_ok_iff :
    checkIn .faults ks = .ok (.ok ()) ↔ check ks = .ok () ∧ Counts 1 ks := by
  constructor
  · intro h
    obtain ⟨hcheck, -⟩ := (tracks_check (p := False) False.elim).of_ok h
    exact ⟨hcheck.symm, counts_of_checkFromIn (checkFromIn_of_checkIn h).2⟩
  · rintro ⟨hcheck, hcounts⟩
    rw [← hcheck]
    exact (tracks_check fun _ => hcounts).agrees trivial .faults

/-! ## Subtrees -/

/-- Subtrees are where they are counted. -/
structure SubtreesUnambiguous (o : Overflow) (ks : List Key) : Prop where
  /-- Of the slices that begin at a key, the one that is as long as counted
  passes the check, and no other one does. -/
  slices : ∀ i < ks.length, ∃ n, (subtreeLengthIn? o ks i).run = .ok (some n)
    ∧ i + n ≤ ks.length ∧ ∀ m, i + m ≤ ks.length →
      (checkIn o ((ks.drop i).take m) = .ok (.ok ()) ↔ m = n)
  /-- Behind the last key nothing begins. -/
  ends : ∀ i, ks.length ≤ i → (subtreeLengthIn? o ks i).run = .ok none
  /-- The sequence is not the front of a longer one that passes. -/
  front : ∀ ls, checkIn o ls = .ok (.ok ()) → ks <+: ls → ks = ls
  /-- A key's subtree is the key and as many subtrees as its arity says. -/
  children : ∀ i k, ks[i]? = some k → ∃ ns : List Nat, ns.length = k.arity
    ∧ (∀ j < k.arity,
      (subtreeLengthIn? o ks (i + 1 + (ns.take j).sum)).run = .ok ns[j]?)
    ∧ (subtreeLengthIn? o ks i).run = .ok (some (1 + ns.sum))

/-- A tree that can be counted can be counted from every key on. -/
theorem Counts.drop (h : Counts 1 ks) (hks : Completes 1 ks) (i : Nat) :
    Counts 1 (ks.drop i) := by
  rw [← List.take_append_drop i ks] at h hks
  obtain ⟨j, hfront, hrest⟩ := spendAll_append_eq_ok.mp hks
  have hcounts := ((counts_append_iff hfront).mp h).2
  cases j with
  | zero =>
      rw [Completes.eq_nil hrest]
      exact counts_nil 1
  | succ j =>
      rw [Nat.add_comm] at hcounts
      exact hcounts.of_add

theorem SubtreesUnambiguous.of_counts (hcheck : check ks = .ok ())
    (h : Counts 1 ks) : SubtreesUnambiguous o ks := by
  obtain ⟨hslices, hends, hfront, hchildren⟩ := subtrees_unambiguous hcheck
  have hks := (check_eq_ok_iff.mp hcheck).1
  have hlength : ∀ i,
      (subtreeLengthIn? o ks i).run = .ok (subtreeLength? ks i) :=
    fun i => (tracks_subtreesLength fun _ => h.drop hks i).agrees trivial o
  have hslice : ∀ i m, checkIn o ((ks.drop i).take m)
      = .ok (check ((ks.drop i).take m)) := by
    intro i m
    have hdrop := h.drop hks i
    rw [← List.take_append_drop m (ks.drop i)] at hdrop
    exact (tracks_check fun _ => hdrop.of_append).agrees trivial o
  refine ⟨?_, ?_, ?_, ?_⟩
  · simpa only [hlength, hslice, Except.ok.injEq] using hslices
  · simpa only [hlength, Except.ok.injEq] using hends
  · rintro _ hls ⟨rest, rfl⟩
    have hrest := (counts_append_iff hks).mpr ⟨h, counts_zero rest⟩
    have hagrees := (tracks_check fun _ => hrest).agrees trivial o
    exact hfront _ (Except.ok.inj (hagrees.symm.trans hls)) ⟨rest, rfl⟩
  · simpa only [hlength, Except.ok.injEq] using hchildren

/-- Trees one behind the other, with the lengths given. -/
theorem completes_of_lengths {ns : List Nat}
    (h : ∀ j n, ns[j]? = some n →
      Completes 1 ((ks.drop (ns.take j).sum).take n)) :
    Completes ns.length (ks.take ns.sum) := by
  induction ns generalizing ks with
  | nil => exact .nil
  | cons n ns ih =>
      have hfirst : Completes 1 (ks.take n) := h 0 n rfl
      have hrest : Completes ns.length ((ks.drop n).take ns.sum) := by
        refine ih fun j m hj => ?_
        have hj' := h (j + 1) m hj
        rwa [List.take_succ_cons, List.sum_cons, ← List.drop_drop] at hj'
      rw [List.length_cons, Nat.add_comm, List.sum_cons, List.take_add]
      exact hfirst.append hrest

/-- Where subtrees are where they are counted, they are complete trees. The
induction is from the end of the sequence to its front. -/
theorem SubtreesUnambiguous.completes (h : SubtreesUnambiguous o ks) {i n : Nat}
    (hn : (subtreeLengthIn? o ks i).run = .ok (some n)) :
    Completes 1 ((ks.drop i).take n) := by
  have hi : i < ks.length := by
    by_contra hle
    rw [h.ends i (Nat.le_of_not_lt hle)] at hn
    cases hn
  obtain ⟨ns, hlength, hns, hsum⟩ :=
    h.children i ks[i] (List.getElem?_eq_getElem hi)
  obtain rfl : 1 + ns.sum = n :=
    Option.some.inj (Except.ok.inj (hsum.symm.trans hn))
  have hbelow : Completes ns.length ((ks.drop (i + 1)).take ns.sum) := by
    refine completes_of_lengths fun j m hj => ?_
    obtain ⟨hlt, -⟩ := List.getElem?_eq_some_iff.mp hj
    have hchild := hns j (hlength ▸ hlt)
    rw [hj] at hchild
    rw [List.drop_drop]
    exact h.completes hchild
  rw [List.drop_eq_getElem_cons hi, Nat.add_comm, List.take_succ_cons]
  refine completes_cons_iff.mpr ⟨0, rfl, ?_⟩
  rwa [Nat.zero_add, ← hlength]
termination_by ks.length - i
decreasing_by omega

end TermIndex.Key
