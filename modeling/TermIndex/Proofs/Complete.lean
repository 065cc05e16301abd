import TermIndex.Trie.Check

/-!
# Complete sequences

Walking along keys, every key pays for one owed subtree and owes as many as
its arity says. `Completes n ks` says that `ks` is exactly `n` complete trees:
the walk that starts with `n` owed subtrees ends with none. The check of a
single sequence asks for this with `n = 1`, and for arities that exist
(`check_eq_ok_iff`).

Two facts carry the trie proofs. A walk splits at every point
(`spendAll_append_eq_ok`), and complete sequences are prefix-free
(`Completes.append_nil`): nothing can follow where nothing is owed.
-/

namespace TermIndex

namespace Key

/-! ## Walking along keys -/

@[simp] theorem spendAll_nil (n : Nat) : spendAll n [] = .ok n := rfl

theorem spendAll_cons_eq_ok {n m : Nat} {k : Key} {ks : List Key} :
    spendAll n (k :: ks) = .ok m ↔
      ∃ j, n = j + 1 ∧ spendAll (j + k.arity) ks = .ok m := by
  cases n with
  | zero =>
      constructor
      · intro h
        change Except.error (Fault.keyAfterEnd k) = .ok m at h
        cases h
      · rintro ⟨j, hj, -⟩
        omega
  | succ n =>
      change spendAll (n + k.arity) ks = .ok m ↔ _
      constructor
      · exact fun h => ⟨n, rfl, h⟩
      · rintro ⟨j, hj, h⟩
        obtain rfl : n = j := by omega
        exact h

/-- A walk along two sequences passes through the point between them. -/
theorem spendAll_append_eq_ok {n m : Nat} {ks ls : List Key} :
    spendAll n (ks ++ ls) = .ok m ↔
      ∃ j, spendAll n ks = .ok j ∧ spendAll j ls = .ok m := by
  induction ks generalizing n with
  | nil => simp
  | cons k ks ih =>
      simp only [List.cons_append, spendAll_cons_eq_ok]
      constructor
      · rintro ⟨i, hi, h⟩
        obtain ⟨j, hks, hls⟩ := ih.mp h
        exact ⟨j, ⟨i, hi, hks⟩, hls⟩
      · rintro ⟨j, ⟨i, hi, hks⟩, hls⟩
        exact ⟨i, hi, ih.mpr ⟨j, hks, hls⟩⟩

/-- Subtrees that are owed from the start and never paid for stay owed. -/
theorem spendAll_add {n m : Nat} {ks : List Key} (h : spendAll n ks = .ok m)
    (d : Nat) : spendAll (n + d) ks = .ok (m + d) := by
  induction ks generalizing n with
  | nil =>
      obtain rfl : n = m := by simpa using h
      rfl
  | cons k ks ih =>
      obtain ⟨j, rfl, hks⟩ := spendAll_cons_eq_ok.mp h
      refine spendAll_cons_eq_ok.mpr ⟨j + d, by omega, ?_⟩
      have hih := ih hks
      rwa [show j + k.arity + d = j + d + k.arity by omega] at hih

/-! ## Completeness -/

/-- The keys are exactly `n` complete trees in prefix order. -/
def Completes (n : Nat) (ks : List Key) : Prop := spendAll n ks = .ok 0

theorem Completes.nil : Completes 0 [] := rfl

theorem completes_cons_iff {n : Nat} {k : Key} {ks : List Key} :
    Completes n (k :: ks) ↔ ∃ j, n = j + 1 ∧ Completes (j + k.arity) ks :=
  spendAll_cons_eq_ok

theorem Completes.eq_nil {ks : List Key} (h : Completes 0 ks) : ks = [] := by
  cases ks with
  | nil => rfl
  | cons k ks =>
      obtain ⟨j, hj, -⟩ := completes_cons_iff.mp h
      omega

/-- Where a subtree is owed, a key comes first. -/
theorem Completes.exists_cons {n : Nat} {ks : List Key}
    (h : Completes (n + 1) ks) :
    ∃ k rest, ks = k :: rest ∧ Completes (n + k.arity) rest := by
  cases ks with
  | nil => cases h
  | cons k rest => exact ⟨k, rest, rfl, h⟩

theorem Completes.append {n m : Nat} {ks ls : List Key} (hks : Completes n ks)
    (hls : Completes m ls) : Completes (n + m) (ks ++ ls) := by
  refine spendAll_append_eq_ok.mpr ⟨m, ?_, hls⟩
  simpa using spendAll_add hks m

/-- Complete sequences are prefix-free. -/
theorem Completes.append_nil {n : Nat} {ks ls : List Key} (h : Completes n ks)
    (happ : Completes n (ks ++ ls)) : ls = [] := by
  obtain ⟨j, hks, hls⟩ := spendAll_append_eq_ok.mp happ
  obtain rfl : 0 = j := Except.ok.inj (h.symm.trans hks)
  exact Completes.eq_nil hls

/-! ## The check -/

/-- No key of the sequence has an arity that its kind cannot have. -/
def Proper (ks : List Key) : Prop := ∀ k ∈ ks, k.badArity = false

theorem badArity_iff {k : Key} :
    k.badArity = true ↔ ∃ s i, k = .proj s i 0 := by
  rcases k with _ | _ | _ | _ | _ | _ | _ | ⟨s, i, _ | n⟩ <;>
    simp [badArity]

theorem proper_iff {ks : List Key} :
    Proper ks ↔ ∀ s i, Key.proj s i 0 ∉ ks := by
  constructor
  · intro h s i hmem
    cases h _ hmem
  · intro h k hk
    rw [← Bool.not_eq_true, badArity_iff]
    rintro ⟨s, i, rfl⟩
    exact h s i hk

theorem checkFrom_eq_ok_iff {pos n : Nat} {ks : List Key} :
    checkFrom pos n ks = .ok () ↔ Completes n ks ∧ Proper ks := by
  induction ks generalizing pos n with
  | nil =>
      cases n with
      | zero => simp [checkFrom, Completes, Proper]
      | succ n => simp [checkFrom, Completes, Proper]
  | cons k ks ih =>
      cases n with
      | zero =>
          simp only [checkFrom, reduceIte, reduceCtorEq, false_iff]
          rintro ⟨hc, -⟩
          exact List.cons_ne_nil k ks hc.eq_nil
      | succ n =>
          have hcons : Completes (n + 1) (k :: ks) ↔
              Completes (n + k.arity) ks := Iff.rfl
          cases hk : k.badArity with
          | true => simp [checkFrom, hk, Proper]
          | false => simp [checkFrom, hk, ih, hcons, Proper]

/-- The check accepts exactly the sequences that spell one tree of
proper keys. -/
theorem check_eq_ok_iff {ks : List Key} :
    check ks = .ok () ↔ Completes 1 ks ∧ Proper ks := by
  cases ks with
  | nil => simp [check, Completes]
  | cons k ks =>
      change checkFrom 0 1 (k :: ks) = .ok () ↔ _
      exact checkFrom_eq_ok_iff

end Key

end TermIndex
