import TermIndex.Proofs.KeyTrees

/-!
# What the check of a sequence says

The check takes keys as long as it can. It stops at the first key that follows a
complete tree, or that has an arity its kind cannot have, and else at the end,
where the tree is complete or subtrees are missing. `Scan` lists these four
outcomes without saying how they are computed, and the check gives the one that
holds (`checkFrom_eq_iff`).

Each outcome is then a fact about trees of keys (`check_classifies`). What is
missing from a truncated sequence is seen from its completions: they append as
many trees as are owed (`completion_iff`).
-/

namespace TermIndex

namespace Key

/-! ## Counting -/

/-- Every key pays for one subtree only. -/
theorem le_length_of_spendAll {n m : Nat} {ks : List Key}
    (h : spendAll n ks = .ok m) : n ≤ m + ks.length := by
  induction ks generalizing n with
  | nil =>
      obtain rfl : n = m := by simpa using h
      exact Nat.le_refl n
  | cons k ks ih =>
      obtain ⟨j, rfl, hks⟩ := spendAll_cons_eq_ok.mp h
      have hle := ih hks
      rw [List.length_cons]
      omega

/-- A sequence completes a single number of subtrees. -/
theorem Completes.unique {n m : Nat} {ks : List Key} (hn : Completes n ks)
    (hm : Completes m ks) : n = m := by
  rw [← KeyTree.length_readAll hn, KeyTree.length_readAll hm]

/-- A walk that still owes subtrees has passed no complete tree. -/
theorem not_completes_front {n m : Nat} {front rest : List Key}
    (h : spendAll n (front ++ rest) = .ok (m + 1)) : ¬ Completes n front := by
  intro hfront
  obtain ⟨j, hj, hrest⟩ := spendAll_append_eq_ok.mp h
  obtain rfl : 0 = j := Except.ok.inj (hfront.symm.trans hj)
  cases rest with
  | nil => cases hrest
  | cons k rest =>
      obtain ⟨i, hi, -⟩ := spendAll_cons_eq_ok.mp hrest
      omega

/-- A walk that never passes a complete tree goes on to its end. -/
theorem spendAll_of_not_completes {n : Nat} {ks : List Key}
    (h : ∀ q ≤ ks.length, ¬ Completes n (ks.take q)) :
    ∃ m, spendAll n ks = .ok (m + 1) := by
  induction ks generalizing n with
  | nil =>
      cases n with
      | zero => exact absurd Completes.nil (h 0 (Nat.zero_le 0))
      | succ n => exact ⟨n, rfl⟩
  | cons k ks ih =>
      cases n with
      | zero => exact absurd Completes.nil (h 0 (Nat.zero_le _))
      | succ n =>
          exact ih fun q hq hfront => h (q + 1) (Nat.succ_le_succ hq) hfront

/-! ## Where the check stops -/

/-- What is said of the keys from position `pos` on, where `n` subtrees are
owed. -/
inductive Scan (pos n : Nat) (ks : List Key) : Except KeyError Unit → Prop
  | complete (h : Completes n ks) (hproper : Proper ks) : Scan pos n ks (.ok ())
  | truncated {m : Nat} (h : spendAll n ks = .ok (m + 1))
      (hproper : Proper ks) : Scan pos n ks (.error (.truncated (m + 1)))
  | trailing {p : Nat} {front rest : List Key} {k : Key}
      (hks : ks = front ++ k :: rest) (hp : p = pos + front.length)
      (h : Completes n front) (hproper : Proper front) :
      Scan pos n ks (.error (.trailing p))
  | badArity {p m : Nat} {front rest : List Key} {k : Key}
      (hks : ks = front ++ k :: rest) (hp : p = pos + front.length)
      (h : spendAll n front = .ok (m + 1)) (hproper : Proper front)
      (hk : k.badArity = true) : Scan pos n ks (.error (.badArity p))

/-- One more key in front. -/
theorem Scan.cons {pos n : Nat} {k : Key} {ks : List Key}
    {r : Except KeyError Unit} (hk : k.badArity = false)
    (h : Scan (pos + 1) (n + k.arity) ks r) : Scan pos (n + 1) (k :: ks) r := by
  have hproper : ∀ {ls : List Key}, Proper ls → Proper (k :: ls) := fun hls =>
    List.forall_mem_cons.mpr ⟨hk, hls⟩
  have hpos : ∀ front : List Key,
      pos + 1 + front.length = pos + (k :: front).length := fun front => by
    rw [List.length_cons]
    omega
  cases h with
  | complete h hks => exact .complete h (hproper hks)
  | truncated h hks => exact .truncated h (hproper hks)
  | trailing hks hp h hfront =>
      exact .trailing (congrArg (k :: ·) hks) (hp.trans (hpos _)) h
        (hproper hfront)
  | badArity hks hp h hfront hc =>
      exact .badArity (congrArg (k :: ·) hks) (hp.trans (hpos _)) h
        (hproper hfront) hc

theorem scan_checkFrom (pos n : Nat) (ks : List Key) :
    Scan pos n ks (checkFrom pos n ks) := by
  induction ks generalizing pos n with
  | nil =>
      cases n with
      | zero => exact .complete .nil (List.forall_mem_nil _)
      | succ n => exact .truncated rfl (List.forall_mem_nil _)
  | cons k ks ih =>
      cases n with
      | zero =>
          exact .trailing (List.nil_append (k :: ks)).symm rfl .nil
            (List.forall_mem_nil _)
      | succ n =>
          cases hk : k.badArity with
          | true =>
              have hstop : checkFrom pos (n + 1) (k :: ks)
                  = .error (.badArity pos) := by simp [checkFrom, hk]
              rw [hstop]
              exact .badArity (List.nil_append (k :: ks)).symm rfl rfl
                (List.forall_mem_nil _) hk
          | false =>
              have hstep : checkFrom pos (n + 1) (k :: ks)
                  = checkFrom (pos + 1) (n + k.arity) ks := by
                simp [checkFrom, hk]
              rw [hstep]
              exact (ih (pos + 1) (n + k.arity)).cons hk

/-- The check takes keys that it can take. -/
theorem checkFrom_append {pos n m : Nat} {front : List Key}
    (h : spendAll n front = .ok m) (hproper : Proper front) (rest : List Key) :
    checkFrom pos n (front ++ rest)
      = checkFrom (pos + front.length) m rest := by
  induction front generalizing pos n with
  | nil =>
      obtain rfl : n = m := by simpa using h
      rfl
  | cons k front ih =>
      obtain ⟨j, rfl, hfront⟩ := spendAll_cons_eq_ok.mp h
      obtain ⟨hk, hrest⟩ := List.forall_mem_cons.mp hproper
      rw [List.cons_append, checkFrom, hk, List.length_cons,
        Nat.add_comm front.length, ← Nat.add_assoc]
      exact ih hfront hrest

theorem checkFrom_eq_iff {pos n : Nat} {ks : List Key}
    {r : Except KeyError Unit} : checkFrom pos n ks = r ↔ Scan pos n ks r := by
  constructor
  · rintro rfl
    exact scan_checkFrom pos n ks
  · intro h
    cases h with
    | complete h hks => exact checkFrom_eq_ok_iff.mpr ⟨h, hks⟩
    | truncated h hks =>
        rw [← List.append_nil ks, checkFrom_append h hks]
        rfl
    | trailing hks hp h hfront =>
        rw [hks, hp, checkFrom_append h hfront]
        rfl
    | badArity hks hp h hfront hk =>
        rw [hks, hp, checkFrom_append h hfront]
        simp [checkFrom, hk]

/-- The check of a sequence starts with one tree that is owed. -/
theorem check_eq_iff {ks : List Key} (hks : ks ≠ [])
    {r : Except KeyError Unit} : check ks = r ↔ Scan 0 1 ks r := by
  rw [← checkFrom_eq_iff, check, if_neg (by simpa using hks)]

theorem scan_of_check {ks : List Key} {e : KeyError}
    (h : check ks = .error e) (he : e ≠ .empty) : Scan 0 1 ks (.error e) := by
  cases ks with
  | nil => exact absurd (Except.error.inj h).symm he
  | cons k ks => exact (check_eq_iff (List.cons_ne_nil k ks)).mp h

/-! ## Outcomes -/

theorem check_eq_empty_iff {ks : List Key} :
    check ks = .error .empty ↔ ks = [] := by
  constructor
  · intro h
    by_contra hks
    cases (check_eq_iff hks).mp h
  · rintro rfl
    rfl

/-- The key at which a sequence is cut off. -/
theorem eq_take_append {ks : List Key} {p : Nat} {k : Key}
    (hk : ks[p]? = some k) :
    ks = ks.take p ++ k :: ks.drop (p + 1)
      ∧ p = 0 + (ks.take p).length := by
  obtain ⟨hp, rfl⟩ := List.getElem?_eq_some_iff.mp hk
  refine ⟨?_, ?_⟩
  · rw [List.getElem_cons_drop, List.take_append_drop]
  · rw [List.length_take]
    omega

theorem check_eq_trailing_iff {ks : List Key} {p : Nat} :
    check ks = .error (.trailing p) ↔
      p < ks.length ∧ ListsTree (ks.take p) := by
  rw [listsTree_iff]
  constructor
  · intro hcheck
    cases scan_of_check hcheck nofun with
    | @trailing _ front rest k hks hp h hfront =>
        rw [Nat.zero_add] at hp
        rw [hks, hp, List.take_left]
        exact ⟨by simp, h, hfront⟩
  · rintro ⟨hp, h, hproper⟩
    obtain ⟨hsplit, hlength⟩ := eq_take_append (List.getElem?_eq_getElem hp)
    exact (check_eq_iff (List.ne_nil_of_length_pos (by omega))).mpr
      (.trailing hsplit hlength h hproper)

/-! ## Impossible arities -/

theorem check_eq_badArity_iff {ks : List Key} {p : Nat} :
    check ks = .error (.badArity p) ↔
      (∃ s i, ks[p]? = some (.proj s i 0))
      ∧ ∀ q ≤ p, ¬ ListsTree (ks.take q)
        ∧ ∀ s i, Key.proj s i 0 ∉ ks.take q := by
  simp only [listsTree_iff]
  constructor
  · intro hcheck
    cases scan_of_check hcheck nofun with
    | @badArity _ m front rest k hks hp h hproper hk =>
        rw [Nat.zero_add] at hp
        subst hks hp
        obtain ⟨s, i, rfl⟩ := badArity_iff.mp hk
        refine ⟨⟨s, i, by simp⟩, fun q hq => ?_⟩
        rw [List.take_append_of_le_length hq]
        have hpending : spendAll 1 (front.take q ++ front.drop q)
            = .ok (m + 1) := by rw [List.take_append_drop, h]
        exact ⟨fun hfront => not_completes_front hpending hfront.1,
          fun s i hmem => proper_iff.mp hproper s i (List.mem_of_mem_take hmem)⟩
  · rintro ⟨⟨s, i, hk⟩, hfirst⟩
    obtain ⟨hsplit, hlength⟩ := eq_take_append hk
    have hproper : ∀ q ≤ p, Proper (ks.take q) := fun q hq =>
      proper_iff.mpr (hfirst q hq).2
    have hopen : ∀ q ≤ (ks.take p).length,
        ¬ Completes 1 ((ks.take p).take q) := by
      intro q hq hfront
      rw [List.length_take] at hq
      rw [List.take_take, Nat.min_eq_left (by omega)] at hfront
      exact (hfirst q (by omega)).1 ⟨hfront, hproper q (by omega)⟩
    obtain ⟨m, hm⟩ := spendAll_of_not_completes hopen
    exact (check_eq_iff (List.ne_nil_of_mem (List.mem_of_getElem? hk))).mpr
      (.badArity hsplit hlength hm (hproper p (Nat.le_refl p)) rfl)

/-! ## Missing subtrees -/

/-- What can be appended to a sequence so that it is one tree. -/
def Completion (ks ls : List Key) : Prop := ls ≠ [] ∧ ListsTree (ks ++ ls)

/-- A completion with as few keys as any. -/
def ShortestCompletion (ks ls : List Key) : Prop :=
  Completion ks ls ∧ ∀ ls', Completion ks ls' → ls.length ≤ ls'.length

/-- The completions of a sequence are as many trees as it owes. -/
theorem completion_iff {ks ls : List Key} {m : Nat}
    (h : spendAll 1 ks = .ok (m + 1)) (hproper : Proper ks) :
    Completion ks ls ↔ Completes (m + 1) ls ∧ Proper ls := by
  rw [Completion, listsTree_iff]
  constructor
  · rintro ⟨-, hall, hallProper⟩
    obtain ⟨j, hj, hls⟩ := spendAll_append_eq_ok.mp hall
    obtain rfl : m + 1 = j := Except.ok.inj (h.symm.trans hj)
    exact ⟨hls, (List.forall_mem_append.mp hallProper).2⟩
  · rintro ⟨hls, hlsProper⟩
    refine ⟨?_, spendAll_append_eq_ok.mpr ⟨m + 1, h, hls⟩,
      List.forall_mem_append.mpr ⟨hproper, hlsProper⟩⟩
    rintro rfl
    cases hls

/-- A sequence that has a completion owes the subtrees that it appends. -/
theorem Completion.owes {ks ls : List Key} (h : Completion ks ls) :
    ∃ m, spendAll 1 ks = .ok (m + 1) ∧ Proper ks := by
  obtain ⟨hne, htree⟩ := h
  obtain ⟨hall, hproper⟩ := listsTree_iff.mp htree
  obtain ⟨j, hj, hls⟩ := spendAll_append_eq_ok.mp hall
  cases j with
  | zero => exact absurd (Completes.eq_nil hls) hne
  | succ m => exact ⟨m, hj, (List.forall_mem_append.mp hproper).1⟩

theorem completes_replicate_sort (n : Nat) :
    Completes n (List.replicate n .sort) := by
  induction n with
  | zero => exact .nil
  | succ n ih => exact completes_cons_iff.mpr ⟨n, rfl, ih⟩

/-- Leaves alone are a shortest completion. -/
theorem shortestCompletion_replicate {ks : List Key} {m : Nat}
    (h : spendAll 1 ks = .ok (m + 1)) (hproper : Proper ks) :
    ShortestCompletion ks (List.replicate (m + 1) .sort) := by
  refine ⟨(completion_iff h hproper).mpr
    ⟨completes_replicate_sort (m + 1), fun k hk => ?_⟩, fun ls hls => ?_⟩
  · rw [List.eq_of_mem_replicate hk]
    rfl
  · have hle := le_length_of_spendAll ((completion_iff h hproper).mp hls).1
    rw [List.length_replicate]
    omega

theorem check_eq_truncated_iff {ks : List Key} {m : Nat} :
    check ks = .error (.truncated m) ↔
      ks ≠ [] ∧ (∃ ls, ShortestCompletion ks ls)
      ∧ ∀ ls, ShortestCompletion ks ls → ∃ ts : List KeyTree, ts.length = m
        ∧ (∀ t ∈ ts, t.WellFormed) ∧ KeyTree.keysAll ts = ls := by
  simp only [← KeyTree.completes_iff]
  constructor
  · intro hcheck
    cases scan_of_check hcheck nofun with
    | truncated h hproper =>
        refine ⟨?_, ⟨_, shortestCompletion_replicate h hproper⟩,
          fun ls hls => (completion_iff h hproper).mp hls.1⟩
        rintro rfl
        cases hcheck
  · rintro ⟨hks, ⟨ls, hls⟩, hmissing⟩
    obtain ⟨n, h, hproper⟩ := hls.1.owes
    obtain rfl : m = n + 1 := (hmissing ls hls).1.unique
      ((completion_iff h hproper).mp hls.1).1
    exact (check_eq_iff hks).mpr (.truncated h hproper)

/-- **The check tells what a sequence lists.** It accepts the sequences of one
tree. Of the others it says, at the first key where this shows, that the tree is
complete before its end, or that a projection lacks its value; or else how many
trees are missing at its end; or that it is empty. -/
theorem check_classifies (ks : List Key) :
    (check ks = .ok () ↔ ∃! t : KeyTree, t.WellFormed ∧ t.keys = ks)
    ∧ (∀ p, check ks = .error (.trailing p) ↔
      p < ks.length ∧ ListsTree (ks.take p))
    ∧ (∀ p, check ks = .error (.badArity p) ↔
      (∃ s i, ks[p]? = some (.proj s i 0))
      ∧ ∀ q ≤ p, ¬ ListsTree (ks.take q)
        ∧ ∀ s i, Key.proj s i 0 ∉ ks.take q)
    ∧ (∀ m, check ks = .error (.truncated m) ↔
      ks ≠ [] ∧ (∃ ls, ShortestCompletion ks ls)
      ∧ ∀ ls, ShortestCompletion ks ls → ∃ ts : List KeyTree, ts.length = m
        ∧ (∀ t ∈ ts, t.WellFormed) ∧ KeyTree.keysAll ts = ls)
    ∧ (check ks = .error .empty ↔ ks = [])
    ∧ ∀ p, check ks ≠ .error (.starOutOfRange p) := by
  refine ⟨check_eq_ok_iff.trans listsTree_iff.symm,
    fun p => check_eq_trailing_iff, fun p => check_eq_badArity_iff,
    fun m => check_eq_truncated_iff, check_eq_empty_iff, fun p hcheck => ?_⟩
  cases scan_of_check hcheck nofun

/-- The lambda lacks its body, and the projection two more subtrees. -/
example : check [.proj ⟨"S"⟩ 0 3, .lam] = .error (.truncated 3) := by decide

end Key

end TermIndex
