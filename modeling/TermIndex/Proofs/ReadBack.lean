import TermIndex.Pattern.Reader
import TermIndex.Proofs.Reading

/-!
# Reading never leaves a checked sequence

The reader goes by position and takes for granted that there is a key wherever
it looks. What it reads at a key is the node above the trees behind that key
(`reads_key`), so reading a complete front of a sequence is a walk along that
front (`reads_front`): it ends at the first star that is too large, or behind
the front with the trees that the front spells out.

A sequence that passed the check is itself such a front, so all of it is read
and no key is missing (`ofKeys_checked`).
-/

namespace TermIndex

namespace Pattern

/-! ## The reader without its proofs -/

/-- Reads one tree, and says where the next one begins. -/
def readOne (ks : List Key) (pos : Nat) : Except ReadError (Pattern × Nat) := do
  let p ← readAt ks pos
  return (p.item, p.next)

def reads (ks : List Key) (pos n : Nat) :
    Except ReadError (List Pattern × Nat) := do
  let ps ← readMany ks pos n
  return (ps.item, ps.next)

variable {ks : List Key} {pos n : Nat} {k : Key}

theorem readOne_eq (ks : List Key) (pos : Nat) :
    readOne ks pos = match ks[pos]? with
      | none => throw (.pastEnd pos)
      | some (.star id) =>
          if maxStarId < id then throw (.starOutOfRange pos)
          else return (.star (some ⟨id⟩), pos + 1)
      | some .hidden => return (.hidden, pos + 1)
      | some (.app head m) => do
          let (args, next) ← reads ks (pos + 1) m
          return (.app head args, next)
      | some (.lit l) => return (.lit l, pos + 1)
      | some .sort => return (.sort, pos + 1)
      | some .lam => do
          let (body, next) ← readOne ks (pos + 1)
          return (.lam body, next)
      | some .pi => do
          let (domain, next) ← readOne ks (pos + 1)
          let (body, next) ← readOne ks next
          return (.pi domain body, next)
      | some (.proj s i m) => do
          let (value, next) ← readOne ks (pos + 1)
          let (args, next) ← reads ks next (m - 1)
          return (.proj s i value args, next) := by
  rw [readOne, readAt]
  split <;> rename_i h <;>
    simp only [h, readOne, reads, bind_assoc, pure_bind]
  · rfl
  · split <;> rfl

theorem reads_zero : reads ks pos 0 = pure ([], pos) := by
  rw [reads, readMany]
  rfl

theorem reads_succ :
    reads ks pos (n + 1) = do
      let (p, next) ← readOne ks pos
      let (ps, last) ← reads ks next n
      return (p :: ps, last) := by
  simp only [reads, readMany, readOne, bind_assoc, pure_bind]

theorem reads_one :
    reads ks pos 1 = do
      let (p, next) ← readOne ks pos
      return ([p], next) := by
  simp only [reads_succ, reads_zero, pure_bind]

theorem reads_add (m : Nat) : ∀ pos,
    reads ks pos (m + n) = do
      let (ps, next) ← reads ks pos m
      let (qs, last) ← reads ks next n
      return (ps ++ qs, last) := by
  induction m with
  | zero =>
      intro pos
      simp only [Nat.zero_add, reads_zero, pure_bind, List.nil_append]
      exact (bind_pure _).symm
  | succ m ih =>
      intro pos
      simp only [Nat.succ_add, reads_succ, ih, bind_assoc, pure_bind,
        List.cons_append]

/-- As many trees are read as are asked for. -/
theorem reads_bind_congr {β : Type} : ∀ {n pos : Nat}
    {f g : List Pattern × Nat → Except ReadError β},
    (∀ ps next, ps.length = n → f (ps, next) = g (ps, next)) →
      (reads ks pos n >>= f) = (reads ks pos n >>= g)
  | 0, pos, f, g, h => by
      rw [reads_zero, pure_bind, pure_bind, h [] pos rfl]
  | n + 1, pos, f, g, h => by
      simp only [reads_succ, bind_assoc, pure_bind]
      refine bind_congr fun p => reads_bind_congr fun ps next hps => ?_
      exact h _ _ (congrArg Nat.succ hps)

/-! ## Walking along a front -/

/-- A star whose number no metavariable has. -/
def tooLarge : Key → Bool
  | .star id => maxStarId < id
  | _ => false

theorem tooLarge_eq_true_iff {id : Nat} :
    tooLarge (.star id) = true ↔ 2 ^ 32 ≤ id :=
  decide_eq_true_iff

/-- A key is read as the node above the trees behind it. -/
theorem reads_key (hk : ks[pos]? = some k) (hbad : k.badArity = false)
    (hsmall : tooLarge k = false) :
    reads ks pos (n + 1) = do
      let (ps, next) ← reads ks (pos + 1) (k.arity + n)
      return (graft k ps, next) := by
  rw [reads_succ, readOne_eq, hk, reads_add]
  cases k with
  | star id =>
      simp only [tooLarge, decide_eq_false_iff_not] at hsmall
      simp only [Key.arity, if_neg hsmall, reads_zero, pure_bind, bind_assoc]
      rfl
  | hidden | lit l | sort =>
      simp only [Key.arity, reads_zero, pure_bind, bind_assoc]
      rfl
  | app h m =>
      simp only [Key.arity, bind_assoc, pure_bind]
      refine reads_bind_congr fun args next hargs => ?_
      simp only [graft, List.take_left' hargs, List.drop_left' hargs]
  | lam =>
      simp only [Key.arity, reads_one, bind_assoc, pure_bind]
      rfl
  | pi =>
      simp only [Key.arity, reads_succ, reads_zero, bind_assoc, pure_bind]
      rfl
  | proj s i m =>
      cases m with
      | zero => cases hbad
      | succ m =>
          simp only [Key.arity, reads_succ, bind_assoc, pure_bind,
            Nat.add_sub_cancel]
          refine bind_congr fun value => ?_
          refine reads_bind_congr fun args next hargs => ?_
          simp only [List.cons_append, graft, Nat.add_sub_cancel,
            List.take_left' hargs, List.drop_left' hargs]

theorem reads_tooLarge {id : Nat} (hk : ks[pos]? = some (.star id))
    (hlarge : tooLarge (.star id) = true) :
    reads ks pos (n + 1) = throw (.starOutOfRange pos) := by
  simp only [tooLarge, decide_eq_true_eq] at hlarge
  rw [reads_succ, readOne_eq, hk]
  simp only [if_pos hlarge]
  rfl

/-- Complete trees at a position are read as the trees they spell, up to the
first star that is too large. -/
theorem reads_front {rest : List Key} : ∀ {front : List Key} {n pos : Nat},
    ks.drop pos = front ++ rest → Key.Completes n front → Key.Proper front →
      reads ks pos n = match front.findIdx? tooLarge with
        | none => pure (readAll front, pos + front.length)
        | some i => throw (.starOutOfRange (pos + i))
  | [], n, pos, _, hfront, _ => by
      obtain rfl : n = 0 := Except.ok.inj hfront
      rw [reads_zero]
      rfl
  | k :: front, n, pos, hks, hfront, hproper => by
      obtain ⟨n, rfl, hrest⟩ := Key.completes_cons_iff.mp hfront
      obtain ⟨hbad, hproper⟩ := List.forall_mem_cons.mp hproper
      have hk : ks[pos]? = some k := by
        rw [← List.head?_drop, hks]
        rfl
      have hdrop : ks.drop (pos + 1) = front ++ rest := by
        rw [← List.tail_drop, hks]
        rfl
      rw [List.findIdx?_cons]
      by_cases hlarge : tooLarge k = true
      · obtain ⟨id, rfl⟩ : ∃ id, k = .star id := by
          cases k with
          | star id => exact ⟨id, rfl⟩
          | _ => cases hlarge
        rw [reads_tooLarge hk hlarge, if_pos hlarge]
        rfl
      · rw [reads_key hk hbad (Bool.eq_false_iff.mpr hlarge), if_neg hlarge,
          Nat.add_comm k.arity, reads_front hdrop hrest hproper]
        cases front.findIdx? tooLarge with
        | none =>
            simp only [Option.map_none, pure_bind, List.length_cons,
              Nat.add_assoc, Nat.add_comm 1]
            rfl
        | some i =>
            simp only [Option.map_some, Nat.add_assoc, Nat.add_comm 1]
            rfl

/-! ## Checked sequences -/

theorem ofKeys_of_error {e : KeyError} (h : Key.check ks = .error e) :
    ofKeys ks = .error e := by
  rw [ofKeys, h]
  rfl

theorem ofKeys_eq (hcheck : Key.check ks = .ok ()) :
    ofKeys ks = match reads ks 0 1 with
      | .ok (ps, _) => .ok (.ok (ps.headD .hidden))
      | .error (.starOutOfRange pos) => .error (.starOutOfRange pos)
      | .error (.pastEnd pos) => .ok (.error (.pastEnd ks.length pos)) := by
  rw [ofKeys, hcheck, reads_one, readOne]
  cases readAt ks 0 with
  | ok p => rfl
  | error e => cases e <;> rfl

/-- A sequence that passed the check is one tree, and is read as that unless a
star is too large. -/
theorem ofKeys_checked (hcheck : Key.check ks = .ok ()) :
    ∃ t, readAll ks = [t] ∧ Filled ofStar ks [t]
      ∧ ofKeys ks = match ks.findIdx? tooLarge with
        | none => .ok (.ok t)
        | some i => .error (.starOutOfRange i) := by
  obtain ⟨hks, hproper⟩ := Key.check_eq_ok_iff.mp hcheck
  obtain ⟨ps, hlength, hfilled, hread⟩ := exists_filled ofStar hks hproper
  obtain ⟨t, rfl⟩ := List.length_eq_one_iff.mp hlength
  have hall : ks.drop 0 = ks ++ [] := (List.append_nil ks).symm
  refine ⟨t, (hread rfl).symm, hfilled, ?_⟩
  rw [ofKeys_eq hcheck, reads_front hall hks hproper, ← hread rfl]
  cases ks.findIdx? tooLarge with
  | none => rfl
  | some i =>
      simp only [Nat.zero_add]
      rfl

theorem findIdx?_tooLarge (h : ∀ id ∈ starIds ks, id < 2 ^ 32) :
    ks.findIdx? tooLarge = none := by
  refine List.findIdx?_eq_none_iff.mpr fun k hk => ?_
  cases k with
  | star id =>
      have hid := h id (List.mem_filterMap.mpr ⟨_, hk, rfl⟩)
      exact Bool.eq_false_iff.mpr
        (mt tooLarge_eq_true_iff.mp (Nat.not_le_of_lt hid))
  | _ => rfl

/-- The first star that is too large is the one that is found. -/
theorem findIdx?_of_first {front rest : List Key} {id : Nat}
    (hfront : ∀ j ∈ starIds front, j < 2 ^ 32) (hid : 2 ^ 32 ≤ id) :
    (front ++ .star id :: rest).findIdx? tooLarge = some front.length := by
  rw [List.findIdx?_append, findIdx?_tooLarge hfront, List.findIdx?_cons,
    if_pos (tooLarge_eq_true_iff.mpr hid), Option.none_or, Option.map_some,
    Nat.zero_add]

end Pattern

end TermIndex
