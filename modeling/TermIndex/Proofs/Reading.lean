import Mathlib.Algebra.GroupWithZero.Nat
import TermIndex.Proofs.Filling

/-!
# Sequences as trees

A complete sequence spells trees: a key takes as many of the trees behind it as
its arity says, and a star is a wildcard that carries its number (`readAll`).
`Filled` relates the sequence to all trees that come out when the stars are
filled in, and the trees that are read are the case in which every star stays
what it is (`filled_readAll`).

What a sequence is filled with follows the sequence: it splits where the
trees do (`Filled.split`), its wildcards are those that the stars bring along
(`Filled.wildcardsAll_eq`), and its size is the size of the trees that were read
plus that of everything filled in (`Filled.sizes_eq`).
-/

namespace TermIndex

/-! ## Nodes -/

/-- What a star is read as. -/
def Pattern.ofStar (id : Nat) : Pattern := .star (some ⟨id⟩)

theorem Pattern.badArity_of_key {p : Pattern} {k : Key} (h : p.key? = some k) :
    k.badArity = false := by
  cases p <;> cases h <;> rfl

/-- A key that is no star becomes a node above as many trees as it owes. -/
theorem Pattern.graft_eq_cons {k : Key} {ts : List Pattern}
    (hstar : k.starId? = none) (hbad : k.badArity = false)
    (hle : k.arity ≤ ts.length) :
    ∃ t rest, graft k ts = t :: rest ∧ t.key? = some k
      ∧ t.children ++ rest = ts := by
  cases k with
  | star id => cases hstar
  | app h n =>
      have hlength : (ts.take n).length = n := List.length_take_of_le hle
      refine ⟨_, _, rfl, ?_, List.take_append_drop n ts⟩
      rw [key?, hlength]
  | lam =>
      obtain ⟨body, rest, rfl⟩ := List.exists_cons_of_length_pos hle
      exact ⟨_, _, rfl, rfl, rfl⟩
  | pi =>
      match ts, hle with
      | domain :: body :: rest, _ => exact ⟨_, _, rfl, rfl, rfl⟩
  | proj st i n =>
      match n, ts, hbad, hle with
      | n + 1, value :: rest, _, hle =>
          have hlength : (rest.take n).length = n :=
            List.length_take_of_le (Nat.le_of_succ_le_succ hle)
          refine ⟨_, _, rfl, ?_, ?_⟩
          · rw [key?, Nat.add_sub_cancel, hlength]
          · exact congrArg (value :: ·) (List.take_append_drop n rest)
  | _ => exact ⟨_, _, rfl, rfl, rfl⟩

variable {s : Nat → Pattern} {ks ls : List Key} {ps qs : List Pattern}

/-! ## What a complete sequence is filled with -/

theorem Filled.completes (h : Filled s ks ps) : Key.Completes ps.length ks := by
  induction h with
  | nil => exact Key.Completes.nil
  | @star id ks ps h ih => exact Key.completes_cons_iff.mpr ⟨ps.length, rfl, ih⟩
  | @node p k ks ps hkey h ih =>
      rw [List.length_append, Pattern.length_children hkey, Nat.add_comm] at ih
      exact Key.completes_cons_iff.mpr ⟨ps.length, rfl, ih⟩

/-- A complete sequence can be filled in any way. When every star stays what it
is, the trees are those that are read. -/
theorem exists_filled (s : Nat → Pattern) : ∀ {n : Nat} {ks : List Key},
    Key.Completes n ks → Key.Proper ks →
      ∃ ps, ps.length = n ∧ Filled s ks ps
        ∧ (s = Pattern.ofStar → ps = Pattern.readAll ks)
  | n, [], hks, _ => by
      obtain rfl : n = 0 := Except.ok.inj hks
      exact ⟨[], rfl, .nil, fun _ => rfl⟩
  | n, k :: ks, hks, hproper => by
      obtain ⟨m, rfl, hrest⟩ := Key.completes_cons_iff.mp hks
      obtain ⟨hbad, hproper⟩ := List.forall_mem_cons.mp hproper
      obtain ⟨ps, hlength, hfilled, hread⟩ := exists_filled s hrest hproper
      cases hk : k.starId? with
      | some id =>
          obtain rfl := Key.starId?_eq_some_iff.mp hk
          refine ⟨s id :: ps, by rw [List.length_cons, hlength]; rfl,
            .star hfilled, ?_⟩
          rintro rfl
          rw [hread rfl]
          rfl
      | none =>
          have hle : k.arity ≤ ps.length := by omega
          obtain ⟨t, rest, hgraft, hkey, hchildren⟩ :=
            Pattern.graft_eq_cons hk hbad hle
          have hsum := congrArg List.length hchildren
          rw [List.length_append, Pattern.length_children hkey] at hsum
          refine ⟨t :: rest, by rw [List.length_cons]; omega,
            .node hkey (by rwa [hchildren]), fun hs => ?_⟩
          rw [← hgraft, hread hs]
          rfl

/-- What is read is the sequence with every star left as it is. -/
theorem filled_readAll {n : Nat} (hks : Key.Completes n ks)
    (hproper : Key.Proper ks) :
    Filled Pattern.ofStar ks (Pattern.readAll ks) := by
  obtain ⟨ps, -, hfilled, hread⟩ := exists_filled Pattern.ofStar hks hproper
  rwa [hread rfl] at hfilled

theorem Filled.append (h : Filled s ks ps) (h' : Filled s ls qs) :
    Filled s (ks ++ ls) (ps ++ qs) := by
  induction h with
  | nil => exact h'
  | star _ ih => exact .star ih
  | node hkey _ ih =>
      rw [List.append_assoc] at ih
      exact .node hkey ih

/-- The sequence splits where the trees do. -/
theorem Filled.split (h : Filled s ks (ps ++ qs)) :
    ∃ as bs, ks = as ++ bs ∧ Filled s as ps ∧ Filled s bs qs := by
  generalize hrs : ps ++ qs = rs at h
  induction h generalizing ps with
  | nil =>
      obtain ⟨rfl, rfl⟩ := List.append_eq_nil_iff.mp hrs
      exact ⟨[], [], rfl, .nil, .nil⟩
  | @star id ks rs h ih =>
      rcases List.append_eq_cons_iff.mp hrs with ⟨rfl, rfl⟩ | ⟨ps, rfl, rfl⟩
      · exact ⟨[], .star id :: ks, rfl, .nil, .star h⟩
      · obtain ⟨as, bs, rfl, has, hbs⟩ := ih rfl
        exact ⟨.star id :: as, bs, rfl, .star has, hbs⟩
  | @node p k ks rs hkey h ih =>
      rcases List.append_eq_cons_iff.mp hrs with ⟨rfl, rfl⟩ | ⟨ps, rfl, rfl⟩
      · exact ⟨[], k :: ks, rfl, .nil, .node hkey h⟩
      · obtain ⟨as, bs, rfl, has, hbs⟩ := ih (List.append_assoc ..)
        exact ⟨k :: as, bs, rfl, .node hkey has, hbs⟩

/-- Two readings of one sequence split it at the same place. -/
theorem Filled.split_both {s' : Nat → Pattern} {p q : Pattern}
    (hp : Filled s ks (p :: ps)) (hq : Filled s' ks (q :: qs)) :
    ∃ as bs, ks = as ++ bs ∧ Filled s as [p] ∧ Filled s' as [q]
      ∧ Filled s bs ps ∧ Filled s' bs qs := by
  replace hp : Filled s ks ([p] ++ ps) := hp
  replace hq : Filled s' ks ([q] ++ qs) := hq
  obtain ⟨as, bs, rfl, has, hbs⟩ := hp.split
  obtain ⟨as', bs', heq, has', hbs'⟩ := hq.split
  obtain ⟨rfl, rfl⟩ := has.completes.append_inj has'.completes heq
  exact ⟨as, bs, rfl, has, has', hbs, hbs'⟩

/-! ## Wildcards and sizes -/

/-- Wildcards come in with the stars only. -/
theorem Filled.wildcardsAll_eq (h : Filled s ks ps) :
    Pattern.wildcardsAll ps
      = (starIds ks).flatMap fun id => (s id).wildcards := by
  induction h with
  | nil => rfl
  | star h ih =>
      rw [Pattern.wildcardsAll_cons, ih, starIds_star, List.flatMap_cons]
  | node hkey h ih =>
      rw [Pattern.wildcardsAll_of_key hkey, ih, starIds_of_key hkey]

/-- Filling a star in adds the size of what it is filled with. -/
theorem Filled.sizes_eq {ts : List Pattern} (h : Filled s ks ps)
    (hread : Filled Pattern.ofStar ks ts) :
    Pattern.sizes ps
      = Pattern.sizes ts + ((starIds ks).map fun id => (s id).size).sum := by
  induction h generalizing ts with
  | nil =>
      cases hread
      rfl
  | @star id ks ps h ih =>
      cases hread with
      | star hread =>
          rw [starIds_star, List.map_cons, List.sum_cons, Pattern.sizes,
            Pattern.sizes, ih hread, Pattern.ofStar, Pattern.size]
          omega
      | node hkey _ => exact (Walk.key?_ne_star hkey).elim
  | @node p k ks ps hkey h ih =>
      cases hread with
      | star _ => exact (Walk.key?_ne_star hkey).elim
      | node hkey' hread =>
          rw [starIds_of_key hkey, Pattern.sizes_of_key hkey,
            Pattern.sizes_of_key hkey', ih hread, Nat.add_assoc]

end TermIndex
