import TermIndex.Pattern.Flatten
import TermIndex.Proofs.Complete

/-!
# Flattened patterns are complete

The sequence of a pattern passes the check of sequences (`check_keys`), so that
inserting a pattern never meets a sequence that the trie cannot take.

A node gives a key with the arity of its children, whatever wildcards were met
before it. So the invariant of the induction speaks of all of these at once:
`Spells n slots` says that the slots are numbered to `n` complete trees, from
any wildcards on.
-/

namespace TermIndex

namespace Slot

/-! ## Numbering -/

theorem numberedFrom_key (seen : List (Option MVar)) (k : Key)
    (rest : List Slot) :
    numberedFrom seen (.key k :: rest)
      = (k :: (numberedFrom seen rest).1, (numberedFrom seen rest).2) := rfl

/-- A wildcard becomes the star whose number is its place among the wildcards
met so far. Only a metavariable that was met before has a place already. -/
theorem numberedFrom_wild (seen : List (Option MVar)) (m : Option MVar)
    (rest : List Slot) :
    ∃ id seen', numberedFrom seen (.wild m :: rest)
        = (.star id :: (numberedFrom seen' rest).1,
          (numberedFrom seen' rest).2)
      ∧ (seen' = seen ∧ m ≠ none ∧ seen.idxOf? m = some id
        ∨ seen' = seen ++ [m] ∧ id = seen.length
          ∧ ∀ x, m = some x → seen.idxOf? m = none) := by
  cases m with
  | none =>
      exact ⟨seen.length, seen ++ [none], rfl, Or.inr ⟨rfl, rfl, nofun⟩⟩
  | some m =>
      cases hm : seen.idxOf? (some m) with
      | some id =>
          refine ⟨id, seen, ?_, Or.inl ⟨rfl, nofun, rfl⟩⟩
          simp only [numberedFrom, hm]
      | none =>
          refine ⟨seen.length, seen ++ [some m], ?_,
            Or.inr ⟨rfl, rfl, fun _ _ => rfl⟩⟩
          simp only [numberedFrom, hm]

theorem numberedFrom_append (as bs : List Slot) : ∀ seen : List (Option MVar),
    numberedFrom seen (as ++ bs)
      = ((numberedFrom seen as).1
          ++ (numberedFrom (numberedFrom seen as).2 bs).1,
        (numberedFrom (numberedFrom seen as).2 bs).2) := by
  induction as with
  | nil => exact fun seen => rfl
  | cons a as ih =>
      intro seen
      cases a with
      | key k => simp only [List.cons_append, numberedFrom_key, ih]
      | wild m =>
          cases m with
          | none => simp only [List.cons_append, numberedFrom, ih]
          | some m =>
              cases hm : seen.idxOf? (some m) with
              | some id => simp only [List.cons_append, numberedFrom, hm, ih]
              | none => simp only [List.cons_append, numberedFrom, hm, ih]

/-! ## Complete trees -/

/-- The slots are numbered to `n` complete trees of proper keys. -/
def Spells (n : Nat) (slots : List Slot) : Prop :=
  ∀ seen, Key.Completes n (numberedFrom seen slots).1
    ∧ Key.Proper (numberedFrom seen slots).1

theorem Spells.nil : Spells 0 [] :=
  fun _ => ⟨Key.Completes.nil, fun _ hk => by cases hk⟩

theorem Spells.key {n : Nat} {k : Key} {slots : List Slot}
    (hk : k.badArity = false)
    (h : Spells (n + k.arity) slots) : Spells (n + 1) (.key k :: slots) := by
  intro seen
  obtain ⟨hcompletes, hproper⟩ := h seen
  rw [numberedFrom_key]
  exact ⟨Key.completes_cons_iff.mpr ⟨n, rfl, hcompletes⟩,
    List.forall_mem_cons.mpr ⟨hk, hproper⟩⟩

theorem Spells.wild {n : Nat} {m : Option MVar} {slots : List Slot}
    (h : Spells n slots) :
    Spells (n + 1) (.wild m :: slots) := by
  intro seen
  obtain ⟨id, seen', heq, -⟩ := numberedFrom_wild seen m slots
  obtain ⟨hcompletes, hproper⟩ := h seen'
  rw [heq]
  exact ⟨Key.completes_cons_iff.mpr ⟨n, rfl, hcompletes⟩,
    List.forall_mem_cons.mpr ⟨rfl, hproper⟩⟩

theorem Spells.append {n m : Nat} {as bs : List Slot} (has : Spells n as)
    (hbs : Spells m bs) :
    Spells (n + m) (as ++ bs) := by
  intro seen
  obtain ⟨hcompletes, hproper⟩ := has seen
  obtain ⟨hcompletes', hproper'⟩ := hbs (numberedFrom seen as).2
  rw [numberedFrom_append]
  exact ⟨hcompletes.append hcompletes',
    List.forall_mem_append.mpr ⟨hproper, hproper'⟩⟩

end Slot

namespace Pattern

open Slot

mutual

theorem spells_slots : ∀ p : Pattern, Spells 1 p.slots
  | .star m => Spells.nil.wild
  | .hidden | .fixed _ | .lit _ | .sort => Spells.nil.key rfl
  | .app h args => by
      have hargs := spells_slotsAll args
      rw [← Nat.zero_add args.length] at hargs
      exact hargs.key rfl
  | .lam body => (spells_slots body).key rfl
  | .pi domain body =>
      ((spells_slots domain).append (spells_slots body)).key rfl
  | .proj s i value args => by
      have hparts := (spells_slots value).append (spells_slotsAll args)
      rw [Nat.add_comm 1, ← Nat.zero_add (args.length + 1)] at hparts
      exact hparts.key rfl

theorem spells_slotsAll : ∀ ps : List Pattern, Spells ps.length (slotsAll ps)
  | [] => Spells.nil
  | p :: ps => by
      have hall := (spells_slots p).append (spells_slotsAll ps)
      rwa [Nat.add_comm 1] at hall

end

/-- The sequence of every pattern passes the check. -/
theorem check_keys (p : Pattern) : Key.check p.keys = .ok () :=
  Key.check_eq_ok_iff.mpr (spells_slots p [])

end Pattern

end TermIndex
