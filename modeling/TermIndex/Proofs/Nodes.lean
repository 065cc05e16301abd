import TermIndex.Proofs.Flattening

/-!
# Patterns node by node

A pattern is a wildcard, or a key with children. What the other modules need to
know of its measures and of its sequence is one equation for a node with a key,
and `nodes_induction`: an induction that takes the first pattern of a list apart
and puts its children in front of the others. This is the order in which a
search walks a query, and in which slots are numbered.
-/

namespace TermIndex

/-- What it is worth to match a key exactly. -/
def Key.worth (k : Key) : Nat := if k = .lam then 0 else 1

namespace Slot

/-- The metavariable of a slot that is a wildcard. -/
def wild? : Slot → Option (Option MVar)
  | .wild m => some m
  | .key _ => none

theorem numberedFrom_keys (seen : List (Option MVar)) (ks : List Key) :
    numberedFrom seen (ks.map .key) = (ks, seen) := by
  induction ks with
  | nil => rfl
  | cons k ks ih => rw [List.map_cons, numberedFrom_key, ih]

/-- Without wildcards, slots are keys. -/
theorem exists_keys {slots : List Slot} (h : slots.filterMap wild? = []) :
    ∃ ks : List Key, slots = ks.map .key := by
  induction slots with
  | nil => exact ⟨[], rfl⟩
  | cons slot slots ih =>
      cases slot with
      | wild m => cases h
      | key k =>
          obtain ⟨ks, rfl⟩ := ih h
          exact ⟨k :: ks, rfl⟩

end Slot

namespace Pattern

/-- The wildcards of a pattern in prefix order, each as its metavariable. -/
def wildcards (p : Pattern) : List (Option MVar) := p.slots.filterMap Slot.wild?

def wildcardsAll (ps : List Pattern) : List (Option MVar) :=
  (slotsAll ps).filterMap Slot.wild?

/-! ## Keys and children -/

variable {p : Pattern} {k : Key}

theorem star_or_key (p : Pattern) :
    (∃ m, p = .star m) ∨ ∃ k, p.key? = some k := by
  cases p with
  | star m => exact Or.inl ⟨m, rfl⟩
  | _ => exact Or.inr ⟨_, rfl⟩

theorem isStar_of_key (h : p.key? = some k) : p.isStar = false := by
  cases p with
  | star m => cases h
  | _ => rfl

theorem key?_of_isStar (h : p.isStar = false) : ∃ k, p.key? = some k := by
  rcases p.star_or_key with ⟨m, rfl⟩ | hk
  · cases h
  · exact hk

theorem starId?_of_key (h : p.key? = some k) : k.starId? = none := by
  cases p <;> cases h <;> rfl

theorem length_children (h : p.key? = some k) :
    p.children.length = k.arity := by
  cases p <;> cases h <;> rfl

theorem size_of_key (h : p.key? = some k) :
    p.size = k.worth + sizes p.children := by
  cases p <;> cases h <;> simp [size, sizes, children, Key.worth]

theorem numKeys_eq (p : Pattern) : p.numKeys = 1 + numKeysAll p.children := by
  cases p <;> simp [numKeys, numKeysAll, children]

theorem slots_of_key (h : p.key? = some k) :
    p.slots = .key k :: slotsAll p.children := by
  cases p <;> cases h <;> simp [slots, slotsAll, children]

/-- The sequence of a pattern that is no wildcard begins with no star. -/
theorem head?_keys (h : p.isStar = false) :
    ∀ id, p.keys.head? ≠ some (.star id) := by
  obtain ⟨k, hk⟩ := key?_of_isStar h
  rw [keys, slots_of_key hk, Slot.numberedFrom_key]
  rintro id ⟨⟩
  cases starId?_of_key hk

/-! ## Lists of patterns -/

theorem numKeysAll_append (ps qs : List Pattern) :
    numKeysAll (ps ++ qs) = numKeysAll ps + numKeysAll qs := by
  induction ps with
  | nil => simp [numKeysAll]
  | cons p ps ih => simp [numKeysAll, ih, Nat.add_assoc]

theorem sizes_append (ps qs : List Pattern) :
    sizes (ps ++ qs) = sizes ps + sizes qs := by
  induction ps with
  | nil => simp [sizes]
  | cons p ps ih => simp [sizes, ih, Nat.add_assoc]

theorem slotsAll_append (ps qs : List Pattern) :
    slotsAll (ps ++ qs) = slotsAll ps ++ slotsAll qs := by
  induction ps with
  | nil => rfl
  | cons p ps ih => simp [slotsAll, ih]

theorem sizes_of_key (h : p.key? = some k) (ps : List Pattern) :
    sizes (p :: ps) = k.worth + sizes (p.children ++ ps) := by
  rw [sizes, size_of_key h, sizes_append, Nat.add_assoc]

theorem slotsAll_of_key (h : p.key? = some k) (ps : List Pattern) :
    slotsAll (p :: ps) = .key k :: slotsAll (p.children ++ ps) := by
  rw [slotsAll, slots_of_key h, slotsAll_append, List.cons_append]

theorem slotsAll_singleton (p : Pattern) : slotsAll [p] = p.slots := by
  simp [slotsAll]

theorem wildcardsAll_star (m : Option MVar) (ps : List Pattern) :
    wildcardsAll (.star m :: ps) = m :: wildcardsAll ps := rfl

theorem wildcardsAll_of_key (h : p.key? = some k) (ps : List Pattern) :
    wildcardsAll (p :: ps) = wildcardsAll (p.children ++ ps) := by
  rw [wildcardsAll, slotsAll_of_key h]
  rfl

theorem wildcardsAll_cons (p : Pattern) (ps : List Pattern) :
    wildcardsAll (p :: ps) = p.wildcards ++ wildcardsAll ps := by
  simp [wildcardsAll, wildcards, slotsAll]

theorem wildcardsAll_singleton (p : Pattern) :
    wildcardsAll [p] = p.wildcards := by
  rw [wildcardsAll, slotsAll_singleton, wildcards]

/-- The first pattern is taken apart: its children come before the others. -/
theorem nodes_induction {P : List Pattern → Prop} (nil : P [])
    (star : ∀ m ps, P ps → P (.star m :: ps))
    (node : ∀ p k ps, p.key? = some k → P ps → P (p.children ++ ps) →
      P (p :: ps)) :
    ∀ ps, P ps := by
  suffices h : ∀ n ps, numKeysAll ps = n → P ps from fun ps => h _ ps rfl
  intro n
  induction n using Nat.strongRecOn with
  | ind n ih =>
      intro ps hn
      cases ps with
      | nil => exact nil
      | cons p ps =>
          rw [numKeysAll, numKeys_eq] at hn
          have hrest : P ps := ih (numKeysAll ps) (by omega) ps rfl
          rcases p.star_or_key with ⟨m, rfl⟩ | ⟨k, hk⟩
          · exact star m ps hrest
          · have hlt : numKeysAll (p.children ++ ps) < n := by
              rw [numKeysAll_append]
              omega
            exact node p k ps hk hrest (ih _ hlt _ rfl)

end Pattern

end TermIndex
