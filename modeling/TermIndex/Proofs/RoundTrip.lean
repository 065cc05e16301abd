import TermIndex.Proofs.ReadBack
import TermIndex.Proofs.Relabelling
import TermIndex.Proofs.Subtrees

/-!
# Flattening and reading

Reading undoes flattening up to names (`ofKeys_keys`): a pattern comes back in
its standard form. Flattening undoes reading up to the numbers of stars
(`ofKeys_outcome`): the trees of a sequence have its keys, and their wildcards
are its stars (`slotsAll_of_filled`), so flattening them numbers the stars anew.
-/

namespace TermIndex

namespace Key

variable {ks : List Key}

/-! ## Numbers of stars -/

/-- The same key with another number if it is a star. -/
def mapStar (f : Nat → Nat) : Key → Key
  | .star id => .star (f id)
  | k => k

/-- The sequence with its stars numbered by their first occurrences. -/
def renumber (ks : List Key) : List Key :=
  ks.map (mapStar (starIds ks).eraseDups.idxOf)

/-- The different stars are `0`, `1`, `2` and so on, in the order in which they
first occur. -/
def Numbered (ks : List Key) : Prop :=
  (starIds ks).eraseDups = List.range (starIds ks).eraseDups.length

instance (ks : List Key) : Decidable (Numbered ks) :=
  inferInstanceAs (Decidable (_ = _))

theorem map_mapStar_eq_self_iff {f : Nat → Nat} :
    ks.map (mapStar f) = ks ↔ ∀ id ∈ starIds ks, f id = id := by
  induction ks with
  | nil => simp
  | cons k ks ih =>
      cases k with
      | star id =>
          rw [List.map_cons, mapStar, List.cons.injEq, Key.star.injEq, ih,
            starIds_star, List.forall_mem_cons]
      | _ => exact (List.cons_inj_right _).trans ih

theorem renumber_eq_self_iff : renumber ks = ks ↔ Numbered ks := by
  rw [renumber, map_mapStar_eq_self_iff, Numbered,
    ← idxOf_eq_self_iff (nodup_eraseDups _)]
  simp only [List.mem_eraseDups]

end Key

namespace Pattern

variable {ks : List Key} {k : Key} {t : Pattern}

/-! ## What the trees of a sequence are like -/

/-- The place that a key is read as. -/
def slotOf : Key → Slot
  | .star id => .wild (some ⟨id⟩)
  | k => .key k

theorem slotOf_of_key {p : Pattern} (hkey : p.key? = some k) :
    slotOf k = .key k := by
  cases p <;> cases hkey <;> rfl

theorem slotsAll_of_filled {ps : List Pattern} (h : Filled ofStar ks ps) :
    slotsAll ps = ks.map slotOf := by
  induction h with
  | nil => rfl
  | star h ih =>
      rw [List.map_cons, ← ih]
      rfl
  | node hkey h ih =>
      rw [slotsAll_of_key hkey, ih, List.map_cons, slotOf_of_key hkey]

theorem filterMap_slotOf (ks : List Key) :
    (ks.map slotOf).filterMap Slot.wild?
      = (starIds ks).map fun id => some ⟨id⟩ := by
  rw [List.filterMap_map, starIds, List.map_filterMap]
  refine List.filterMap_congr fun k _ => ?_
  cases k <;> rfl

theorem wilds_of_filled (h : Filled ofStar ks [t]) :
    wilds t.wildcards = (starIds ks).map fun id => .named ⟨id⟩ := by
  rw [wildcards, ← slotsAll_singleton, slotsAll_of_filled h, filterMap_slotOf,
    wilds_named]

/-- If `s` agrees with `f` at every star, spelling the places that were read
renumbers the sequence by `f`. -/
theorem spelledFrom_slotOf {s f : Nat → Nat} : ∀ {ks : List Key} {n : Nat},
    (∀ i id, (starIds ks)[i]? = some id → s (n + i) = f id) →
      Slot.spelledFrom s n (ks.map slotOf) = ks.map (Key.mapStar f)
  | [], _, _ => rfl
  | k :: ks, n, h => by
      cases k with
      | star id =>
          have hhere : s n = f id := h 0 id rfl
          have hrest : Slot.spelledFrom s (n + 1) (ks.map slotOf)
              = ks.map (Key.mapStar f) := by
            refine spelledFrom_slotOf fun i id hi => ?_
            rw [Nat.add_assoc, Nat.add_comm 1]
            exact h (i + 1) id hi
          rw [List.map_cons, slotOf, Slot.spelledFrom, hrest, List.map_cons,
            Key.mapStar, hhere]
      | _ => exact congrArg (_ :: ·) (spelledFrom_slotOf h)

theorem keys_of_filled (h : Filled ofStar ks [t]) :
    t.keys = Key.renumber ks := by
  rw [keys_eq, ← slotsAll_singleton, slotsAll_of_filled h, Key.renumber]
  refine spelledFrom_slotOf fun i id hi => ?_
  rw [rank, wilds_of_filled h, ranks_named, Nat.zero_add,
    List.getD_eq_getElem?_getD, ranks, List.getElem?_map, hi]
  rfl

/-! ## Flattening, then reading -/

theorem length_spelledFrom (s : Nat → Nat) (slots : List Slot) : ∀ n,
    (Slot.spelledFrom s n slots).length = slots.length := by
  induction slots with
  | nil => exact fun _ => rfl
  | cons slot rest ih =>
      intro n
      cases slot <;>
        rw [Slot.spelledFrom, List.length_cons, ih, List.length_cons]

theorem length_slotsAll (ps : List Pattern) :
    (slotsAll ps).length = numKeysAll ps := by
  induction ps using nodes_induction with
  | nil => rfl
  | star m ps ih =>
      rw [numKeysAll, numKeys, Nat.add_comm, ← ih]
      rfl
  | node p k ps hkey _ ih =>
      rw [slotsAll_of_key hkey, List.length_cons, ih, numKeysAll_append,
        numKeysAll, numKeys_eq p]
      omega

theorem length_keys (p : Pattern) : p.keys.length = p.numKeys := by
  rw [keys_eq, length_spelledFrom, ← slotsAll_singleton, length_slotsAll,
    numKeysAll, numKeysAll, Nat.add_zero]

theorem filled_standard (p : Pattern) : Filled ofStar p.keys [p.standard] := by
  obtain ⟨hcompletes, hproper⟩ := Key.check_eq_ok_iff.mp (check_keys p)
  have hread := filled_readAll hcompletes hproper
  rwa [readAll_keys] at hread

/-- The stars of a sequence are the ranks of the wildcards. -/
theorem starIds_keys (p : Pattern) :
    starIds p.keys = ranks (wilds p.wildcards) :=
  List.map_injective_iff.mpr named_injective
    ((wilds_of_filled (filled_standard p)).symm.trans (wilds_standard p))

/-- **Reading undoes flattening, up to names.** The sequence of a pattern with
no more different wildcards than there are metavariables is one complete tree,
of as many keys as the pattern has. It is read as the pattern with every fixed
metavariable hidden and every wildcard named by its rank, and that one has the
same sequence and the same size. -/
theorem ofKeys_keys (p : Pattern)
    (hfew : (wilds p.wildcards).eraseDups.length ≤ 2 ^ 32) :
    Key.check p.keys = .ok () ∧ p.keys.length = p.numKeys
      ∧ Key.subtreeLength? p.keys 0 = some p.keys.length
      ∧ ofKeys p.keys = .ok (.ok p.standard)
      ∧ p.standard.keys = p.keys ∧ p.standard.size = p.size := by
  have hcheck := check_keys p
  obtain ⟨hcompletes, -⟩ := Key.check_eq_ok_iff.mp hcheck
  have hsmall : ∀ id ∈ starIds p.keys, id < 2 ^ 32 := by
    intro id hid
    rw [starIds_keys] at hid
    exact Nat.lt_of_lt_of_le (rank_lt hid) hfew
  obtain ⟨t, hread, -, hof⟩ := ofKeys_checked hcheck
  rw [readAll_keys] at hread
  obtain rfl := List.head_eq_of_cons_eq hread
  rw [findIdx?_tooLarge hsmall] at hof
  exact ⟨hcheck, length_keys p, Key.subtreesLength?_of_completes hcompletes,
    hof, keys_standard p, size_relabel _ p⟩

/-- A wildcard that is met twice keeps one number, and an anonymous one has its
own. The fixed metavariable comes back as hidden. -/
theorem ofKeys_keys_repeated :
    ∃ p t : Pattern,
      p = .app (.const ⟨"f"⟩) [.star (some ⟨7⟩), .star none,
        .lam (.fixed ⟨3⟩), .star (some ⟨7⟩)]
      ∧ t = .app (.const ⟨"f"⟩) [.star (some ⟨0⟩), .star (some ⟨1⟩),
        .lam .hidden, .star (some ⟨0⟩)]
      ∧ (wilds p.wildcards).eraseDups.length ≤ 2 ^ 32
      ∧ ofKeys p.keys = .ok (.ok t) ∧ t.keys = p.keys := by
  let p := Pattern.app (.const ⟨"f"⟩) [.star (some ⟨7⟩), .star none,
    .lam (.fixed ⟨3⟩), .star (some ⟨7⟩)]
  have hfew : (wilds p.wildcards).eraseDups.length ≤ 2 ^ 32 := by decide
  obtain ⟨-, -, -, hof, hkeys, -⟩ := ofKeys_keys p hfew
  exact ⟨p, p.standard, rfl, rfl, hfew, hof, hkeys⟩

/-! ## Reading, then flattening -/

/-- **What reading a sequence can end with.** It never runs past the end. A
sequence that fails the check is refused with the error of the check, and one
that passes it with the position of its first star that is no metavariable. Any
other sequence is read as a pattern, and the sequence of that is the one that
was read, with its stars numbered by their first occurrences: the same one
exactly if they were numbered so before. -/
theorem ofKeys_outcome (ks : List Key) :
    (∀ fault, ofKeys ks ≠ .ok (.error fault))
      ∧ (∀ e, Key.check ks = .error e → ofKeys ks = .error e)
      ∧ (Key.check ks = .ok () →
        (∀ front id rest, ks = front ++ .star id :: rest →
          (∀ j ∈ starIds front, j < 2 ^ 32) → 2 ^ 32 ≤ id →
            ofKeys ks = .error (.starOutOfRange front.length))
        ∧ ((∀ id ∈ starIds ks, id < 2 ^ 32) →
          ∃ t, ofKeys ks = .ok (.ok t) ∧ t.keys = Key.renumber ks
            ∧ (t.keys = ks ↔ Key.Numbered ks))) := by
  refine ⟨fun fault => ?_, fun e => ofKeys_of_error, fun hcheck => ?_⟩
  · cases hcheck : Key.check ks with
    | error e =>
        rw [ofKeys_of_error hcheck]
        nofun
    | ok =>
        obtain ⟨t, -, -, hof⟩ := ofKeys_checked hcheck
        rw [hof]
        cases ks.findIdx? tooLarge <;> nofun
  · obtain ⟨t, -, hfilled, hof⟩ := ofKeys_checked hcheck
    constructor
    · rintro front id rest rfl hfront hid
      rw [hof, findIdx?_of_first hfront hid]
    · intro hsmall
      rw [findIdx?_tooLarge hsmall] at hof
      have hkeys := keys_of_filled hfilled
      refine ⟨t, hof, hkeys, ?_⟩
      rw [hkeys, Key.renumber_eq_self_iff]

/-- Left to itself the reader runs past the end of a lone lambda, and only the
check keeps it from there. -/
theorem ofKeys_outcome_each :
    readOne [.lam] 0 = .error (.pastEnd 1)
      ∧ ofKeys [.lam] = .error (.truncated 1)
      ∧ ofKeys [.pi, .star 0, .star (2 ^ 32)] = .error (.starOutOfRange 2)
      ∧ ∃ t, ofKeys [.pi, .star 5, .lam, .star 2] = .ok (.ok t)
        ∧ t.keys = [.pi, .star 0, .lam, .star 1]
        ∧ ¬ Key.Numbered [.pi, .star 5, .lam, .star 2] := by
  obtain ⟨-, hshort, -⟩ := ofKeys_outcome [.lam]
  obtain ⟨-, -, hlarge⟩ := ofKeys_outcome [.pi, .star 0, .star (2 ^ 32)]
  obtain ⟨-, -, hread⟩ := ofKeys_outcome [.pi, .star 5, .lam, .star 2]
  refine ⟨?_, hshort _ rfl, ?_, ?_⟩
  · rw [readOne_eq]
    simp only [List.getElem?_cons_zero]
    rw [readOne_eq]
    rfl
  · exact (hlarge rfl).1 [.pi, .star 0] _ [] rfl (by decide) (Nat.le_refl _)
  · obtain ⟨t, hof, hkeys, -⟩ := (hread rfl).2 (by decide)
    exact ⟨t, hof, hkeys, by decide⟩

end Pattern

end TermIndex
