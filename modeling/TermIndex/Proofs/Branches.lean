import TermIndex.Proofs.Entries

/-!
# Finding a branch among ordered branches

Halving keeps one invariant: the place that it looks for lies between `base` and
`base + size` (`lastUpTo_spec`). On branches in increasing order it therefore
ends at the branch of the key, or where that branch belongs. `Located` says so
by splitting the branches at that point, which is the form that lookup and
insertion use.
-/

namespace TermIndex

/-- Halving ends at the last place that is near, if one after `base` is. -/
theorem lastUpTo_spec {near : Nat → Bool}
    (hnear : ∀ i j, i ≤ j → near j = true → near i = true) :
    ∀ (rounds base size : Nat), 0 < size → size ≤ rounds →
      base ≤ lastUpTo near rounds base size
        ∧ lastUpTo near rounds base size < base + size
        ∧ (lastUpTo near rounds base size = base
            ∨ near (lastUpTo near rounds base size) = true)
        ∧ ∀ j, lastUpTo near rounds base size < j → j < base + size →
          near j = false
  | 0, base, size, hpos, hle => by omega
  | rounds + 1, base, size, hpos, hle => by
      unfold lastUpTo
      by_cases hone : size ≤ 1
      · simp only [hone, reduceIte, Nat.le_refl, true_or, true_and]
        exact ⟨by omega, fun j hlo hhi => by omega⟩
      · simp only [hone, reduceIte]
        have hhalf : 0 < size / 2 ∧ size / 2 ≤ size - size / 2 := by omega
        cases hmid : near (base + size / 2) with
        | true =>
            simp only [reduceIte]
            obtain ⟨hlo, hhi, hat, hafter⟩ := lastUpTo_spec hnear rounds
              (base + size / 2) (size - size / 2) (by omega) (by omega)
            refine ⟨by omega, by omega, Or.inr ?_,
              fun j hj hj' => hafter j hj (by omega)⟩
            rcases hat with heq | hnr
            · rw [heq]
              exact hmid
            · exact hnr
        | false =>
            simp only [Bool.false_eq_true, reduceIte]
            obtain ⟨hlo, hhi, hat, hafter⟩ := lastUpTo_spec hnear rounds
              base (size - size / 2) (by omega) (by omega)
            refine ⟨hlo, by omega, hat, fun j hj hj' => ?_⟩
            rcases Nat.lt_or_ge j (base + size / 2) with hlt | hge
            · exact hafter j hj (by omega)
            · cases hnj : near j with
              | false => rfl
              | true =>
                  rw [hnear _ _ hge hnj] at hmid
                  cases hmid

namespace Key

theorem isLE_compare_iff {a k : Key} :
    (compare a k).isLE = true ↔ ¬ k.precedes a = true := by
  have hswap : compare a k = (compare k a).swap := Std.OrientedCmp.eq_swap
  rw [precedes_iff, hswap]
  cases compare k a <;> simp [Ordering.swap, Ordering.isLE]

/-- The test that halving goes by: the key here does not come after `k`. -/
def nearKey (ks : List Key) (k : Key) (i : Nat) : Bool :=
  match ks[i]? with
  | some k' => (compare k' k).isLE
  | none => false

theorem nearKey_eq_true_iff {ks : List Key} {k : Key} {i : Nat} :
    nearKey ks k i = true ↔ ∃ a, ks[i]? = some a ∧ ¬ k.precedes a = true := by
  rw [nearKey]
  cases ks[i]? with
  | none => simp
  | some a => simp [isLE_compare_iff]

theorem precedes_of_lt {ks : List Key} (h : Increasing ks)
    {i j : Nat} {a b : Key}
    (hij : i < j) (ha : ks[i]? = some a) (hb : ks[j]? = some b) :
    a.precedes b = true := by
  obtain ⟨hi, rfl⟩ := List.getElem?_eq_some_iff.mp ha
  obtain ⟨hj, rfl⟩ := List.getElem?_eq_some_iff.mp hb
  exact List.pairwise_iff_getElem.mp h i j hi hj hij

theorem nearKey_mono {ks : List Key} (h : Increasing ks) (k : Key) (i j : Nat)
    (hij : i ≤ j) (hj : nearKey ks k j = true) : nearKey ks k i = true := by
  obtain ⟨b, hb, hkb⟩ := nearKey_eq_true_iff.mp hj
  rcases Nat.lt_or_eq_of_le hij with hlt | rfl
  · have hi : i < ks.length := by
      have := (List.getElem?_eq_some_iff.mp hb).1
      omega
    have ha : ks[i]? = some ks[i] := List.getElem?_eq_getElem hi
    refine nearKey_eq_true_iff.mpr ⟨_, ha, fun hki => ?_⟩
    exact hkb (precedes_trans hki (precedes_of_lt h hlt ha hb))
  · exact hj

/-- Among keys in increasing order, halving finds a key or its place. -/
theorem place_cases {ks : List Key} (h : Increasing ks) (k : Key) :
    (∃ i, place ks k = .found i ∧ ks[i]? = some k)
      ∨ ∃ i, place ks k = .missing i ∧ i ≤ ks.length
          ∧ (∀ j a, j < i → ks[j]? = some a → a.precedes k = true)
          ∧ ∀ j a, i ≤ j → ks[j]? = some a → k.precedes a = true := by
  rcases Nat.eq_zero_or_pos ks.length with hzero | hpos
  · obtain rfl := List.length_eq_zero_iff.mp hzero
    exact Or.inr
      ⟨0, rfl, Nat.le_refl _, fun j a hj => by omega,
        fun j a _ ha => by cases ha⟩
  obtain ⟨-, hhi, hat, hafter⟩ :=
    lastUpTo_spec (nearKey_mono h k) ks.length 0 ks.length hpos (Nat.le_refl _)
  have hplace : place ks k =
      match ks[lastUpTo (nearKey ks k) ks.length 0 ks.length]? with
      | some k' =>
        if k' = k then .found (lastUpTo (nearKey ks k) ks.length 0 ks.length)
        else if k'.precedes k then
          .missing (lastUpTo (nearKey ks k) ks.length 0 ks.length + 1)
        else .missing (lastUpTo (nearKey ks k) ks.length 0 ks.length)
      | none => .missing 0 := rfl
  rw [hplace]
  generalize lastUpTo (nearKey ks k) ks.length 0 ks.length
    = r at hhi hat hafter ⊢
  rw [Nat.zero_add] at hhi
  have hr : ks[r]? = some ks[r] := List.getElem?_eq_getElem hhi
  simp only [hr]
  have hbeyond : ∀ j a, r < j → ks[j]? = some a → k.precedes a = true := by
    intro j a hj ha
    have hjlen := (List.getElem?_eq_some_iff.mp ha).1
    cases hka : k.precedes a with
    | true => rfl
    | false =>
        have hnear : nearKey ks k j = true :=
          nearKey_eq_true_iff.mpr ⟨a, ha, by simp [hka]⟩
        rw [hafter j hj (by omega)] at hnear
        cases hnear
  by_cases heq : ks[r] = k
  · exact Or.inl ⟨r, by rw [if_pos heq], heq ▸ hr⟩
  by_cases hlt : ks[r].precedes k = true
  · refine Or.inr ⟨r + 1, by rw [if_neg heq, if_pos hlt], by omega, ?_, ?_⟩
    · intro j a hj ha
      rcases Nat.lt_or_eq_of_le (Nat.le_of_lt_succ hj) with hjr | rfl
      · exact precedes_trans (precedes_of_lt h hjr ha hr) hlt
      · obtain rfl : ks[j] = a := Option.some.inj (hr.symm.trans ha)
        exact hlt
    · exact fun j a hj ha => hbeyond j a (by omega) ha
  · have hgt : k.precedes ks[r] = true :=
      (precedes_or_precedes heq).resolve_left hlt
    have hzero : r = 0 := hat.resolve_right fun hnear => by
      obtain ⟨a, ha, hka⟩ := nearKey_eq_true_iff.mp hnear
      obtain rfl : ks[r] = a := Option.some.inj (hr.symm.trans ha)
      exact hka hgt
    refine Or.inr
      ⟨r, by rw [if_neg heq, if_neg hlt], by omega, fun j a hj => by omega, ?_⟩
    intro j a hj ha
    rcases Nat.lt_or_eq_of_le hj with hrj | rfl
    · exact hbeyond j a hrj ha
    · obtain rfl : ks[r] = a := Option.some.inj (hr.symm.trans ha)
      exact hgt

end Key

namespace Trie

variable {α : Type}

/-! ## Branches in increasing order -/

theorem branchKeys_pairwise {bs : List (Key × Trie α)} :
    Key.Increasing (branchKeys bs) ↔
      bs.Pairwise fun b c => b.1.precedes c.1 = true :=
  List.pairwise_map

theorem around_of_increasing {k : Key} {t : Trie α}
    {pre post : List (Key × Trie α)}
    (h : Key.Increasing (branchKeys (pre ++ (k, t) :: post))) :
    (∀ b ∈ pre, b.1.precedes k = true) ∧ ∀ b ∈ post, k.precedes b.1 = true := by
  obtain ⟨-, hpost, hacross⟩ :=
    List.pairwise_append.mp (branchKeys_pairwise.mp h)
  exact ⟨fun b hb => hacross b hb (k, t) (List.mem_cons_self ..),
    (List.pairwise_cons.mp hpost).1⟩

theorem ne_of_before {k : Key} {bs : List (Key × Trie α)}
    (h : ∀ b ∈ bs, b.1.precedes k = true) : ∀ b ∈ bs, b.1 ≠ k :=
  fun b hb => Key.ne_of_precedes (h b hb)

theorem ne_of_after {k : Key} {bs : List (Key × Trie α)}
    (h : ∀ b ∈ bs, k.precedes b.1 = true) : ∀ b ∈ bs, b.1 ≠ k :=
  fun b hb => (Key.ne_of_precedes (h b hb)).symm

theorem increasing_insert {k : Key} {t : Trie α}
    {pre post : List (Key × Trie α)}
    (h : Key.Increasing (branchKeys (pre ++ post)))
    (hpre : ∀ b ∈ pre, b.1.precedes k = true)
    (hpost : ∀ b ∈ post, k.precedes b.1 = true) :
    Key.Increasing (branchKeys (pre ++ (k, t) :: post)) := by
  obtain ⟨hbefore, hafter, hacross⟩ :=
    List.pairwise_append.mp (branchKeys_pairwise.mp h)
  refine branchKeys_pairwise.mpr (List.pairwise_append.mpr
    ⟨hbefore, List.pairwise_cons.mpr ⟨hpost, hafter⟩, fun b hb c hc => ?_⟩)
  rcases List.mem_cons.mp hc with rfl | hc
  · exact hpre b hb
  · exact hacross b hb c hc

theorem ne_of_around {k : Key} {pre post : List (Key × Trie α)}
    (hpre : ∀ b ∈ pre, b.1.precedes k = true)
    (hpost : ∀ b ∈ post, k.precedes b.1 = true) : ∀ b ∈ pre ++ post, b.1 ≠ k :=
  List.forall_mem_append.mpr ⟨ne_of_before hpre, ne_of_after hpost⟩

theorem ne_of_mem_branchEntries {bs : List (Key × Trie α)} {k : Key}
    {rest : List Key}
    (hbs : ∀ b ∈ bs, b.1 ≠ k) : ∀ e ∈ branchEntries bs, e.1 ≠ k :: rest := by
  intro e he heq
  obtain ⟨b, hb, d, -, rfl⟩ := mem_branchEntries.mp he
  exact hbs b hb (List.cons.inj heq).1

theorem lookup_of_ne {k : Key} {bs : List (Key × Trie α)}
    (h : ∀ b ∈ bs, b.1 ≠ k) :
    bs.lookup k = none :=
  List.lookup_eq_none_iff.mpr fun b hb => by simpa using (h b hb).symm

theorem lookup_append_self {k : Key} {t : Trie α}
    {pre post : List (Key × Trie α)} (hpre : ∀ b ∈ pre, b.1 ≠ k) :
    (pre ++ (k, t) :: post).lookup k = some t := by
  rw [List.lookup_append, lookup_of_ne hpre]
  simp

/-! ## The place of a key -/

/-- A place among branches: the branch of a key, or the point that it
belongs at. -/
inductive Located (k : Key) : List (Key × Trie α) → Place → Prop
  | found (pre : List (Key × Trie α)) (t : Trie α)
      (post : List (Key × Trie α)) :
      Located k (pre ++ (k, t) :: post) (.found pre.length)
  | missing (pre post : List (Key × Trie α))
      (hpre : ∀ b ∈ pre, b.1.precedes k = true)
      (hpost : ∀ b ∈ post, k.precedes b.1 = true) :
      Located k (pre ++ post) (.missing pre.length)

theorem located_found {k : Key} {bs : List (Key × Trie α)} {i : Nat}
    (h : (branchKeys bs)[i]? = some k) : Located k bs (.found i) := by
  rw [branchKeys, List.getElem?_map, Option.map_eq_some_iff] at h
  obtain ⟨⟨k', t⟩, hget, rfl⟩ := h
  obtain ⟨hi, hbs⟩ := List.getElem?_eq_some_iff.mp hget
  have hsplit : bs.take i ++ (k', t) :: bs.drop (i + 1) = bs := by
    rw [← hbs, ← List.drop_eq_getElem_cons hi, List.take_append_drop]
  have hlen : (bs.take i).length = i := List.length_take_of_le (Nat.le_of_lt hi)
  have hloc : Located k' (bs.take i ++ (k', t) :: bs.drop (i + 1))
      (.found (bs.take i).length) := .found _ _ _
  rwa [hsplit, hlen] at hloc

theorem located_missing {k : Key} {bs : List (Key × Trie α)} {i : Nat}
    (hle : i ≤ bs.length)
    (hpre : ∀ j a, j < i → (branchKeys bs)[j]? = some a → a.precedes k = true)
    (hpost : ∀ j a, i ≤ j → (branchKeys bs)[j]? = some a →
      k.precedes a = true) :
    Located k bs (.missing i) := by
  have hlen : (bs.take i).length = i := List.length_take_of_le hle
  have hget : ∀ {j : Nat} {b : Key × Trie α}, bs[j]? = some b →
      (branchKeys bs)[j]? = some b.1 := fun hb => by
    rw [branchKeys, List.getElem?_map, hb]
    rfl
  have hloc : Located k (bs.take i ++ bs.drop i)
      (.missing (bs.take i).length) := by
    refine .missing _ _ (fun b hb => ?_) fun b hb => ?_
    · obtain ⟨j, hj⟩ := List.mem_iff_getElem?.mp hb
      rw [List.getElem?_take] at hj
      split at hj
      · next hji => exact hpre j b.1 hji (hget hj)
      · cases hj
    · obtain ⟨j, hj⟩ := List.mem_iff_getElem?.mp hb
      rw [List.getElem?_drop] at hj
      exact hpost (i + j) b.1 (by omega) (hget hj)
  rwa [List.take_append_drop, hlen] at hloc

/-- Among branches in increasing order, a key is found, or its place is. -/
theorem place_located {bs : List (Key × Trie α)}
    (h : Key.Increasing (branchKeys bs)) (k : Key) :
    Located k bs (Key.place (branchKeys bs) k) := by
  rcases Key.place_cases h k with ⟨i, hi, hget⟩ | ⟨i, hi, hle, hpre, hpost⟩
  · rw [hi]
    exact located_found hget
  · rw [hi]
    rw [branchKeys, List.length_map] at hle
    exact located_missing hle hpre hpost

theorem branch?_eq_lookup {bs : List (Key × Trie α)}
    (h : Key.Increasing (branchKeys bs)) (k : Key) :
    branch? bs k = bs.lookup k := by
  have hloc := place_located h k
  unfold branch?
  generalize Key.place (branchKeys bs) k = place at hloc ⊢
  cases hloc with
  | found pre t post =>
      rw [lookup_append_self (ne_of_before (around_of_increasing h).1)]
      simp
  | missing pre post hpre hpost =>
      rw [lookup_of_ne (ne_of_around hpre hpost)]

/-- What a key finds among branches in increasing order is its branch. -/
theorem lookup_eq_some_iff {bs : List (Key × Trie α)}
    (h : Key.Increasing (branchKeys bs)) {k : Key} {t : Trie α} :
    bs.lookup k = some t ↔ (k, t) ∈ bs := by
  constructor
  · intro hlookup
    obtain ⟨pre, post, rfl, -⟩ := List.lookup_eq_some_iff.mp hlookup
    exact List.mem_append_right _ (List.mem_cons_self ..)
  · intro hmem
    obtain ⟨pre, post, rfl⟩ := List.append_of_mem hmem
    exact lookup_append_self (ne_of_before (around_of_increasing h).1)

/-- What is gathered at the branches of one key comes from at most
one branch. -/
theorem flatMap_lookup {β : Type} {bs : List (Key × Trie α)}
    (h : Key.Increasing (branchKeys bs)) (k : Key) (gather : Trie α → List β) :
    (bs.flatMap fun b => if b.1 = k then gather b.2 else [])
      = (bs.lookup k).toList.flatMap gather := by
  have hnone : ∀ {cs : List (Key × Trie α)}, (∀ b ∈ cs, b.1 ≠ k) →
      (cs.flatMap fun b => if b.1 = k then gather b.2 else []) = [] := fun hcs =>
    List.flatMap_eq_nil_iff.mpr fun b hb => if_neg (hcs b hb)
  have hloc := place_located h k
  generalize Key.place (branchKeys bs) k = place at hloc
  cases hloc with
  | found pre t post =>
      obtain ⟨hpre, hpost⟩ := around_of_increasing h
      rw [lookup_append_self (ne_of_before hpre), List.flatMap_append,
        List.flatMap_cons, hnone (ne_of_before hpre), hnone (ne_of_after hpost)]
      simp
  | missing pre post hpre hpost =>
      rw [lookup_of_ne (ne_of_around hpre hpost),
        hnone (ne_of_around hpre hpost)]
      rfl

end Trie

end TermIndex
