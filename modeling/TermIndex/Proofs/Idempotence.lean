import TermIndex.Proofs.Canonical
import TermIndex.Proofs.Runs

/-!
# Inserting twice

A value takes the place of the first one equal to it, or goes to the end. Where
equality is an equivalence, the values of a leaf stay pairwise unequal
(`Merged.unequal`), and those of a forest do under every insertion
(`Built.unequal`).

Merging a value twice leaves what merging it once leaves, also where it has taken
the place of another one. A term is inserted under several sequences, some of
them perhaps the same. What is stored under one sequence is merged with the value
some number of times, and any number above zero comes to the same
(`recordAll_again`). Tries are canonical, so what holds under each sequence holds
of the forest (`Built.insertAll_again`).
-/

namespace TermIndex

variable {α : Type} [BEq α]

/-! ## Unequal values -/

/-- No value is equal to a later one. -/
def Unequal (vs : List α) : Prop := vs.Pairwise fun u v => (u == v) = false

theorem Merged.unequal [EquivBEq α] {value : α} {us vs : List α}
    (h : Merged value us vs) (hus : Unequal us) : Unequal vs := by
  cases h with
  | replaced us w ws hne hw =>
      obtain ⟨hfront, hback, hacross⟩ := List.pairwise_append.mp hus
      obtain ⟨hfirst, hws⟩ := List.pairwise_cons.mp hback
      -- The value is unequal to whatever the old one was unequal to.
      have hvalue : ∀ x ∈ ws, (value == x) = false := fun x hx => by
        rw [← BEq.congr_left hw]
        exact hfirst x hx
      refine List.pairwise_append.mpr
        ⟨hfront, List.pairwise_cons.mpr ⟨hvalue, hws⟩, fun u hu x hx => ?_⟩
      rcases List.mem_cons.mp hx with rfl | hx
      · exact hne u hu
      · exact hacross u hu x (List.mem_cons_of_mem _ hx)
  | appended us hne =>
      refine List.pairwise_append.mpr
        ⟨hus, List.pairwise_singleton _ _, fun u hu x hx => ?_⟩
      obtain rfl := List.mem_singleton.mp hx
      exact hne u hu

theorem Put.unequal [EquivBEq α] {keys : List Key} {value : α}
    {es es' : List (List Key × List α)} (h : Put keys value es es')
    (hes : ∀ e ∈ es, Unequal e.2) : ∀ e ∈ es', Unequal e.2 := by
  cases h with
  | added pre post _ _ =>
      obtain ⟨hpre, hpost⟩ := List.forall_mem_append.mp hes
      exact List.forall_mem_append.mpr ⟨hpre, List.forall_mem_cons.mpr
        ⟨List.pairwise_singleton _ _, hpost⟩⟩
  | merged pre post hmerged =>
      obtain ⟨hpre, hrest⟩ := List.forall_mem_append.mp hes
      obtain ⟨hus, hpost⟩ := List.forall_mem_cons.mp hrest
      exact List.forall_mem_append.mpr ⟨hpre, List.forall_mem_cons.mpr
        ⟨hmerged.unequal hus, hpost⟩⟩

theorem Forest.Built.unequal [EquivBEq α] {f : Forest α} (h : f.Built) :
    ∀ e ∈ f.entries, Unequal e.2 := by
  induction h with
  | empty => exact List.forall_mem_nil _
  | insert hf hkeys hinsert ih =>
      exact (hf.shaped.of_insert hkeys hinsert).2.unequal ih

/-! ## Merging again -/

theorem Trie.mergeValue_mergeValue [ReflBEq α] (value : α) (vs : List α) :
    mergeValue value (mergeValue value vs) = mergeValue value vs := by
  induction vs with
  | nil => simp [mergeValue]
  | cons v vs ih =>
      cases hv : v == value with
      | true => simp [mergeValue, hv]
      | false => simp [mergeValue, hv, ih]

namespace Forest

/-- Nothing changes where the value has been merged before. -/
theorem recordAll_merged [ReflBEq α] {value : α} {vs us : List α}
    (hus : ∀ u ∈ us, u = value) :
    recordAll (some (Trie.mergeValue value vs)) us
      = some (Trie.mergeValue value vs) := by
  induction us with
  | nil => rfl
  | cons u us ih =>
      obtain ⟨rfl, hrest⟩ := List.forall_mem_cons.mp hus
      have hmerge := congrArg some (Trie.mergeValue_mergeValue u vs)
      exact (congrArg (recordAll · us) hmerge).trans (ih hrest)

theorem recordAll_again [ReflBEq α] {value : α} {us : List α}
    (hus : ∀ u ∈ us, u = value) (stored : Option (List α)) :
    recordAll (recordAll stored us) us = recordAll stored us := by
  cases us with
  | nil => rfl
  | cons u us =>
      obtain ⟨rfl, hrest⟩ := List.forall_mem_cons.mp hus
      have hfirst : recordAll stored (u :: us)
          = some (Trie.mergeValue u (stored.getD [])) :=
        recordAll_merged hrest
      rw [hfirst]
      exact recordAll_merged hus

/-- A history of one value, a second time. -/
theorem Built.insertAll_again [ReflBEq α] {f : Forest α} (hf : f.Built)
    {history : List (List Key × α)} (hhistory : Accepted history) {value : α}
    (hvalue : ∀ e ∈ history, e.2 = value) :
    ∃ f', f.insertAll history = .ok f' ∧ f'.insertAll history = .ok f' := by
  obtain ⟨f', hfirst, hf', hlookup⟩ := hf.insertAll hhistory
  obtain ⟨g, hsecond, hg, hagain⟩ := hf'.insertAll hhistory
  have hsame : ∀ ks, g.entries.lookup ks = f'.entries.lookup ks := fun ks => by
    have hus : ∀ u ∈ valuesUnder ks history, u = value := fun u hu => by
      obtain ⟨e, he, rfl⟩ := List.mem_map.mp hu
      exact hvalue e (List.mem_of_mem_filter he)
    rw [hagain, hlookup, recordAll_again hus]
  have hentries := Trie.eq_of_lookup_eq hg.shaped.entries_ordered
    hf'.shaped.entries_ordered hsame
  obtain rfl := hg.shaped.eq_of_entries_eq hf'.shaped hentries
  exact ⟨g, hfirst, hsecond⟩

/-- The history that inserts a value under some patterns. -/
def storing (ps : List Pattern) (value : α) : List (List Key × α) :=
  ps.map fun p => (p.keys, value)

omit [BEq α] in
theorem accepted_storing (ps : List Pattern) (value : α) :
    Accepted (storing ps value) :=
  List.forall_mem_map.mpr fun p _ => p.check_keys

end Forest

/-! ## Values that are equal and not the same -/

/-- A value with a note, which equality does not look at. -/
structure Noted where
  number : Nat
  note : String

instance : BEq Noted := ⟨fun u v => u.number == v.number⟩

theorem Noted.beq_iff {u v : Noted} : (u == v) = true ↔ u.number = v.number :=
  (beq_iff_eq : (u.number == v.number) = true ↔ _)

instance : EquivBEq Noted where
  rfl := Noted.beq_iff.mpr rfl
  symm h := Noted.beq_iff.mpr (Noted.beq_iff.mp h).symm
  trans h h' :=
    Noted.beq_iff.mpr ((Noted.beq_iff.mp h).trans (Noted.beq_iff.mp h'))

/-- Reduces an application to one metavariable, and a constant to a lambda over
another. -/
def Host.collapsing : Host where
  reduce _ t := match t with
    | .app _ _ => some (.term (.mvar ⟨0⟩))
    | .const _ => some (.term (.lam ⟨"y"⟩ .default (.sort 1) (.mvar ⟨1⟩)))
    | t => some (.term t)
  irrelevant _ _ _ := false
  fuel := 9

/-- Two values under `λ *`, the first of them as given, and one beside. -/
def Index.holding (first : Noted) : Index Noted where
  forest := .ofList [(.lam, .node [(.star 0, .leaf [first, ⟨2, "other"⟩]),
    (.sort, .leaf [⟨1, "beside"⟩])])]
  settings := .standard
  rules := []

/-! ## Terms -/

namespace Index

/-- Inserting under patterns is a history of the forest. -/
theorem insertPatterns_eq (ix : Index α) (ps : List Pattern) (value : α) :
    ps.foldlM (fun ix p => ix.insertPattern p value) ix
      = (ix.forest.insertAll (Forest.storing ps value)).map
        fun f => { ix with forest := f } := by
  induction ps generalizing ix with
  | nil => rfl
  | cons p ps ih =>
      rw [List.foldlM_cons, Forest.storing, List.map_cons, Forest.insertAll,
        List.foldlM_cons, insertPattern]
      cases ix.forest.insert p.keys value with
      | error e => rfl
      | ok f => exact ih { ix with forest := f }

theorem insert_eq {ix : Index α} {host : Host} {t : Term} {ps : List Pattern}
    (h : ix.encodings host t = .ok ps) (value : α) :
    ix.insert host t value
      = (ix.forest.insertAll (Forest.storing ps value)).map
        fun f => { ix with forest := f } := by
  rw [insert, h, ← insertPatterns_eq]
  rfl

/-- **Insertion is idempotent, and keeps values unequal.** In every index that
insertions lead to, the values under a sequence are pairwise unequal. Inserting
a term with a value a second time changes nothing, however many encodings the
term has and whatever the value took the place of. The only fault is that
encoding the term is given up. -/
theorem insert_idempotent [EquivBEq α] (settings : Settings)
    (rules : List Conversion) (ops : List (Insertion α)) {ix : Index α}
    (hrun : ((empty settings).withRules rules).run ops = .ok ix) :
    (∀ e ∈ ix.entries, e.2.Pairwise fun u v => (u == v) = false)
    ∧ ∀ host t value,
      (∃ ix', ix.insert host t value = .ok ix'
        ∧ ix'.insert host t value = .ok ix')
      ∨ ix.encodings host t = .error .unfinished := by
  obtain ⟨f, hf, rfl⟩ := grown_of_run hrun
  refine ⟨hf.unequal, fun host t value => ?_⟩
  rcases encodings_cases _ host t with ⟨ps, hps⟩ | hnone
  · have hvalue : ∀ e ∈ Forest.storing ps value, e.2 = value :=
      List.forall_mem_map.mpr fun _ _ => rfl
    obtain ⟨f', hfirst, hsecond⟩ :=
      hf.insertAll_again (Forest.accepted_storing ps value) hvalue
    refine Or.inl ⟨⟨f', settings, rules⟩, ?_, ?_⟩
    · rw [insert_eq hps, hfirst]
      rfl
    · -- What is encoded does not depend on what is stored.
      have hps' : (⟨f', settings, rules⟩ : Index α).encodings host t = .ok ps :=
        hps
      rw [insert_eq hps', hsecond]
      rfl
  · exact Or.inr hnone

/-- The encodings of `fun x => h x`, the direct one and that of `h`, are both
stored as `λ *`. An equal value stands there with another note. -/
theorem insert_idempotent_replaced :
    ∃ (t : Term) (ps : List Pattern),
      t = .lam ⟨"x"⟩ .default (.sort 1) (.app (.const ⟨"h"⟩) (.bvar 0))
      ∧ ((empty .standard).withRules []).run [
          .keys [.lam, .star 0] ⟨1, "old"⟩, .keys [.lam, .sort] ⟨1, "beside"⟩,
          .keys [.lam, .star 0] ⟨2, "other"⟩] = .ok (holding ⟨1, "old"⟩)
      ∧ (∀ e ∈ (holding ⟨1, "old"⟩).entries,
        e.2.Pairwise fun u v => (u == v) = false)
      ∧ (holding ⟨1, "old"⟩).encodings .collapsing t = .ok ps
      ∧ ps.map Pattern.keys = [[.lam, .star 0], [.lam, .star 0]]
      ∧ (holding ⟨1, "old"⟩).insert .collapsing t ⟨1, "new"⟩
        = .ok (holding ⟨1, "new"⟩)
      ∧ (holding ⟨1, "new"⟩).insert .collapsing t ⟨1, "new"⟩
        = .ok (holding ⟨1, "new"⟩) := by
  have hrun : ((empty .standard).withRules []).run [
      .keys [.lam, .star 0] ⟨1, "old"⟩, .keys [.lam, .sort] ⟨1, "beside"⟩,
      .keys [.lam, .star 0] ⟨2, "other"⟩] = .ok (holding ⟨1, "old"⟩) := rfl
  have hfirst : (holding ⟨1, "old"⟩).insert .collapsing
      (.lam ⟨"x"⟩ .default (.sort 1) (.app (.const ⟨"h"⟩) (.bvar 0)))
      ⟨1, "new"⟩ = .ok (holding ⟨1, "new"⟩) := rfl
  obtain ⟨hunequal, hagain⟩ := insert_idempotent .standard [] _ hrun
  rcases hagain _ _ _ with ⟨ix', hinsert, hsecond⟩ | hnone
  · obtain rfl := Except.ok.inj (hfirst.symm.trans hinsert)
    exact ⟨_, _, rfl, hrun, hunequal, rfl, rfl, hfirst, hsecond⟩
  · cases hnone

end Index

end TermIndex
