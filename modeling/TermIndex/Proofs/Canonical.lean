import TermIndex.Proofs.FiniteMap

/-!
# Tries are canonical

Two shaped tries with the same entries are the same trie. A path is the longest
common beginning of its entries, because what stands below a path holds either
the empty sequence or two sequences that begin differently
(`Shaped.not_leads`). So paths with the same entries have the same keys
(`path_unique`), and branches with the same entries have the same keys and the
same entries below each (`branches_unique`).

With the entries, the forest itself is determined by the values that were
inserted under each sequence, in whatever order the sequences took turns
(`Built.insertAll`).
-/

namespace TermIndex

variable {α : Type}

namespace Trie

/-! ## Where entries begin -/

/-- All the sequences begin with this key. -/
def Leads (k : Key) (es : List (List Key × List α)) : Prop :=
  ∀ e ∈ es, ∃ rest, e.1 = k :: rest

theorem leads_under (k : Key) (ks : List Key) (es : List (List Key × List α)) :
    Leads k (es.map (under (k :: ks))) := by
  intro e he
  obtain ⟨d, -, rfl⟩ := List.mem_map.mp he
  exact ⟨ks ++ d.1, rfl⟩

theorem map_under_injective (ks : List Key) :
    Function.Injective (List.map (@under α ks)) :=
  List.map_injective_iff.mpr (under_injective ks)

/-- Only a leaf holds the empty sequence. -/
theorem Shaped.eq_leaf {n : Nat} {t : Trie α} (h : Shaped n t) {vs : List α}
    (hmem : ([], vs) ∈ t.entries) : t = .leaf vs := by
  cases h with
  | leaf _ =>
      obtain ⟨-, rfl⟩ := Prod.mk.inj (List.mem_singleton.mp hmem)
      rfl
  | path hkeys _ _ _ =>
      rw [entries_path] at hmem
      obtain ⟨d, -, hd⟩ := List.mem_map.mp hmem
      exact (hkeys (List.append_eq_nil_iff.mp (Prod.mk.inj hd).1).1).elim
  | node _ _ _ =>
      rw [entries_node] at hmem
      obtain ⟨b, -, d, -, hd⟩ := mem_branchEntries.mp hmem
      cases (Prod.mk.inj hd).1

/-- Only the entries of a path all begin with one key. -/
theorem Shaped.not_leads {n : Nat} {t : Trie α} (h : Shaped n t)
    (hpath : t.isPath = false) (k : Key) : ¬ Leads k t.entries := by
  intro hleads
  cases h with
  | leaf _ =>
      obtain ⟨rest, hrest⟩ := hleads _ (List.mem_singleton.mpr rfl)
      cases hrest
  | path _ _ _ _ => cases hpath
  | @node n bs hlength hincreasing hshaped =>
      have hkey : ∀ b ∈ bs, b.1 = k := fun b hb => by
        obtain ⟨d, hd⟩ :=
          List.exists_mem_of_ne_nil _ (hshaped b hb).entries_ne_nil
        rw [entries_node] at hleads
        obtain ⟨rest, hrest⟩ :=
          hleads _ (mem_branchEntries.mpr ⟨b, hb, d, hd, rfl⟩)
        exact (List.cons.inj hrest).1
      -- The keys of two branches differ, so they are not both `k`.
      match bs, hlength with
      | b :: c :: bs, _ =>
          have hbc := (Key.increasing_cons_cons_iff.mp hincreasing).1
          refine Key.ne_of_precedes hbc ?_
          rw [hkey b (by simp), hkey c (by simp)]

/-! ## Paths -/

/-- What is not a path has a single way to stand below keys. -/
theorem path_unique {n m : Nat} {t u : Trie α} (ht : Shaped n t)
    (hu : Shaped m u) (htpath : t.isPath = false) (hupath : u.isPath = false) :
    ∀ {ks ls : List Key},
      t.entries.map (under ks) = u.entries.map (under ls) →
        ks = ls ∧ t.entries = u.entries
  | [], [], h => by
      rw [map_under_nil, map_under_nil] at h
      exact ⟨rfl, h⟩
  | [], l :: ls, h => by
      rw [map_under_nil] at h
      exact (ht.not_leads htpath l (h ▸ leads_under l ls u.entries)).elim
  | k :: ks, [], h => by
      rw [map_under_nil] at h
      exact (hu.not_leads hupath k (h ▸ leads_under k ks t.entries)).elim
  | k :: ks, l :: ls, h => by
      obtain ⟨d, hd⟩ := List.exists_mem_of_ne_nil _ ht.entries_ne_nil
      have hmem : under (k :: ks) d ∈ u.entries.map (under (l :: ls)) :=
        h ▸ List.mem_map_of_mem hd
      obtain ⟨rest, hrest⟩ := leads_under l ls u.entries _ hmem
      obtain rfl : k = l := (List.cons.inj hrest).1
      rw [← List.singleton_append, ← List.singleton_append (l := ls),
        ← map_under_under, ← map_under_under] at h
      obtain ⟨rfl, hentries⟩ := path_unique ht hu htpath hupath
        (map_under_injective [k] h)
      exact ⟨rfl, hentries⟩

/-! ## Branches -/

/-- A list splits in one way into a part where `P` holds and one
where it fails. -/
theorem append_unique {β : Type} {P : β → Prop} {xs xs' ys ys' : List β}
    (hxs : ∀ x ∈ xs, P x) (hxs' : ∀ x ∈ xs', P x) (hys : ∀ y ∈ ys, ¬ P y)
    (hys' : ∀ y ∈ ys', ¬ P y) (h : xs ++ ys = xs' ++ ys') :
    xs = xs' ∧ ys = ys' := by
  induction xs generalizing xs' with
  | nil =>
      cases xs' with
      | nil => exact ⟨rfl, h⟩
      | cons x' xs' =>
          rw [List.nil_append] at h
          subst h
          exact (hys x' (by simp) (hxs' x' (by simp))).elim
  | cons x xs ih =>
      cases xs' with
      | nil =>
          rw [List.nil_append] at h
          subst h
          exact (hys' x (by simp) (hxs x (by simp))).elim
      | cons x' xs' =>
          obtain ⟨rfl, happ⟩ := List.cons.inj h
          obtain ⟨rfl, hrest⟩ := ih (List.forall_mem_cons.mp hxs).2
            (List.forall_mem_cons.mp hxs').2 happ
          exact ⟨rfl, hrest⟩

theorem branchEntries_ne_nil {n : Nat} {b : Key × Trie α}
    {bs : List (Key × Trie α)}
    (h : ShapedAll n (b :: bs)) : branchEntries (b :: bs) ≠ [] := by
  obtain ⟨d, hd⟩ :=
    List.exists_mem_of_ne_nil _ (h b (List.mem_cons_self ..)).entries_ne_nil
  exact List.ne_nil_of_mem
    (mem_branchEntries.mpr ⟨b, List.mem_cons_self .., d, hd, rfl⟩)

/-- Branches are determined by their entries, if the tries below them are. -/
theorem branches_unique {n m : Nat} : ∀ {bs cs : List (Key × Trie α)},
    Key.Increasing (branchKeys bs) → Key.Increasing (branchKeys cs) →
    ShapedAll n bs → ShapedAll m cs →
    (∀ b ∈ bs, ∀ {j : Nat} {u : Trie α}, Shaped j u →
      b.2.entries = u.entries → b.2 = u) →
    branchEntries bs = branchEntries cs → bs = cs
  | [], [], _, _, _, _, _, _ => rfl
  | [], c :: cs, _, _, _, hcs, _, h => (branchEntries_ne_nil hcs h.symm).elim
  | b :: bs, [], _, _, hbs, _, _, h => (branchEntries_ne_nil hbs h).elim
  | (k, t) :: bs, (l, u) :: cs, hkb, hkc, hbs, hcs, hunique, h => by
      obtain ⟨hkfirst, hkb'⟩ :=
        List.pairwise_cons.mp (branchKeys_pairwise.mp hkb)
      obtain ⟨hlfirst, hkc'⟩ :=
        List.pairwise_cons.mp (branchKeys_pairwise.mp hkc)
      obtain ⟨ht, hbs'⟩ := List.forall_mem_cons.mp hbs
      obtain ⟨hu, hcs'⟩ := List.forall_mem_cons.mp hcs
      rw [branchEntries_cons, branchEntries_cons] at h
      obtain ⟨d, ds, hd⟩ := List.exists_cons_of_ne_nil ht.entries_ne_nil
      obtain ⟨e, es, he⟩ := List.exists_cons_of_ne_nil hu.entries_ne_nil
      obtain rfl : k = l := by
        have hhead := congrArg List.head? h
        simp only [hd, he, List.map_cons, List.cons_append, List.head?_cons,
          Option.some.injEq] at hhead
        exact (List.cons.inj (Prod.mk.inj hhead).1).1
      have hrest : ∀ {ds : List (Key × Trie α)},
          (∀ b ∈ ds, k.precedes b.1 = true) →
          ∀ e ∈ branchEntries ds, ¬ ∃ rest, e.1 = k :: rest := by
        rintro ds hds e he ⟨rest, heq⟩
        exact ne_of_mem_branchEntries (ne_of_after hds) e he heq
      obtain ⟨hfirst, hothers⟩ :=
        append_unique (leads_under k [] _) (leads_under k [] _)
        (hrest hkfirst) (hrest hlfirst) h
      obtain rfl : t = u :=
        hunique (k, t) (List.mem_cons_self ..) hu
          (map_under_injective [k] hfirst)
      rw [branches_unique (branchKeys_pairwise.mpr hkb')
        (branchKeys_pairwise.mpr hkc') hbs' hcs'
        (fun b hb => hunique b (List.mem_cons_of_mem _ hb)) hothers]

/-! ## The trie -/

/-- A shaped trie is determined by its entries. -/
theorem Shaped.eq_of_entries_eq {n : Nat} {t : Trie α} (ht : Shaped n t) :
    ∀ {m : Nat} {u : Trie α}, Shaped m u → t.entries = u.entries → t = u := by
  induction ht with
  | leaf _ =>
      intro m u hu h
      exact (hu.eq_leaf (h ▸ List.mem_singleton.mpr rfl)).symm
  | @path n j ks t hks hpath hspend hshaped ih =>
      intro m u hu h
      cases hu with
      | leaf _ =>
          exact (Shaped.path hks hpath hspend hshaped).eq_leaf
            (h ▸ List.mem_singleton.mpr rfl)
      | @path _ _ ls u hls hupath hlspend hu =>
          rw [entries_path, entries_path] at h
          obtain ⟨rfl, hentries⟩ := path_unique hshaped hu hpath hupath h
          rw [ih hu hentries]
      | node hlength hincreasing hall =>
          rw [entries_path, ← map_under_nil (Trie.node _).entries] at h
          have hnode := Shaped.node hlength hincreasing hall
          exact (hks (path_unique hshaped hnode hpath rfl h).1).elim
  | @node n bs hlength hincreasing hall ih =>
      intro m u hu h
      cases hu with
      | leaf _ =>
          exact (Shaped.node hlength hincreasing hall).eq_leaf
            (h ▸ List.mem_singleton.mpr rfl)
      | @path _ _ ls u hls hupath hlspend hu =>
          rw [entries_path, ← map_under_nil (Trie.node _).entries] at h
          have hnode := Shaped.node hlength hincreasing hall
          exact (hls (path_unique hnode hu rfl hupath h).1.symm).elim
      | node _ hincreasing' hall' =>
          rw [entries_node, entries_node] at h
          rw [branches_unique hincreasing hincreasing' hall hall' ih h]

end Trie

namespace Forest

theorem Shaped.eq_of_entries_eq {f g : Forest α} (hf : f.Shaped) (hg : g.Shaped)
    (h : f.entries = g.entries) : f = g := by
  rw [entries_eq, entries_eq] at h
  have hbranches : f.branches = g.branches :=
    Trie.branches_unique f.increasing g.increasing hf hg
      (fun b hb _ _ => (hf b hb).eq_of_entries_eq) h
  cases f
  cases g
  cases hbranches
  rfl

/-! ## Histories of insertions -/

variable [BEq α]

/-- The forest after some insertions in order. -/
def insertAll (f : Forest α) (history : List (List Key × α)) :
    Except Fault (Forest α) :=
  history.foldlM (fun f e => f.insert e.1 e.2) f

def Accepted (history : List (List Key × α)) : Prop :=
  ∀ e ∈ history, Key.check e.1 = .ok ()

/-- The values that a history inserts under one sequence, in order. -/
def valuesUnder (ks : List Key) (history : List (List Key × α)) : List α :=
  (history.filter fun e => e.1 = ks).map Prod.snd

omit [BEq α] in
@[simp] theorem valuesUnder_cons (ks : List Key) (e : List Key × α)
    (history : List (List Key × α)) :
    valuesUnder ks (e :: history)
      = if e.1 = ks then e.2 :: valuesUnder ks history
        else valuesUnder ks history := by
  by_cases hks : e.1 = ks
  · simp [valuesUnder, hks]
  · simp [valuesUnder, hks]

/-- What is stored under one sequence after more values are inserted there. -/
def recordAll (stored : Option (List α)) (values : List α) : Option (List α) :=
  values.foldl
    (fun stored v => some (Trie.mergeValue v (stored.getD []))) stored

/-- Under each sequence, a history leaves what its own values make
of the old ones. -/
theorem Built.insertAll {f : Forest α} (hf : f.Built)
    {history : List (List Key × α)} (hhistory : Accepted history) :
    ∃ f', f.insertAll history = .ok f' ∧ f'.Built
      ∧ ∀ ks, f'.entries.lookup ks
        = recordAll (f.entries.lookup ks) (valuesUnder ks history) := by
  induction history generalizing f with
  | nil => exact ⟨f, rfl, hf, fun ks => rfl⟩
  | cons e history ih =>
      obtain ⟨hkeys, hrest⟩ := List.forall_mem_cons.mp hhistory
      obtain ⟨f₁, hinsert, -, hput⟩ := hf.shaped.insert_checked hkeys e.2
      obtain ⟨f', hinsertAll, hf', hlookup⟩ :=
        ih (hf.insert hkeys hinsert) hrest
      refine ⟨f', ?_, hf', fun ks => ?_⟩
      · rw [Forest.insertAll, List.foldlM_cons, hinsert]
        exact hinsertAll
      · rw [hlookup ks, lookup_put hput hf.shaped.entries_ordered ks]
        by_cases hks : ks = e.1
        · simp [hks, recordAll]
        · simp [hks, Ne.symm hks]

/-- **Tries are canonical.** Forests that pass the check are determined by their
entries. So a forest does not depend on the order in which sequences took turns,
only on the values that each sequence got. -/
theorem canonical :
    (∀ f g : Forest α, f.check = .ok () → g.check = .ok () →
      f.entries = g.entries → f = g)
      ∧ ∀ history history' : List (List Key × α),
        Accepted history → Accepted history' →
        (∀ ks, valuesUnder ks history = valuesUnder ks history') →
          ∃ f : Forest α, empty.insertAll history = .ok f
            ∧ empty.insertAll history' = .ok f := by
  refine ⟨fun f g hf hg => ?_, fun history history' h h' hvalues => ?_⟩
  · exact (check_eq_ok_iff.mp hf).eq_of_entries_eq (check_eq_ok_iff.mp hg)
  · obtain ⟨f, hf, hbuilt, hlookup⟩ := Built.empty.insertAll h
    obtain ⟨g, hg, hbuilt', hlookup'⟩ := Built.empty.insertAll h'
    have hentries : f.entries = g.entries :=
      Trie.eq_of_lookup_eq hbuilt.shaped.entries_ordered
        hbuilt'.shaped.entries_ordered
        fun ks => by rw [hlookup, hlookup', hvalues]
    obtain rfl := hbuilt.shaped.eq_of_entries_eq hbuilt'.shaped hentries
    exact ⟨f, hf, hg⟩

/-- Two sequences with a common beginning, inserted in two orders. -/
theorem canonical_two_orders :
    ∃ f g : Forest Nat,
      empty.insertAll [([.lam, .sort], 1), ([.lam, .hidden], 2),
        ([.lam, .sort], 3)] = .ok f
      ∧ empty.insertAll [([.lam, .hidden], 2), ([.lam, .sort], 1),
        ([.lam, .sort], 3)] = .ok g
      ∧ f.check = .ok () ∧ g.check = .ok () ∧ f.entries = g.entries
        ∧ f = g := by
  obtain ⟨f, hf, hg⟩ := (canonical (α := Nat)).2
    [([.lam, .sort], 1), ([.lam, .hidden], 2), ([.lam, .sort], 3)]
    [([.lam, .hidden], 2), ([.lam, .sort], 1), ([.lam, .sort], 3)]
    (by simp only [Accepted]; decide) (by simp only [Accepted]; decide)
    (fun ks => by
      by_cases hks : [Key.lam, Key.hidden] = ks
      · simp [← hks]
      · simp [hks])
  have hcheck : f.check = .ok () := by
    cases hf
    rfl
  exact ⟨f, f, hf, hg, hcheck, hcheck, rfl, canonical.1 f f hcheck hcheck rfl⟩

end Forest

end TermIndex
