import TermIndex.Proofs.Positions

/-!
# Positions that keys lead to

Keys lead from the root of a forest to a position, one child at a time
(`Position.Leads`). In a forest of the right shape every position on the way is of
the right shape for what the keys still owe (`Leads.shaped`), so it is either a
leaf or some branches in increasing order, and its views agree: the child of one
key and the children of stars are picked from the children, and the first key of
a sequence stored below says which child the rest is stored below.

Along a whole walk, the sequences stored below are what is stored behind the
walked keys (`Leads.mem_sequences_iff`).
-/

namespace TermIndex

variable {α : Type}

namespace Position

/-- The sequences of keys that are stored below a position. Below a leaf this is
only the sequence without keys. -/
def sequences (p : Position α) : List (List Key) := p.entries.map Prod.fst

/-- The keys lead from one position to another, each to a child. -/
inductive Leads : Position α → List Key → Position α → Prop
  | here (p : Position α) : Leads p [] p
  | child {p q r : Position α} {k : Key} {ks : List Key}
      (hq : (k, q) ∈ p.children) (h : Leads q ks r) : Leads p (k :: ks) r

variable {n : Nat} {p q r : Position α} {k : Key} {ks rest : List Key}
  {bs : List (Key × Trie α)}

theorem mem_sequences : ks ∈ p.sequences ↔ ∃ vs, (ks, vs) ∈ p.entries := by
  simp [sequences]

/-! ## The views of some branches -/

namespace Branching

theorem mem_children_iff (h : Branching n p bs) :
    (k, q) ∈ p.children ↔ ∃ t, (k, t) ∈ bs ∧ q = .inside t := by
  rw [h.children, List.mem_map]
  constructor
  · rintro ⟨b, hb, heq⟩
    cases heq
    exact ⟨b.2, hb, rfl⟩
  · rintro ⟨t, ht, rfl⟩
    exact ⟨(k, t), ht, rfl⟩

theorem increasing_children (h : Branching n p bs) :
    Key.Increasing (p.children.map Prod.fst) := by
  rw [h.children, List.map_map]
  exact h.increasing

theorem child?_eq_some_iff (h : Branching n p bs) :
    p.child? k = some q ↔ (k, q) ∈ p.children := by
  rw [h.child?, Option.map_eq_some_iff, h.mem_children_iff]
  refine exists_congr fun t => ?_
  rw [Trie.lookup_eq_some_iff h.increasing, eq_comm (a := q)]

theorem starChildren_eq (h : Branching n p bs) :
    p.starChildren
      = p.children.filterMap fun c => c.1.starId?.map fun id => (id, c.2) := by
  rw [h.starChildren, h.children, List.filterMap_map]
  rfl

theorem cons_mem_sequences_iff (h : Branching n p bs) :
    k :: rest ∈ p.sequences ↔
      ∃ q, (k, q) ∈ p.children ∧ rest ∈ q.sequences := by
  rw [mem_sequences, h.entries]
  constructor
  · rintro ⟨vs, hvs⟩
    obtain ⟨⟨c, t⟩, hb, d, hd, heq⟩ := Trie.mem_branchEntries.mp hvs
    cases heq
    exact ⟨.inside t, h.mem_children_iff.mpr ⟨t, hb, rfl⟩,
      mem_sequences.mpr ⟨d.2, hd⟩⟩
  · rintro ⟨q, hq, hrest⟩
    obtain ⟨t, ht, rfl⟩ := h.mem_children_iff.mp hq
    obtain ⟨vs, hvs⟩ := mem_sequences.mp hrest
    exact ⟨vs, Trie.mem_branchEntries.mpr ⟨(k, t), ht, _, hvs, rfl⟩⟩

theorem nil_notMem_sequences (h : Branching n p bs) : [] ∉ p.sequences := by
  rw [mem_sequences, h.entries]
  rintro ⟨vs, hvs⟩
  obtain ⟨b, -, d, -, heq⟩ := Trie.mem_branchEntries.mp hvs
  cases heq

end Branching

/-! ## Walking from child to child -/

/-- A child is at a place of the right shape, where its key was paid for. -/
theorem Shaped.child (h : p.Shaped n) (hq : (k, q) ∈ p.children) :
    ∃ j, n = j + 1 ∧ q.Shaped (j + k.arity) := by
  cases n with
  | zero =>
      obtain ⟨vs, rfl⟩ := h.eq_leaf
      cases hq
  | succ j =>
      obtain ⟨bs, hbs⟩ := h.branching
      obtain ⟨t, ht, rfl⟩ := hbs.mem_children_iff.mp hq
      exact ⟨j, rfl, hbs.shaped (k, t) ht⟩

theorem Shaped.child_unique (h : p.Shaped n) (hq : (k, q) ∈ p.children)
    (hr : (k, r) ∈ p.children) : q = r := by
  obtain ⟨j, rfl, -⟩ := h.child hq
  obtain ⟨bs, hbs⟩ := h.branching
  rw [← hbs.child?_eq_some_iff] at hq hr
  exact Option.some.inj (hq.symm.trans hr)

/-- Nothing ends where a subtree is owed. -/
theorem Shaped.values?_eq_none (h : p.Shaped (n + 1)) : p.values? = none := by
  cases p with
  | root f => rfl
  | inside t =>
      cases h with
      | path _ _ _ _ => rfl
      | node _ _ _ => rfl

/-- The shape invariants hold wherever keys lead. -/
theorem Leads.shaped (h : p.Leads ks q) (hp : p.Shaped n) :
    ∃ m, Key.spendAll n ks = .ok m ∧ q.Shaped m := by
  induction h generalizing n with
  | here p => exact ⟨n, rfl, hp⟩
  | child hq _ ih =>
      obtain ⟨j, rfl, hchild⟩ := hp.child hq
      obtain ⟨m, hspend, hm⟩ := ih hchild
      exact ⟨m, Key.spendAll_cons_eq_ok.mpr ⟨j, rfl, hspend⟩, hm⟩

/-- Keys lead to one position at most. -/
theorem Leads.unique (h : p.Leads ks q) (h' : p.Leads ks r) (hp : p.Shaped n) :
    q = r := by
  induction h generalizing n with
  | here p =>
      cases h'
      rfl
  | child hq _ ih =>
      cases h' with
      | child hq' h' =>
          obtain ⟨j, rfl, hchild⟩ := hp.child hq
          obtain rfl := hp.child_unique hq hq'
          exact ih h' hchild

/-- What is stored below a position is what is stored behind the keys that lead
there. -/
theorem Leads.mem_sequences_iff (h : p.Leads ks q) (hp : p.Shaped n) :
    rest ∈ q.sequences ↔ ks ++ rest ∈ p.sequences := by
  induction h generalizing n with
  | here p => exact Iff.rfl
  | @child p q r k ks hq _ ih =>
      obtain ⟨j, rfl, hchild⟩ := hp.child hq
      obtain ⟨bs, hbs⟩ := hp.branching
      rw [ih hchild, List.cons_append, hbs.cons_mem_sequences_iff]
      constructor
      · exact fun hrest => ⟨q, hq, hrest⟩
      · rintro ⟨q', hq', hrest⟩
        rwa [hp.child_unique hq hq']

end Position

namespace Forest

variable {f : Forest α} {walked : List Key} {p : Position α}

theorem shaped_root (hf : f.check = .ok ()) : (Position.root f).Shaped 1 :=
  ⟨rfl, check_eq_ok_iff.mp hf⟩

/-- **The views of a position agree.** Wherever keys lead in a forest that passes
the check, the children are in increasing order of their keys; the view by a key
gives the child of this key, if there is one; the view by stars gives the children
of stars, in their order. A sequence is stored below the position if its first key
leads to a child below which its rest is stored. A leaf has no children, and it is
where the sequence without keys is stored. -/
theorem views_agree (hf : f.check = .ok ())
    (hp : (Position.root f).Leads walked p) :
    p.fault? = none
    ∧ Key.Increasing (p.children.map Prod.fst)
    ∧ (∀ k q, p.child? k = some q ↔ (k, q) ∈ p.children)
    ∧ p.starChildren
      = p.children.filterMap (fun c => c.1.starId?.map fun id => (id, c.2))
    ∧ (∀ k rest, k :: rest ∈ p.sequences ↔
      ∃ q, (k, q) ∈ p.children ∧ rest ∈ q.sequences)
    ∧ ([] ∈ p.sequences ↔ ∃ vs, p.values? = some vs) := by
  obtain ⟨n, -, hshaped⟩ := hp.shaped (shaped_root hf)
  cases n with
  | zero =>
      obtain ⟨vs, rfl⟩ := hshaped.eq_leaf
      refine ⟨rfl, List.Pairwise.nil, fun k q => ?_, rfl, fun k rest => ?_, ?_⟩
      · simp [Position.child?, Position.children]
      · simp [Position.sequences, Position.entries, Position.children]
      · simp [Position.sequences, Position.entries, Position.values?,
          Trie.values?]
  | succ n =>
      obtain ⟨bs, hbs⟩ := hshaped.branching
      refine ⟨hbs.fault?, hbs.increasing_children,
        fun k q => hbs.child?_eq_some_iff, hbs.starChildren_eq,
        fun k rest => hbs.cons_mem_sequences_iff, ?_⟩
      rw [hshaped.values?_eq_none]
      constructor
      · exact fun hnil => absurd hnil hbs.nil_notMem_sequences
      · rintro ⟨vs, hvs⟩
        cases hvs

/-- Behind `g/2` in a forest of `g *0 *0`, `g *1 *0` and `g a (fun _ => Sort)`, two
stars lead on, and a constant. -/
theorem views_agree_two_stars :
    ∃ (f : Forest String) (p : Position String),
      f.entries.map Prod.fst
        = [[.app (.const ⟨"g"⟩) 2, .star 0, .star 0],
          [.app (.const ⟨"g"⟩) 2, .star 1, .star 0],
          [.app (.const ⟨"g"⟩) 2, .app (.const ⟨"a"⟩) 0, .lam, .sort]]
      ∧ f.check = .ok ()
      ∧ (Position.root f).Leads [.app (.const ⟨"g"⟩) 2] p
      ∧ p.children.map Prod.fst
        = [.star 0, .star 1, .app (.const ⟨"a"⟩) 0]
      ∧ p.starChildren.map Prod.fst = [0, 1]
      ∧ Key.Increasing (p.children.map Prod.fst)
      ∧ (∀ k q, p.child? k = some q ↔ (k, q) ∈ p.children)
      ∧ p.starChildren
        = p.children.filterMap (fun c => c.1.starId?.map fun id => (id, c.2))
      ∧ ∀ k rest, k :: rest ∈ p.sequences ↔
        ∃ q, (k, q) ∈ p.children ∧ rest ∈ q.sequences := by
  have hcheck : (ofList [(.app (.const ⟨"g"⟩) 2, .node
      [(.star 0, .path [.star 0] (.leaf ["v"])),
        (.star 1, .path [.star 0] (.leaf ["w"])),
        (.app (.const ⟨"a"⟩) 0, .path [.lam, .sort] (.leaf ["x"]))])]).check
      = .ok () := rfl
  have hleads : ∀ t : Trie String,
      (Position.root (ofList [(.app (.const ⟨"g"⟩) 2, t)])).Leads
        [.app (.const ⟨"g"⟩) 2] (.inside t) :=
    fun t => .child (List.mem_cons_self ..) (.here _)
  obtain ⟨-, hincreasing, hchild, hstars, hsequences, -⟩ :=
    views_agree hcheck (hleads _)
  exact ⟨_, _, rfl, hcheck, hleads _, rfl, rfl, hincreasing, hchild, hstars,
    hsequences⟩

end Forest

end TermIndex
