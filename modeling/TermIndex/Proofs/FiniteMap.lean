import TermIndex.Proofs.Insertion

/-!
# A forest is a finite map

The forests that insertion builds from the empty one (`Forest.Built`) are shaped
and hold checked sequences only. Their entries are a finite map in a fixed form:
strictly increasing sequences, each with its values. Insertion changes this map
at one sequence, which is what `entries_insert` says.

`lookup_put` reads the same fact as a point update, and `eq_of_lookup_eq` says
that the fixed form is determined by its lookups.
-/

namespace TermIndex

variable {α : Type}

/-! ## Ordered entries -/

namespace Trie

variable {es es' : List (List Key × List α)}

theorem Ordered.nodup (h : Ordered es) : es.Nodup :=
  h.imp fun hde heq => hde.ne (congrArg Prod.fst heq)

/-- The entry of a sequence stands apart from the entries around it. -/
theorem Ordered.around {pre post : List (List Key × List α)}
    {e : List Key × List α} (h : Ordered (pre ++ e :: post)) :
    (∀ d ∈ pre, d.1 ≠ e.1) ∧ ∀ d ∈ post, d.1 ≠ e.1 := by
  obtain ⟨-, hpost, hacross⟩ := List.pairwise_append.mp h
  exact ⟨fun d hd => (hacross d hd e (List.mem_cons_self ..)).ne,
    fun d hd => ((List.pairwise_cons.mp hpost).1 d hd).ne.symm⟩

theorem Ordered.mem_iff_lookup (h : Ordered es) {ks : List Key} {vs : List α} :
    (ks, vs) ∈ es ↔ es.lookup ks = some vs := by
  rw [List.lookup_eq_some_iff]
  constructor
  · intro hmem
    obtain ⟨pre, post, rfl⟩ := List.append_of_mem hmem
    exact ⟨pre, post, rfl, fun d hd => by simpa using (h.around.1 d hd).symm⟩
  · rintro ⟨pre, post, rfl, -⟩
    simp

/-- Ordered entries are determined by their lookups. -/
theorem eq_of_lookup_eq (h : Ordered es) (h' : Ordered es')
    (heq : ∀ ks, es.lookup ks = es'.lookup ks) : es = es' := by
  have hperm : es.Perm es' :=
    (List.perm_ext_iff_of_nodup h.nodup h'.nodup).mpr fun ⟨ks, vs⟩ => by
      rw [h.mem_iff_lookup, h'.mem_iff_lookup, heq]
  exact List.Perm.eq_of_pairwise
    (fun d e _ _ hde hed => (hde.asymm hed).elim) h h' hperm

end Trie

/-! ## Point updates -/

section

variable [BEq α]

/-- Putting a value updates the map at its sequence and nowhere else. -/
theorem lookup_put {keys : List Key} {value : α}
    {es es' : List (List Key × List α)}
    (h : Put keys value es es') (hes : Trie.Ordered es) (ks : List Key) :
    es'.lookup ks =
      if ks = keys then some (Trie.mergeValue value ((es.lookup keys).getD []))
      else es.lookup ks := by
  have hnone : ∀ {ds : List (List Key × List α)}, (∀ e ∈ ds, e.1 ≠ keys) →
      ds.lookup keys = none := fun hds =>
    List.lookup_eq_none_iff.mpr fun e he => by simpa using (hds e he).symm
  have hother : ∀ (us : List α) (post : List (List Key × List α)), ks ≠ keys →
      ((keys, us) :: post).lookup ks = post.lookup ks := fun us post hne => by
    simp [List.lookup_cons, beq_eq_false_iff_ne.mpr hne]
  cases h with
  | added pre post hpre hpost =>
      split
      · next heq =>
          subst heq
          simp [List.lookup_append, hnone hpre, hnone hpost, Trie.mergeValue]
      · next hne => rw [List.lookup_append, List.lookup_append, hother _ _ hne]
  | @merged pre post us vs hmerged =>
      obtain ⟨hpre, -⟩ := hes.around
      split
      · next heq =>
          subst heq
          simp [List.lookup_append, hnone hpre, hmerged.eq_mergeValue]
      · next hne =>
          rw [List.lookup_append, List.lookup_append, hother _ _ hne,
            hother _ _ hne]

/-- No sequence is stored but the new one and those stored before. -/
theorem Put.mem {keys : List Key} {value : α}
    {es es' : List (List Key × List α)}
    (h : Put keys value es es') {e : List Key × List α} (he : e ∈ es') :
    e.1 = keys ∨ ∃ d ∈ es, d.1 = e.1 := by
  cases h with
  | added pre post _ _ =>
      rcases List.mem_append.mp he with hpre | he
      · exact Or.inr ⟨e, List.mem_append_left _ hpre, rfl⟩
      rcases List.mem_cons.mp he with rfl | hpost
      · exact Or.inl rfl
      · exact Or.inr ⟨e, List.mem_append_right _ hpost, rfl⟩
  | merged pre post _ =>
      rcases List.mem_append.mp he with hpre | he
      · exact Or.inr ⟨e, List.mem_append_left _ hpre, rfl⟩
      rcases List.mem_cons.mp he with rfl | hpost
      · exact Or.inl rfl
      · exact Or.inr
          ⟨e, List.mem_append_right _ (List.mem_cons_of_mem _ hpost), rfl⟩

end

/-! ## Built forests -/

namespace Forest

variable [BEq α]

/-- The forests that insertion of checked sequences builds from the
empty one. -/
inductive Built : Forest α → Prop
  | empty : Built .empty
  | insert {f f' : Forest α} {keys : List Key} {value : α} (h : Built f)
      (hkeys : Key.check keys = .ok ())
      (hinsert : f.insert keys value = .ok f') : Built f'

omit [BEq α] in
theorem shaped_empty : (empty : Forest α).Shaped := fun _ hb => by cases hb

/-- One step: insertion of a checked sequence into a shaped forest succeeds. -/
theorem Shaped.insert_checked {f : Forest α} (h : f.Shaped) {keys : List Key}
    (hkeys : Key.check keys = .ok ()) (value : α) :
    ∃ f', f.insert keys value = .ok f' ∧ f'.Shaped
      ∧ Put keys value f.entries f'.entries :=
  h.insert (Key.check_eq_ok_iff.mp hkeys).1 value

/-- What an insertion that was made has made of the forest. -/
theorem Shaped.of_insert {f f' : Forest α} (h : f.Shaped) {keys : List Key}
    {value : α} (hkeys : Key.check keys = .ok ())
    (hinsert : f.insert keys value = .ok f') :
    f'.Shaped ∧ Put keys value f.entries f'.entries := by
  obtain ⟨g, hg, hshaped, hput⟩ := h.insert_checked hkeys value
  obtain rfl : g = f' := Except.ok.inj (hg.symm.trans hinsert)
  exact ⟨hshaped, hput⟩

theorem Built.shaped {f : Forest α} (h : f.Built) : f.Shaped := by
  induction h with
  | empty => exact shaped_empty
  | insert _ hkeys hinsert ih => exact (ih.of_insert hkeys hinsert).1

theorem Built.check_keys {f : Forest α} (h : f.Built) :
    ∀ e ∈ f.entries, Key.check e.1 = .ok () := by
  induction h with
  | empty => exact fun e he => by cases he
  | insert hf hkeys hinsert ih =>
      obtain ⟨-, hput⟩ := hf.shaped.of_insert hkeys hinsert
      intro e he
      rcases hput.mem he with heq | ⟨d, hd, heq⟩
      · rw [heq]
        exact hkeys
      · rw [← heq]
        exact ih d hd

/-- **Insertion is a point update of a finite map.** It succeeds, and puts the
value into the entries; these are strictly increasing before and after, and
there is a leaf for each. -/
theorem entries_insert {f : Forest α} (hf : f.Built) {keys : List Key}
    (hkeys : Key.check keys = .ok ()) (value : α) :
    ∃ f', f.insert keys value = .ok f' ∧ f'.Built
      ∧ Put keys value f.entries f'.entries
      ∧ Trie.Ordered f.entries ∧ Trie.Ordered f'.entries
      ∧ f.numLeaves = f.entries.length ∧ f'.numLeaves = f'.entries.length := by
  obtain ⟨f', hinsert, hshaped', hput⟩ := hf.shaped.insert_checked hkeys value
  exact ⟨f', hinsert, hf.insert hkeys hinsert, hput, hf.shaped.entries_ordered,
    hshaped'.entries_ordered, f.numLeaves_eq_length, f'.numLeaves_eq_length⟩

/-- The path of a stored sequence is split in its middle. -/
theorem entries_insert_split :
    ∃ f f' : Forest Nat,
      f.Built ∧ Key.check [.pi, .sort, .hidden] = .ok ()
      ∧ f.entries = [([.pi, .sort, .sort], [1])]
      ∧ f.insert [.pi, .sort, .hidden] 2 = .ok f' ∧ f'.Built
      ∧ f'.entries = [([.pi, .sort, .hidden], [2]), ([.pi, .sort, .sort], [1])]
      ∧ f'.numLeaves = f'.entries.length := by
  have hold : Key.check [.pi, .sort, .sort] = .ok () := by decide
  have hnew : Key.check [.pi, .sort, .hidden] = .ok () := by decide
  have hfirst : empty.insert [.pi, .sort, .sort] 1
      = .ok (empty.set .pi (.path [.sort, .sort] (.leaf [1]))) := rfl
  obtain ⟨f', hinsert, hbuilt', -, -, -, -, hleaves⟩ :=
    entries_insert (Built.empty.insert hold hfirst) hnew 2
  have hentries : f'.entries = [([.pi, .sort, .hidden], [2]),
      ([.pi, .sort, .sort], [1])] := by
    cases hinsert
    rfl
  exact ⟨_, f', Built.empty.insert hold hfirst, hnew, rfl, hinsert, hbuilt',
    hentries, hleaves⟩

end Forest

end TermIndex
