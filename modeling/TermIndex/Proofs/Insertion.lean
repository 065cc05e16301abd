import TermIndex.Proofs.Branches

/-!
# What insertion does

`Put keys value` relates the entries before and after: the sequence is new and
gets an entry of its own, or it is stored and only its values change, by
`Merged`. All other entries stay, in their order.

`Shaped.insert` follows the shape of the trie. A sequence that completes what is
owed can neither end before a leaf nor go on after one, so no fault arises; the
rebuilt trie is shaped again and its entries are the old ones with the value
put in. `Forest.Shaped.insert` is the same statement at the root.
-/

namespace TermIndex

variable {α : Type}

/-! ## Building shaped tries -/

namespace Trie

@[simp] theorem entries_single (keys : List Key) (value : α) :
    (single keys value).entries = [(keys, [value])] := by
  simp [single, under]

theorem Shaped.single {n : Nat} {keys : List Key} (h : Key.Completes n keys)
    (value : α) :
    Shaped n (single keys value) :=
  Shaped.along h rfl (.leaf (List.cons_ne_nil value []))

theorem isPath_fork (a b : Key × Trie α) : (fork a b).isPath = false := by
  unfold fork
  split <;> rfl

theorem Shaped.fork {n : Nat} {a b : Key × Trie α} (hne : a.1 ≠ b.1)
    (ha : Shaped (n + a.1.arity) a.2) (hb : Shaped (n + b.1.arity) b.2) :
    Shaped (n + 1) (fork a b) := by
  have hboth : ∀ x y : Key × Trie α, x.1.precedes y.1 = true →
      Shaped (n + x.1.arity) x.2 → Shaped (n + y.1.arity) y.2 →
      Shaped (n + 1) (.node [x, y]) := fun x y hxy hx hy => by
    refine .node (Nat.le_refl 2) (branchKeys_pairwise.mpr ?_) ?_
    · simpa using hxy
    · simpa using ⟨hx, hy⟩
  unfold Trie.fork
  split
  · next hba => exact hboth b a hba hb ha
  · next hba =>
      exact hboth a b ((Key.precedes_or_precedes hne).resolve_right hba) ha hb

end Trie

variable [BEq α]

/-! ## The entries before and after -/

/-- The values with one more: it takes the place of the first value equal to it,
or goes to the end if there is none. -/
inductive Merged (value : α) : List α → List α → Prop
  | replaced (us : List α) (w : α) (ws : List α)
      (hus : ∀ u ∈ us, (u == value) = false) (hw : (w == value) = true) :
      Merged value (us ++ w :: ws) (us ++ value :: ws)
  | appended (us : List α) (hus : ∀ u ∈ us, (u == value) = false) :
      Merged value us (us ++ [value])

/-- The entries with one more value under a sequence. -/
inductive Put (keys : List Key) (value : α) :
    List (List Key × List α) → List (List Key × List α) → Prop
  | added (pre post : List (List Key × List α)) (hpre : ∀ e ∈ pre, e.1 ≠ keys)
      (hpost : ∀ e ∈ post, e.1 ≠ keys) :
      Put keys value (pre ++ post) (pre ++ (keys, [value]) :: post)
  | merged (pre post : List (List Key × List α)) {us vs : List α}
      (h : Merged value us vs) :
      Put keys value (pre ++ (keys, us) :: post) (pre ++ (keys, vs) :: post)

/-! ## Values -/

theorem Merged.cons {value u : α} {us vs : List α} (h : Merged value us vs)
    (hu : (u == value) = false) : Merged value (u :: us) (u :: vs) := by
  cases h with
  | replaced us w ws hus hw =>
      exact .replaced (u :: us) w ws (List.forall_mem_cons.mpr ⟨hu, hus⟩) hw
  | appended _ hus =>
      exact .appended (u :: us) (List.forall_mem_cons.mpr ⟨hu, hus⟩)

namespace Trie

theorem merged_mergeValue (value : α) :
    ∀ vs : List α, Merged value vs (mergeValue value vs)
  | [] => .appended [] fun _ hu => by cases hu
  | v :: vs => by
      unfold mergeValue
      cases hv : v == value with
      | true => exact .replaced [] v vs (fun _ hu => by cases hu) hv
      | false => exact (merged_mergeValue value vs).cons hv

theorem mergeValue_ne_nil (value : α) (vs : List α) :
    mergeValue value vs ≠ [] := by
  cases vs with
  | nil => exact List.cons_ne_nil _ _
  | cons v vs =>
      unfold mergeValue
      split <;> exact List.cons_ne_nil _ _

end Trie

theorem Merged.eq_mergeValue {value : α} {us vs : List α}
    (h : Merged value us vs) :
    vs = Trie.mergeValue value us := by
  cases h with
  | replaced us w ws hus hw =>
      induction us with
      | nil => simp [Trie.mergeValue, hw]
      | cons u us ih =>
          obtain ⟨hu, hus⟩ := List.forall_mem_cons.mp hus
          simp [Trie.mergeValue, hu, ← ih hus]
  | appended us hus =>
      induction us with
      | nil => rfl
      | cons u us ih =>
          obtain ⟨hu, hus⟩ := List.forall_mem_cons.mp hus
          simp [Trie.mergeValue, hu, ← ih hus]

/-! ## Entries -/

namespace Put

variable {keys : List Key} {value : α} {es es' : List (List Key × List α)}

theorem under (h : Put keys value es es') (front : List Key) :
    Put (front ++ keys) value (es.map (Trie.under front))
      (es'.map (Trie.under front)) := by
  have hne : ∀ {ds : List (List Key × List α)}, (∀ e ∈ ds, e.1 ≠ keys) →
      ∀ e ∈ ds.map (Trie.under front), e.1 ≠ front ++ keys := fun hds e he => by
    obtain ⟨d, hd, rfl⟩ := List.mem_map.mp he
    exact fun heq => hds d hd (List.append_cancel_left heq)
  cases h with
  | added pre post hpre hpost =>
      rw [List.map_append, List.map_append, List.map_cons]
      exact .added _ _ (hne hpre) (hne hpost)
  | merged pre post h =>
      simp only [List.map_append, List.map_cons]
      exact .merged _ _ h

/-- Entries of other sequences may stand in front and behind. -/
theorem append (h : Put keys value es es')
    {front back : List (List Key × List α)}
    (hfront : ∀ e ∈ front, e.1 ≠ keys) (hback : ∀ e ∈ back, e.1 ≠ keys) :
    Put keys value (front ++ (es ++ back)) (front ++ (es' ++ back)) := by
  cases h with
  | added pre post hpre hpost =>
      have hadd : Put keys value ((front ++ pre) ++ (post ++ back))
          ((front ++ pre) ++ (keys, [value]) :: (post ++ back)) :=
        .added _ _ (List.forall_mem_append.mpr ⟨hfront, hpre⟩)
          (List.forall_mem_append.mpr ⟨hpost, hback⟩)
      simpa only [List.append_assoc, List.cons_append] using hadd
  | @merged pre post us vs h =>
      have hmerge : Put keys value
          ((front ++ pre) ++ (keys, us) :: (post ++ back))
          ((front ++ pre) ++ (keys, vs) :: (post ++ back)) := .merged _ _ h
      simpa only [List.append_assoc, List.cons_append] using hmerge

end Put

/-! ## Branches -/

namespace Trie

variable {k : Key} {rest : List Key} {value : α}
  {pre post : List (Key × Trie α)}

/-- Only the branch of the key changes. -/
theorem put_branch {t t' : Trie α} (hpre : ∀ b ∈ pre, b.1 ≠ k)
    (hpost : ∀ b ∈ post, b.1 ≠ k) (h : Put rest value t.entries t'.entries) :
    Put (k :: rest) value (branchEntries (pre ++ (k, t) :: post))
      (branchEntries (pre ++ (k, t') :: post)) := by
  simp only [branchEntries_append, branchEntries_cons]
  exact (h.under [k]).append (ne_of_mem_branchEntries hpre)
    (ne_of_mem_branchEntries hpost)

/-- A new branch holds the new sequence only. -/
theorem put_new_branch (hpre : ∀ b ∈ pre, b.1 ≠ k)
    (hpost : ∀ b ∈ post, b.1 ≠ k) :
    Put (k :: rest) value (branchEntries (pre ++ post))
      (branchEntries (pre ++ (k, single rest value) :: post)) := by
  rw [branchEntries_append, branchEntries_append, branchEntries_cons,
    entries_single]
  exact .added _ _ (ne_of_mem_branchEntries hpre)
    (ne_of_mem_branchEntries hpost)

/-- A fork holds what its old branch held, and the new sequence. -/
theorem put_fork {p : Key} {t : Trie α} (hne : p ≠ k) :
    Put (k :: rest) value (branchEntries [(p, t)])
      (Trie.fork (p, t) (k, Trie.single rest value)).entries := by
  have hp : ∀ b ∈ [(p, t)], b.1 ≠ k := by simpa using hne
  have hnil : ∀ b ∈ ([] : List (Key × Trie α)), b.1 ≠ k := fun _ hb => by
    cases hb
  unfold Trie.fork
  split
  · rw [entries_node]
    have hput : Put (k :: rest) value (branchEntries ([] ++ [(p, t)]))
        (branchEntries ([] ++ (k, Trie.single rest value) :: [(p, t)])) :=
      put_new_branch hnil hp
    exact hput
  · rw [entries_node]
    have hput : Put (k :: rest) value (branchEntries ([(p, t)] ++ []))
        (branchEntries ([(p, t)] ++ (k, Trie.single rest value) :: [])) :=
      put_new_branch hp hnil
    exact hput

/-! ## Splitting -/

omit [BEq α] in
theorem splitCommon_append {κ : Type} [DecidableEq κ] : ∀ as bs : List κ,
    as = (splitCommon as bs).1 ++ (splitCommon as bs).2.1
      ∧ bs = (splitCommon as bs).1 ++ (splitCommon as bs).2.2
  | [], bs => ⟨rfl, rfl⟩
  | a :: as, [] => ⟨rfl, rfl⟩
  | a :: as, b :: bs => by
      obtain ⟨has, hbs⟩ := splitCommon_append as bs
      unfold splitCommon
      split
      · next hab =>
          subst hab
          exact ⟨congrArg (a :: ·) has, congrArg (a :: ·) hbs⟩
      · exact ⟨rfl, rfl⟩

omit [BEq α] in
theorem splitCommon_heads_ne {κ : Type} [DecidableEq κ] : ∀ {as bs : List κ}
    {common as' bs' : List κ} {a b : κ},
    splitCommon as bs = (common, a :: as', b :: bs') → a ≠ b
  | [], bs, common, as', bs', a, b, h => by simp [splitCommon] at h
  | x :: as, [], common, as', bs', a, b, h => by simp [splitCommon] at h
  | x :: as, y :: bs, common, as', bs', a, b, h => by
      unfold splitCommon at h
      split at h
      · next hxy =>
          simp only [Prod.mk.injEq] at h
          obtain ⟨-, has, hbs⟩ := h
          exact splitCommon_heads_ne (Prod.ext rfl (Prod.ext has hbs))
      · next hxy =>
          simp only [Prod.mk.injEq, List.cons.injEq] at h
          obtain ⟨-, ⟨rfl, -⟩, rfl, -⟩ := h
          exact hxy

/-! ## Insertion among branches -/

omit [BEq α] in
theorem ShapedAll.replace {n : Nat} {t t' : Trie α}
    (h : ShapedAll n (pre ++ (k, t) :: post)) (ht' : Shaped (n + k.arity) t') :
    ShapedAll n (pre ++ (k, t') :: post) := by
  obtain ⟨hpre, hpost⟩ := List.forall_mem_append.mp h
  exact List.forall_mem_append.mpr
    ⟨hpre, List.forall_mem_cons.mpr ⟨ht', (List.forall_mem_cons.mp hpost).2⟩⟩

omit [BEq α] in
theorem ShapedAll.add {n : Nat} {t : Trie α} (h : ShapedAll n (pre ++ post))
    (ht : Shaped (n + k.arity) t) : ShapedAll n (pre ++ (k, t) :: post) := by
  obtain ⟨hpre, hpost⟩ := List.forall_mem_append.mp h
  exact List.forall_mem_append.mpr ⟨hpre, List.forall_mem_cons.mpr ⟨ht, hpost⟩⟩

theorem insertAt_length {keys : List Key} {t t' : Trie α}
    (h : insert keys value t = .ok t') :
    insertAt pre.length keys value (pre ++ (k, t) :: post)
      = .ok (pre ++ (k, t') :: post) := by
  induction pre with
  | nil => simp [insertAt, h, Bind.bind, Except.bind, Pure.pure, Except.pure]
  | cons b pre ih =>
      simp [insertAt, ih, Bind.bind, Except.bind, Pure.pure, Except.pure]

omit [BEq α] in
theorem insertIdx_length (b : Key × Trie α) :
    (pre ++ post).insertIdx pre.length b = pre ++ b :: post := by
  induction pre with
  | nil => rfl
  | cons a pre ih => simpa using ih

/-! ## Insertion into a trie -/

/-- What insertion of a value under a sequence gives: a trie of the same shape
bounds, a path only where one was, with the value put into the entries. -/
def Inserts (n : Nat) (keys : List Key) (value : α) (t : Trie α) : Prop :=
  ∃ t', t.insert keys value = .ok t' ∧ Shaped n t'
    ∧ (t.isPath = false → t'.isPath = false)
    ∧ Put keys value t.entries t'.entries

/-- The sequence runs along the whole path and goes on below it. -/
theorem inserts_path {n m : Nat} {run new : List Key} {child : Trie α}
    (hrun : run ≠ []) (hchild : child.isPath = false)
    (hspend : Key.spendAll n run = .ok m)
    (hsplit : splitCommon run (run ++ new) = (run, [], new))
    (h : Inserts m new value child) :
    Inserts n (run ++ new) value (.path run child) := by
  obtain ⟨child', hinsert, hshaped, hpath, hput⟩ := h
  refine ⟨.path run child', ?_,
    .path hrun (hpath hchild) hspend hshaped, nofun, ?_⟩
  · rw [Trie.insert, hsplit]
    simp [hinsert, Bind.bind, Except.bind, Pure.pure, Except.pure]
  · rw [entries_path, entries_path]
    exact hput.under run

/-- The sequence leaves the path, which splits there. -/
theorem inserts_split {n m : Nat} {common run : List Key} {p : Key}
    {child : Trie α} (hchild : child.isPath = false)
    (hspend : Key.spendAll n (common ++ p :: run) = .ok m)
    (hshaped : Shaped m child) (hkeys : Key.Completes n (common ++ k :: rest))
    (hsplit : splitCommon (common ++ p :: run) (common ++ k :: rest)
      = (common, p :: run, k :: rest)) :
    Inserts n (common ++ k :: rest) value
      (.path (common ++ p :: run) child) := by
  have hne : p ≠ k := splitCommon_heads_ne hsplit
  obtain ⟨j, hcommon, hold⟩ := Key.spendAll_append_eq_ok.mp hspend
  obtain ⟨i, rfl, hold⟩ := Key.spendAll_cons_eq_ok.mp hold
  obtain ⟨j, hj, hnew⟩ := Key.spendAll_append_eq_ok.mp hkeys
  obtain rfl : i + 1 = j := Except.ok.inj (hcommon.symm.trans hj)
  have hrest : Key.Completes (i + k.arity) rest := hnew
  refine ⟨along common (fork (p, along run child) (k, single rest value)),
    ?_, ?_, nofun, ?_⟩
  · rw [Trie.insert, hsplit]
  · exact Shaped.along hcommon (isPath_fork _ _)
      (Shaped.fork hne (Shaped.along hold hchild hshaped)
        (Shaped.single hrest value))
  · have hentries : (Trie.path (common ++ p :: run) child).entries
        = (branchEntries [(p, along run child)]).map (under common) := by
      simp only [branchEntries_cons, branchEntries_nil, entries_path,
        entries_along, List.append_nil, map_under_under, List.singleton_append]
    rw [hentries, entries_along]
    exact (put_fork hne).under common

theorem inserts_node {n : Nat} {bs : List (Key × Trie α)}
    (hlength : 2 ≤ bs.length)
    (hincreasing : Key.Increasing (branchKeys bs)) (hshaped : ShapedAll n bs)
    (hrest : Key.Completes (n + k.arity) rest)
    (h : ∀ b ∈ bs, b.1 = k → Inserts (n + k.arity) rest value b.2) :
    Inserts (n + 1) (k :: rest) value (.node bs) := by
  have hloc := place_located hincreasing k
  unfold Inserts
  rw [Trie.insert]
  generalize Key.place (branchKeys bs) k = place at hloc ⊢
  cases hloc with
  | found pre t post =>
      obtain ⟨t', ht', hshaped', -, hput⟩ := h (k, t) (by simp) rfl
      obtain ⟨hpre, hpost⟩ := around_of_increasing hincreasing
      refine ⟨.node (pre ++ (k, t') :: post), ?_,
        .node ?_ ?_ (hshaped.replace hshaped'),
        fun _ => rfl, ?_⟩
      · simp [insertAt_length ht', Bind.bind, Except.bind,
          Pure.pure, Except.pure]
      · simpa using hlength
      · simpa [branchKeys] using hincreasing
      · rw [entries_node, entries_node]
        exact put_branch (ne_of_before hpre) (ne_of_after hpost) hput
  | missing pre post hpre hpost =>
      refine ⟨.node (pre ++ (k, single rest value) :: post), ?_,
        .node ?_ (increasing_insert hincreasing hpre hpost)
          (hshaped.add (Shaped.single hrest value)), fun _ => rfl, ?_⟩
      · simp only [insertIdx_length]
      · simp only [List.length_append, List.length_cons] at hlength ⊢
        omega
      · rw [entries_node, entries_node]
        exact put_new_branch (ne_of_before hpre) (ne_of_after hpost)

/-- Insertion succeeds on every sequence that completes what is owed. -/
theorem Shaped.inserts {n : Nat} {t : Trie α} (h : Shaped n t) :
    ∀ {keys : List Key}, Key.Completes n keys → Inserts n keys value t := by
  induction h with
  | @leaf values hvalues =>
      intro keys hkeys
      obtain rfl := hkeys.eq_nil
      exact ⟨.leaf (mergeValue value values), rfl,
        .leaf (mergeValue_ne_nil value values),
        fun _ => rfl, .merged [] [] (merged_mergeValue value values)⟩
  | @path n m run child hrun hchild hspend hshaped ih =>
      intro keys hkeys
      obtain ⟨hrunsplit, hkeysplit⟩ := splitCommon_append run keys
      rcases hsplit : splitCommon run keys with ⟨common, old, new⟩
      rw [hsplit] at hrunsplit hkeysplit
      cases old with
      | nil =>
          obtain rfl : run = common := by simpa using hrunsplit
          obtain rfl : keys = run ++ new := hkeysplit
          obtain ⟨j, hj, hnew⟩ := Key.spendAll_append_eq_ok.mp hkeys
          obtain rfl : m = j := Except.ok.inj (hspend.symm.trans hj)
          exact inserts_path hrun hchild hspend hsplit (ih hnew)
      | cons p run' =>
          obtain rfl : run = common ++ p :: run' := hrunsplit
          cases new with
          | nil =>
              -- A complete sequence does not end inside the path.
              obtain rfl : keys = common := by simpa using hkeysplit
              obtain ⟨j, hj, hold⟩ := Key.spendAll_append_eq_ok.mp hspend
              obtain rfl : 0 = j := Except.ok.inj (hkeys.symm.trans hj)
              cases hold
          | cons k rest =>
              obtain rfl : keys = common ++ k :: rest := hkeysplit
              exact inserts_split hchild hspend hshaped hkeys hsplit
  | node hlength hincreasing hshaped ih =>
      intro keys hkeys
      obtain ⟨k, rest, rfl, hrest⟩ := hkeys.exists_cons
      refine inserts_node hlength hincreasing hshaped hrest fun b hb hk => ?_
      obtain rfl := hk
      exact ih b hb hrest

end Trie

/-! ## Insertion into a forest -/

namespace Forest

variable {k : Key} {value : α} {pre post : List (Key × Trie α)}

omit [BEq α] in
theorem setIn_append {t : Trie α} {bs : List (Key × Trie α)}
    (hpre : ∀ b ∈ pre, b.1.precedes k = true) :
    setIn k t (pre ++ bs) = pre ++ setIn k t bs := by
  induction pre with
  | nil => rfl
  | cons b pre ih =>
      obtain ⟨hb, hpre⟩ := List.forall_mem_cons.mp hpre
      have hgt : compare k b.1 = .gt :=
        Std.OrientedCmp.gt_of_lt (Key.precedes_iff.mp hb)
      simp [setIn, hgt, ih hpre]

omit [BEq α] in
theorem setIn_self {t t' : Trie α} :
    setIn k t' ((k, t) :: post) = (k, t') :: post := by
  simp [setIn]

omit [BEq α] in
theorem setIn_first {t : Trie α} (hpost : ∀ b ∈ post, k.precedes b.1 = true) :
    setIn k t post = (k, t) :: post := by
  cases post with
  | nil => rfl
  | cons b post =>
      have hlt : compare k b.1 = .lt :=
        Key.precedes_iff.mp (hpost b (List.mem_cons_self ..))
      simp [setIn, hlt]

omit [BEq α] in
theorem branches_set (f : Forest α) (k : Key) (t : Trie α) :
    (f.set k t).branches = setIn k t f.branches := rfl

/-- Insertion into a forest succeeds on every complete sequence, keeps the
shape, and puts the value into the entries. -/
theorem Shaped.insert {f : Forest α} (h : f.Shaped) {keys : List Key}
    (hkeys : Key.Completes 1 keys) (value : α) :
    ∃ f', f.insert keys value = .ok f' ∧ f'.Shaped
      ∧ Put keys value f.entries f'.entries := by
  obtain ⟨k, rest, rfl, hrest⟩ := hkeys.exists_cons
  change Trie.ShapedAll 0 f.branches at h
  have hincreasing := f.increasing
  have hloc := Trie.place_located hincreasing k
  generalize Key.place (Trie.branchKeys f.branches) k = place at hloc
  generalize hbs : f.branches = bs at h hincreasing hloc
  cases hloc with
  | found pre t post =>
      obtain ⟨hpre, hpost⟩ := Trie.around_of_increasing hincreasing
      have hins : Trie.Inserts (0 + k.arity) rest value t :=
        (h (k, t) (by simp)).inserts hrest
      obtain ⟨t', ht', hshaped', -, hput⟩ := hins
      have hget : f.get? k = some t := by
        rw [get?, hbs, Trie.lookup_append_self (Trie.ne_of_before hpre)]
      have hset : (f.set k t').branches = pre ++ (k, t') :: post := by
        rw [branches_set, hbs, setIn_append hpre, setIn_self]
      refine ⟨f.set k t', ?_, ?_, ?_⟩
      · simp [Forest.insert, hget, ht', Bind.bind, Except.bind,
          Pure.pure, Except.pure]
      · change Trie.ShapedAll 0 (f.set k t').branches
        rw [hset]
        exact h.replace hshaped'
      · rw [entries_eq, entries_eq, hset, hbs]
        exact Trie.put_branch (Trie.ne_of_before hpre)
          (Trie.ne_of_after hpost) hput
  | missing pre post hpre hpost =>
      have hget : f.get? k = none := by
        rw [get?, hbs, Trie.lookup_of_ne (Trie.ne_of_around hpre hpost)]
      have hset : (f.set k (.single rest value)).branches
          = pre ++ (k, .single rest value) :: post := by
        rw [branches_set, hbs, setIn_append hpre, setIn_first hpost]
      refine ⟨f.set k (.single rest value), ?_, ?_, ?_⟩
      · simp [Forest.insert, hget, Bind.bind, Except.bind,
          Pure.pure, Except.pure]
      · change Trie.ShapedAll 0 (f.set k (.single rest value)).branches
        rw [hset]
        exact h.add (Trie.Shaped.single hrest value)
      · rw [entries_eq, entries_eq, hset, hbs]
        exact Trie.put_new_branch (Trie.ne_of_before hpre)
          (Trie.ne_of_after hpost)

end Forest

end TermIndex
