import Mathlib.Algebra.BigOperators.Group.Finset.Basic
import TermIndex.Proofs.Hits
import TermIndex.Proofs.Nodes
import TermIndex.Proofs.Subtrees

/-!
# What a walk binds

Stars and metavariables are bound on the way of a walk, and later steps have to
agree with that. `Bindings` chooses them all beforehand; a walk is `Under` them
if what it has bound so far is bound so. Each of the three steps adds at most
one equation to that (`exact_step`, `taken_step`, `skip_step`), so that the
bindings a walk can end with are those that satisfy all its steps.

The first occurrence of a star is free. The score of a walk is therefore read
off after what its stars have taken is added to it (`spent`): then every
occurrence is worth the size of what it takes.
-/

namespace TermIndex

/-- What the stars of a sequence take, and what the metavariables of a
query skip. -/
structure Bindings where
  star : Nat → Pattern
  mvar : MVar → List Key

/-- The bonus for skipping these keys. -/
def skipWorth (keys : List Key) : Nat :=
  if keys.head? = some .hidden then 1 else 0

namespace Walk

variable {α : Type} {b : Bindings} {w w' : Walk α}

/-! ## Bindings of a walk -/

/-- What the walk has bound so far is bound so. -/
structure Under (b : Bindings) (w : Walk α) : Prop where
  star : ∀ id p, w.stars.lookup id = some p → b.star id = p
  mvar : ∀ m ks, w.mvars.lookup m = some ks → b.mvar m = ks

/-- The stars that the walk has bound. -/
def bound (w : Walk α) : Finset Nat := (w.stars.map Prod.fst).toFinset

/-- The score with what the stars of the walk have taken. -/
def spent (b : Bindings) (w : Walk α) : Nat :=
  w.score + ∑ id ∈ w.bound, (b.star id).size

theorem mem_bound_of_lookup {id : Nat} {p : Pattern}
    (h : w.stars.lookup id = some p) : id ∈ w.bound := by
  obtain ⟨pre, post, hstars, -⟩ := List.lookup_eq_some_iff.mp h
  simp [bound, hstars]

theorem notMem_bound_of_lookup {id : Nat} (h : w.stars.lookup id = none) :
    id ∉ w.bound := by
  intro hmem
  obtain ⟨⟨id', p⟩, hp, rfl⟩ := List.mem_map.mp (List.mem_toFinset.mp hmem)
  have hne := List.lookup_eq_none_iff.mp h (id', p) hp
  simp at hne

/-- Choosing the bindings that a walk has: a lookup in each of its lists. -/
def bindings (w : Walk α) : Bindings :=
  ⟨fun id => (w.stars.lookup id).getD .hidden,
    fun m => (w.mvars.lookup m).getD []⟩

theorem under_bindings (w : Walk α) : Under w.bindings w :=
  ⟨fun id p h => by simp [bindings, h], fun m ks h => by simp [bindings, h]⟩

/-! ## One step -/

/-- The walk `w'` is `w` behind some keys. -/
structure Passes (w : Walk α) (keys : List Key) (w' : Walk α) : Prop where
  ahead : w.ahead = keys ++ w'.ahead
  walked : w'.walked = w.walked ++ keys

theorem Passes.trans {keys keys' : List Key} {w'' : Walk α}
    (h : Passes w keys w') (h' : Passes w' keys' w'') :
    Passes w (keys ++ keys') w'' :=
  ⟨by rw [h.ahead, h'.ahead, List.append_assoc],
    by rw [h'.walked, h.walked, List.append_assoc]⟩

theorem Passes.starsAllowed {keys : List Key} (h : Passes w keys w')
    (hkeys : keys ≠ []) (o : LookupOptions) : w'.starsAllowed o = true := by
  simp [Walk.starsAllowed, h.walked, hkeys]

theorem Passes.ahead_eq {keys rest : List Key} (h : Passes w keys w')
    (hahead : w.ahead = keys ++ rest) : w'.ahead = rest :=
  List.append_cancel_left (h.ahead.symm.trans hahead)

theorem passes_advance {keys ahead : List Key} (h : w.ahead = keys ++ ahead)
    (bonus : Nat) : Passes w keys (w.advance keys ahead bonus) := ⟨h, rfl⟩

theorem under_advance (keys ahead : List Key) (bonus : Nat) :
    Under b (w.advance keys ahead bonus) ↔ Under b w :=
  ⟨fun h => ⟨h.star, h.mvar⟩, fun h => ⟨h.star, h.mvar⟩⟩

theorem spent_advance (keys ahead : List Key) (bonus : Nat) :
    spent b (w.advance keys ahead bonus) = spent b w + bonus :=
  Nat.add_right_comm ..

theorem exact_of_ahead {k : Key} {rest : List Key}
    (hahead : w.ahead = k :: rest) : ∃ w', w.exact k = some w' := by
  rw [exact, hahead]
  exact ⟨_, if_pos rfl⟩

/-- An exact key binds nothing. -/
theorem exact_step {k : Key} (h : w.exact k = some w') :
    Passes w [k] w' ∧ w'.bound = w.bound
      ∧ ∀ b, (Under b w' ↔ Under b w) ∧ spent b w' = spent b w + k.worth := by
  obtain ⟨rest, hahead, rfl⟩ := exact_eq_some h
  exact ⟨passes_advance hahead _, rfl,
    fun b => ⟨under_advance .., spent_advance ..⟩⟩

/-- One binding more in front of others. -/
theorem forall_lookup_cons_iff {κ β : Type} [BEq κ] [LawfulBEq κ]
    {f : κ → β} {x : κ} {y : β} {bs : List (κ × β)} (h : bs.lookup x = none) :
    (∀ k v, List.lookup k ((x, y) :: bs) = some v → f k = v)
      ↔ (∀ k v, bs.lookup k = some v → f k = v) ∧ f x = y := by
  constructor
  · refine fun hall => ⟨fun k v hk => hall k v ?_, hall x y (by simp)⟩
    have hne : k ≠ x := by
      rintro rfl
      rw [h] at hk
      cases hk
    rwa [List.lookup_cons, beq_eq_false_iff_ne.mpr hne]
  · rintro ⟨hall, hx⟩ k v hk
    by_cases hkx : k = x
    · subst hkx
      rw [List.lookup_cons_self, Option.some.injEq] at hk
      rw [hx, hk]
    · rw [List.lookup_cons, beq_eq_false_iff_ne.mpr hkx] at hk
      exact hall k v hk

/-- A star that takes a subtree is bound to it, and nothing else is bound. -/
theorem taken_step {p : Pattern} (h : w.taken p = some w') :
    ∃ id, Passes w [.star id] w' ∧ w'.bound = insert id w.bound
      ∧ ∀ b, (Under b w' ↔ Under b w ∧ b.star id = p)
        ∧ (b.star id = p → spent b w' = spent b w + p.size) := by
  unfold taken at h
  split at h
  · next id rest hahead =>
      refine ⟨id, ?_⟩
      split at h
      · next q hq =>
          split at h
          · next hqp =>
              obtain rfl := Option.some.inj h
              refine ⟨passes_advance hahead _, ?_, fun b => ⟨?_, ?_⟩⟩
              · exact (Finset.insert_eq_of_mem (mem_bound_of_lookup hq)).symm
              · rw [under_advance]
                exact ⟨fun hb => ⟨hb, (hb.star id q hq).trans hqp⟩, And.left⟩
              · exact fun _ => spent_advance ..
          · cases h
      · next hid =>
          obtain rfl := Option.some.inj h
          refine ⟨⟨hahead, rfl⟩, List.toFinset_cons, fun b => ⟨?_, ?_⟩⟩
          · have hcons := forall_lookup_cons_iff (f := b.star) (y := p) hid
            exact ⟨fun hb => ⟨⟨(hcons.mp hb.star).1, hb.mvar⟩,
              (hcons.mp hb.star).2⟩,
              fun h => ⟨hcons.mpr ⟨h.1.star, h.2⟩, h.1.mvar⟩⟩
          · intro hp
            have hsum := Finset.sum_insert (f := fun id => (b.star id).size)
              (notMem_bound_of_lookup hid)
            rw [hp] at hsum
            simp only [spent, bound, List.map_cons, List.toFinset_cons]
              at hsum ⊢
            rw [hsum]
            change w.score + 0 + _ = _
            omega
  · cases h

theorem taken_of_under {p : Pattern} {id : Nat} {rest : List Key}
    (hahead : w.ahead = .star id :: rest) (hb : Under b w)
    (hid : b.star id = p) : ∃ w', w.taken p = some w' := by
  refine Option.isSome_iff_exists.mp ?_
  cases hlookup : w.stars.lookup id with
  | none => simp [taken, hahead, hlookup]
  | some q =>
      have hqp : q = p := (hb.star id q hlookup).symm.trans hid
      simp [taken, hahead, hlookup, hqp]

/-- A wildcard that skips keys has its metavariable bound to them, and nothing
else is bound. -/
theorem skip_step {m : Option MVar} (h : w.skip m = some w') :
    ∃ front, Key.Completes 1 front ∧ Passes w front w' ∧ w'.bound = w.bound
      ∧ ∀ b, (Under b w' ↔ Under b w ∧ ∀ x, m = some x → b.mvar x = front)
        ∧ spent b w' = spent b w + skipWorth front := by
  obtain ⟨hsplit, hspend, -⟩ := Key.takeSubtrees_spec 1 w.ahead
  unfold skip at h
  split at h
  next front owed rest htake =>
    rw [htake] at hsplit hspend
    split at h
    · next howed =>
        subst howed
        refine ⟨front, hspend, ?_⟩
        cases m with
        | none =>
            obtain rfl := Option.some.inj h
            exact ⟨passes_advance hsplit _, rfl,
              fun b => ⟨by simp [under_advance], spent_advance ..⟩⟩
        | some m =>
            have hx : ∀ b : Bindings, (∀ x, some m = some x → b.mvar x = front)
                ↔ b.mvar m = front := by simp
            simp only [skipped] at h
            split at h
            · next keys hkeys =>
                split at h
                · next heq =>
                    obtain rfl := Option.some.inj h
                    refine ⟨passes_advance hsplit _, rfl,
                      fun b => ⟨?_, spent_advance ..⟩⟩
                    rw [under_advance, hx]
                    exact ⟨fun hb => ⟨hb, (hb.mvar m keys hkeys).trans heq⟩,
                      And.left⟩
                · cases h
            · next hm =>
                obtain rfl := Option.some.inj h
                refine ⟨⟨hsplit, rfl⟩, rfl,
                  fun b => ⟨?_, spent_advance front rest _⟩⟩
                have hcons :=
                  forall_lookup_cons_iff (f := b.mvar) (y := front) hm
                rw [hx]
                exact ⟨fun hb => ⟨⟨hb.star, (hcons.mp hb.mvar).1⟩,
                  (hcons.mp hb.mvar).2⟩,
                  fun h => ⟨h.1.star, hcons.mpr ⟨h.1.mvar, h.2⟩⟩⟩
    · cases h

theorem skip_of_under {m : Option MVar} {front rest : List Key}
    (hahead : w.ahead = front ++ rest) (hfront : Key.Completes 1 front)
    (hb : Under b w) (hm : ∀ x, m = some x → b.mvar x = front) :
    ∃ w', w.skip m = some w' := by
  refine Option.isSome_iff_exists.mp ?_
  rw [skip, hahead, Key.takeSubtrees_append hfront]
  cases m with
  | none => rfl
  | some m =>
      cases hlookup : w.mvars.lookup m with
      | none => simp [skipped, hlookup]
      | some keys =>
          have heq : keys = front :=
            (hb.mvar m keys hlookup).symm.trans (hm m rfl)
          simp [skipped, hlookup, heq]

end Walk

end TermIndex
