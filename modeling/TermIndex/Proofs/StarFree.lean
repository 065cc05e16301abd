import TermIndex.Proofs.Filling

/-!
# Queries against sequences without stars

A sequence without stars takes nothing of a query. So a query matches it only if
its wildcards skip what is missing: the sequence is the flattened query with a
complete sequence in the place of every star, the same one wherever a
metavariable stands (`calls_starFree`). The score is the size of the query and
one for each wildcard that stands for a hidden subtree.

The stars of the flattened query are replaced by place, not by number, since
what is chosen for a metavariable is already the same at all its places.
-/

namespace TermIndex

/-- The sequence with the `i`-th star replaced by the `i`-th of these. -/
def Key.fillStars : List Key → List (List Key) → List Key
  | [], _ => []
  | .star _ :: ks, fs => fs.headD [] ++ fillStars ks fs.tail
  | k :: ks, fs => k :: fillStars ks fs

/-- What the wildcards with these metavariables skip: complete sequences without
stars, for a metavariable the one that `σ` gives, and for an anonymous wildcard
any. -/
def Choice (σ : MVar → List Key) :
    List (Option MVar) → List (List Key) → Prop :=
  List.Forall₂ fun m f => Key.check f = .ok () ∧ starIds f = []
    ∧ ∀ x, m = some x → σ x = f

/-- How many of these sequences are hidden subtrees. -/
def hiddenCount (fs : List (List Key)) : Nat :=
  fs.countP fun f => f.head? = some .hidden

theorem hiddenCount_cons (f : List Key) (fs : List (List Key)) :
    hiddenCount (f :: fs) = hiddenCount fs + skipWorth f := by
  simp [hiddenCount, List.countP_cons, skipWorth]

theorem Pattern.fillStars_of_key {p : Pattern} {k : Key} (h : p.key? = some k)
    (ks : List Key) (fs : List (List Key)) :
    Key.fillStars (k :: ks) fs = k :: Key.fillStars ks fs := by
  cases p <;> cases h <;> rfl

variable {o : LookupOptions} {σ : MVar → List Key} {ps : List Pattern}
  {ks : List Key}

/-- A match with a sequence without stars is a choice for the wildcards. -/
theorem Fits.exists_choice {b : Bindings} {taken : List Nat} {worth : Nat}
    (h : Fits o b ps ks taken worth) (hks : Key.Proper ks)
    (hstars : starIds ks = []) :
    ∃ fs, Choice b.mvar (Pattern.wildcardsAll ps) fs
      ∧ ∀ seen, Key.fillStars
        (Slot.numberedFrom seen (Pattern.slotsAll ps)).1 fs = ks := by
  induction h with
  | nil => exact ⟨[], .nil, fun _ => rfl⟩
  | @node p k ps ks taken worth hkey h ih =>
      obtain ⟨-, hks⟩ := List.forall_mem_cons.mp hks
      rw [starIds_of_key hkey] at hstars
      obtain ⟨fs, hchoice, hfill⟩ := ih hks hstars
      refine ⟨fs, by rwa [Pattern.wildcardsAll_of_key hkey], fun seen => ?_⟩
      rw [Pattern.slotsAll_of_key hkey, Slot.numberedFrom_key,
        Pattern.fillStars_of_key hkey, hfill]
  | take _ _ _ _ => cases hstars
  | @skip m front ps ks taken worth hlive hfront hbound h ih =>
      obtain ⟨hproper, hks⟩ := List.forall_mem_append.mp hks
      rw [starIds_append, List.append_eq_nil_iff] at hstars
      obtain ⟨fs, hchoice, hfill⟩ := ih hks hstars.2
      have hcheck := Key.check_eq_ok_iff.mpr ⟨hfront, hproper⟩
      refine ⟨front :: fs, .cons ⟨hcheck, hstars.1, hbound⟩ hchoice,
        fun seen => ?_⟩
      obtain ⟨id, seen', heq, -⟩ :=
        Slot.numberedFrom_wild seen m (Pattern.slotsAll ps)
      have hslots : Pattern.slotsAll (.star m :: ps)
          = .wild m :: Pattern.slotsAll ps := rfl
      rw [hslots, heq]
      exact congrArg (front ++ ·) (hfill seen')

/-- A choice for the wildcards is a match. -/
theorem fits_of_choice (ho : o.unify = true) (s : Nat → Pattern)
    (ps : List Pattern) : ∀ {ks : List Key} {fs : List (List Key)}
      (seen : List (Option MVar)), Choice σ (Pattern.wildcardsAll ps) fs →
      Key.fillStars (Slot.numberedFrom seen (Pattern.slotsAll ps)).1 fs = ks →
      Fits o ⟨s, σ⟩ ps ks [] (Pattern.sizes ps + hiddenCount fs) := by
  induction ps using Pattern.nodes_induction with
  | nil =>
      intro ks fs seen hchoice hfill
      subst hfill
      cases hchoice
      exact .nil
  | star m ps ih =>
      intro ks fs seen hchoice hfill
      subst hfill
      obtain ⟨id, seen', heq, -⟩ :=
        Slot.numberedFrom_wild seen m (Pattern.slotsAll ps)
      have hslots : Pattern.slotsAll (.star m :: ps)
          = .wild m :: Pattern.slotsAll ps := rfl
      rw [hslots, heq]
      cases hchoice with
      | @cons _ f _ fs hf hchoice =>
          obtain ⟨hcheck, -, hbound⟩ := hf
          obtain ⟨hcompletes, -⟩ := Key.check_eq_ok_iff.mp hcheck
          have hskip := Fits.skip (Or.inr ho) hcompletes hbound
            (ih seen' hchoice rfl)
          have hworth : skipWorth f + (Pattern.sizes ps + hiddenCount fs)
              = Pattern.sizes (.star m :: ps) + hiddenCount (f :: fs) := by
            rw [hiddenCount_cons, Pattern.sizes, Pattern.size]
            omega
          rwa [hworth] at hskip
  | node p k ps hk _ ih =>
      intro ks fs seen hchoice hfill
      subst hfill
      rw [Pattern.wildcardsAll_of_key hk] at hchoice
      rw [Pattern.slotsAll_of_key hk, Slot.numberedFrom_key,
        Pattern.fillStars_of_key hk, Pattern.sizes_of_key hk, Nat.add_assoc]
      exact .node hk (ih seen hchoice rfl)

namespace Search

variable {α : Type} {q : Pattern} {vs : List α}

/-- A hit on a sequence without stars comes with a choice. -/
theorem exists_choice_of_hitOn (hks : Key.check ks = .ok ())
    (hstars : starIds ks = []) (h : (hitOn o q (ks, vs)).isSome = true) :
    ∃ σ fs, Choice σ q.wildcards fs ∧ Key.fillStars q.keys fs = ks := by
  obtain ⟨hcompletes, hproper⟩ := Key.check_eq_ok_iff.mp hks
  obtain ⟨-, b, taken, worth, hfits⟩ := fits_of_hitOn hcompletes h
  obtain ⟨fs, hchoice, hfill⟩ := hfits.exists_choice hproper hstars
  rw [Pattern.wildcardsAll_singleton] at hchoice
  rw [Pattern.slotsAll_singleton] at hfill
  exact ⟨b.mvar, fs, hchoice, hfill []⟩

/-- A choice gives a hit. -/
theorem hitOn_of_choice {fs : List (List Key)} (ho : o.unify = true)
    (hroot : RootAllows o q ks) (hchoice : Choice σ q.wildcards fs)
    (hfill : Key.fillStars q.keys fs = ks) :
    ∃ hit, hitOn o q (ks, vs) = some hit
      ∧ (hit.keys, hit.values) = (ks, vs)
      ∧ hit.score = q.size + hiddenCount fs := by
  rw [← Pattern.wildcardsAll_singleton] at hchoice
  rw [Pattern.keys, ← Pattern.slotsAll_singleton] at hfill
  have hfits := fits_of_choice ho (fun _ => .hidden) [q] [] hchoice hfill
  have hsizes : Pattern.sizes [q] = q.size := by
    rw [Pattern.sizes, Pattern.sizes, Nat.add_zero]
  rw [hsizes] at hfits
  exact hitOn_of_fits (e := (ks, vs)) hroot hfits

/-- **Repeated metavariables against a sequence without stars.** There is a call
exactly if the flattened query becomes the sequence once each of its stars is
replaced by a complete sequence, which for a metavariable is the same at every
place. The score is the size of the query, and one for each of its wildcards
that stands for a hidden subtree. -/
theorem calls_starFree {f : Forest α} (hf : f.check = .ok ())
    (hks : Key.check ks = .ok ()) (hentries : f.entries = [(ks, vs)])
    (hstars : starIds ks = []) (ho : o.unify = true)
    (hroot : o.allowRootStar = true ∨ q.isStar = false) :
    ∃ call : Option (Hit α), calls o f q = .ok (call.toList, true)
      ∧ (call.isSome = true
        ↔ ∃ σ fs, Choice σ q.wildcards fs ∧ Key.fillStars q.keys fs = ks)
      ∧ ∀ hit ∈ call, (hit.keys, hit.values) = (ks, vs)
        ∧ ∀ σ fs, Choice σ q.wildcards fs → Key.fillStars q.keys fs = ks →
          hit.score = q.size + hiddenCount fs := by
  have hshaped := Forest.check_eq_ok_iff.mp hf
  have hhead : ∀ id, ks.head? ≠ some (.star id) := by
    intro id hid
    obtain ⟨rest, rfl⟩ := List.head?_eq_some_iff.mp hid
    cases hstars
  have hallows : RootAllows o q ks := hroot.imp_right fun hq => ⟨hq, hhead⟩
  refine ⟨hitOn o q (ks, vs), calls_single hshaped hentries o q,
    ⟨exists_choice_of_hitOn hks hstars, ?_⟩, fun hit hhit => ⟨?_, ?_⟩⟩
  · rintro ⟨σ, fs, hchoice, hfill⟩
    obtain ⟨hit, hhit, -⟩ := hitOn_of_choice ho hallows hchoice hfill
    rw [hhit]
    rfl
  · obtain ⟨σ, fs, hchoice, hfill⟩ :=
      exists_choice_of_hitOn hks hstars (Option.isSome_of_eq_some hhit)
    obtain ⟨hit', hhit', hentry, -⟩ :=
      hitOn_of_choice ho hallows hchoice hfill
    obtain rfl := Option.some.inj (hhit.symm.trans hhit')
    exact hentry
  · intro σ fs hchoice hfill
    obtain ⟨hit', hhit', -, hscore⟩ :=
      hitOn_of_choice ho hallows hchoice hfill
    obtain rfl := Option.some.inj (hhit.symm.trans hhit')
    exact hscore

/-- A metavariable skips two hidden subtrees, and an anonymous wildcard another
subtree. -/
theorem calls_starFree_hidden :
    ∃ (f : Forest Nat) (q : Pattern) (ks : List Key) (fs : List (List Key)),
      ks = [.app (.const ⟨"f"⟩) 3, .hidden, .hidden, .sort]
      ∧ q = .app (.const ⟨"f"⟩)
        [.star (some ⟨7⟩), .star (some ⟨7⟩), .star none]
      ∧ fs = [[.hidden], [.hidden], [.sort]]
      ∧ f.check = .ok () ∧ Key.check ks = .ok () ∧ f.entries = [(ks, [7])]
      ∧ starIds ks = [] ∧ q.isStar = false
      ∧ Choice (fun _ => [.hidden]) q.wildcards fs
      ∧ Key.fillStars q.keys fs = ks
      ∧ calls .standard f q = .ok ([⟨ks, [7], 3⟩], true) := by
  let q := Pattern.app (.const ⟨"f"⟩)
    [.star (some ⟨7⟩), .star (some ⟨7⟩), .star none]
  let ks := [Key.app (.const ⟨"f"⟩) 3, .hidden, .hidden, .sort]
  let fs : List (List Key) := [[.hidden], [.hidden], [.sort]]
  have hcheck : (Forest.only (ks, [7])).check = .ok () := rfl
  have hentries : (Forest.only (ks, [7])).entries = [(ks, [7])] := rfl
  have hks : Key.check ks = .ok () := rfl
  have hchoice : Choice (fun _ => [.hidden]) q.wildcards fs :=
    .cons ⟨rfl, rfl, fun _ _ => rfl⟩ (.cons ⟨rfl, rfl, fun _ _ => rfl⟩
      (.cons ⟨rfl, rfl, nofun⟩ .nil))
  have hfill : Key.fillStars q.keys fs = ks := rfl
  obtain ⟨call, hcalls, hiff, hscore⟩ := calls_starFree (o := .standard)
    (q := q) hcheck hks hentries rfl rfl (Or.inr rfl)
  obtain ⟨⟨keys, values, score⟩, rfl⟩ :=
    Option.isSome_iff_exists.mp (hiff.mpr ⟨_, fs, hchoice, hfill⟩)
  obtain ⟨hentry, hsize⟩ := hscore _ rfl
  obtain ⟨rfl, rfl⟩ := Prod.mk.inj hentry
  obtain rfl : score = 3 := hsize _ fs hchoice hfill
  exact ⟨_, q, ks, fs, rfl, rfl, rfl, hcheck, hks, hentries, rfl, rfl, hchoice,
    hfill, hcalls⟩

end Search

end TermIndex
