import TermIndex.Proofs.Filling
import TermIndex.Proofs.RoundTrip

/-!
# Variables up to renaming

The stars of a stored sequence and the metavariables of a query are names only.
If the stars of the sequence are renamed, and the metavariables of the query,
then what fits under some bindings fits under the renamed ones: a subtree that a
star takes is renamed with the query, and keys that a wildcard skips are renamed
with the sequence (`Fits.rename`). This direction asks for nothing but that the
renamed bindings agree with the others where they are used, which an injective
renaming grants. The other direction is the same statement for the inverse.
-/

namespace TermIndex

/-! ## Metavariables of a pattern -/

namespace Pattern

mutual

/-- The pattern with other metavariables, in wildcards and in fixed nodes. -/
@[simp] def rename (σ : MVar → MVar) : Pattern → Pattern
  | .star m => .star (m.map σ)
  | .hidden => .hidden
  | .fixed m => .fixed (σ m)
  | .app h args => .app h (renameAll σ args)
  | .lit l => .lit l
  | .sort => .sort
  | .lam body => .lam (rename σ body)
  | .pi domain body => .pi (rename σ domain) (rename σ body)
  | .proj st i value args => .proj st i (rename σ value) (renameAll σ args)

@[simp] def renameAll (σ : MVar → MVar) : List Pattern → List Pattern
  | [] => []
  | p :: ps => rename σ p :: renameAll σ ps

end

mutual

/-- The metavariables of a pattern, those of fixed nodes included. -/
@[simp] def unknowns : Pattern → List MVar
  | .star m => m.toList
  | .fixed m => [m]
  | .app _ args => unknownsAll args
  | .lam body => unknowns body
  | .pi domain body => unknowns domain ++ unknowns body
  | .proj _ _ value args => unknowns value ++ unknownsAll args
  | .hidden | .lit _ | .sort => []

@[simp] def unknownsAll : List Pattern → List MVar
  | [] => []
  | p :: ps => unknowns p ++ unknownsAll ps

end

variable {σ τ : MVar → MVar} {p : Pattern} {k : Key}

theorem renameAll_append (ps qs : List Pattern) :
    renameAll σ (ps ++ qs) = renameAll σ ps ++ renameAll σ qs := by
  induction ps with
  | nil => rfl
  | cons p ps ih => simp [ih]

theorem length_renameAll (ps : List Pattern) :
    (renameAll σ ps).length = ps.length := by
  induction ps with
  | nil => rfl
  | cons p ps ih => simp [ih]

theorem unknownsAll_append (ps qs : List Pattern) :
    unknownsAll (ps ++ qs) = unknownsAll ps ++ unknownsAll qs := by
  induction ps with
  | nil => rfl
  | cons p ps ih => simp [ih]

/-- A node keeps its key, and its children are renamed. -/
theorem rename_of_key (hk : p.key? = some k) :
    (p.rename σ).key? = some k
      ∧ (p.rename σ).children = renameAll σ p.children := by
  cases p <;> cases hk <;> simp [key?, children, length_renameAll]

theorem unknowns_of_key (hk : p.key? = some k) (ps : List Pattern) :
    ∀ m ∈ unknownsAll (p.children ++ ps), m ∈ unknownsAll (p :: ps) := by
  intro m hm
  rw [unknownsAll_append] at hm
  cases p <;> cases hk <;> simp_all [children]

theorem isStar_rename (p : Pattern) : (p.rename σ).isStar = p.isStar := by
  cases p <;> simp [isStar]

mutual

theorem size_rename : ∀ p : Pattern, (p.rename σ).size = p.size
  | .app _ args => by simp [size, sizes_renameAll args]
  | .lam body => by simp [size, size_rename body]
  | .pi domain body => by simp [size, size_rename domain, size_rename body]
  | .proj _ _ value args => by
      simp [size, size_rename value, sizes_renameAll args]
  | .star _ | .hidden | .fixed _ | .lit _ | .sort => by simp [size]

theorem sizes_renameAll : ∀ ps : List Pattern,
    sizes (renameAll σ ps) = sizes ps
  | [] => rfl
  | p :: ps => by simp [sizes, size_rename p, sizes_renameAll ps]

end

mutual

theorem unknowns_rename : ∀ p : Pattern,
    (p.rename σ).unknowns = p.unknowns.map σ
  | .star m => by cases m <;> simp
  | .app _ args => by simp [unknowns_renameAll args]
  | .lam body => by simp [unknowns_rename body]
  | .pi domain body => by simp [unknowns_rename domain, unknowns_rename body]
  | .proj _ _ value args => by
      simp [unknowns_rename value, unknowns_renameAll args]
  | .hidden | .fixed _ | .lit _ | .sort => by simp

theorem unknowns_renameAll : ∀ ps : List Pattern,
    unknownsAll (renameAll σ ps) = (unknownsAll ps).map σ
  | [] => rfl
  | p :: ps => by simp [unknowns_rename p, unknowns_renameAll ps]

end

mutual

/-- A renaming is undone by one that goes back on the metavariables. -/
theorem rename_rename : ∀ p : Pattern, (∀ m ∈ p.unknowns, τ (σ m) = m) →
    (p.rename σ).rename τ = p
  | .star m, h => by cases m <;> simp_all
  | .fixed m, h => by simp_all
  | .app _ args, h => by simp [renameAll_renameAll args h]
  | .lam body, h => by simp [rename_rename body h]
  | .pi domain body, h => by
      obtain ⟨hdomain, hbody⟩ := List.forall_mem_append.mp h
      simp [rename_rename domain hdomain, rename_rename body hbody]
  | .proj _ _ value args, h => by
      obtain ⟨hvalue, hargs⟩ := List.forall_mem_append.mp h
      simp [rename_rename value hvalue, renameAll_renameAll args hargs]
  | .hidden, _ | .lit _, _ | .sort, _ => by simp

theorem renameAll_renameAll : ∀ ps : List Pattern,
    (∀ m ∈ unknownsAll ps, τ (σ m) = m) → renameAll τ (renameAll σ ps) = ps
  | [], _ => rfl
  | p :: ps, h => by
      obtain ⟨hp, hps⟩ := List.forall_mem_append.mp h
      simp [rename_rename p hp, renameAll_renameAll ps hps]

end

end Pattern

/-! ## Stars of a sequence -/

namespace Key

variable {ρ : Nat → Nat} {ks : List Key}

theorem arity_mapStar (k : Key) : (k.mapStar ρ).arity = k.arity := by
  cases k <;> rfl

theorem mapStar_of_key {p : Pattern} {k : Key} (hk : p.key? = some k) :
    k.mapStar ρ = k := by
  cases p <;> cases hk <;> rfl

theorem starIds_mapStar (ks : List Key) :
    starIds (ks.map (mapStar ρ)) = (starIds ks).map ρ := by
  rw [starIds, starIds, List.filterMap_map, List.map_filterMap]
  refine List.filterMap_congr fun k _ => ?_
  cases k <;> rfl

theorem mapStar_mapStar {ρ' : Nat → Nat}
    (h : ∀ id ∈ starIds ks, ρ' (ρ id) = id) :
    (ks.map (mapStar ρ)).map (mapStar ρ') = ks := by
  rw [List.map_map]
  have hcomp : mapStar ρ' ∘ mapStar ρ = mapStar (ρ' ∘ ρ) := by
    funext k
    cases k <;> rfl
  rw [hcomp, map_mapStar_eq_self_iff]
  exact h

theorem completes_mapStar {n : Nat} (h : Completes n ks) :
    Completes n (ks.map (mapStar ρ)) := by
  induction ks generalizing n with
  | nil => exact h
  | cons k ks ih =>
      obtain ⟨j, rfl, hks⟩ := completes_cons_iff.mp h
      refine completes_cons_iff.mpr ⟨j, rfl, ?_⟩
      rw [arity_mapStar]
      exact ih hks

theorem check_mapStar (h : check ks = .ok ()) :
    check (ks.map (mapStar ρ)) = .ok () := by
  obtain ⟨hcomplete, hproper⟩ := check_eq_ok_iff.mp h
  refine check_eq_ok_iff.mpr ⟨completes_mapStar hcomplete, ?_⟩
  intro k hk
  obtain ⟨k', hk', rfl⟩ := List.mem_map.mp hk
  have hgood := hproper k' hk'
  cases k' <;> exact hgood

theorem skipWorth_mapStar (ks : List Key) :
    skipWorth (ks.map (mapStar ρ)) = skipWorth ks := by
  cases ks with
  | nil => rfl
  | cons k ks => cases k <;> simp [skipWorth, mapStar]

end Key

/-! ## Fitting up to renaming -/

section

variable {o : LookupOptions} {σ : MVar → MVar} {ρ : Nat → Nat}
  {b b' : Bindings} {ps : List Pattern} {ks : List Key} {taken : List Nat}
  {worth : Nat}

theorem LookupOptions.live_map {m : Option MVar} :
    o.Live (m.map σ) ↔ o.Live m := by
  simp [Live]

/-- Only stars of the sequence take something. -/
theorem Fits.taken_subset (h : Fits o b ps ks taken worth) :
    ∀ id ∈ taken, id ∈ starIds ks := by
  induction h with
  | nil => exact List.forall_mem_nil _
  | node hkey _ ih =>
      rw [starIds_of_key hkey]
      exact ih
  | take _ _ _ ih =>
      intro id hid
      rcases List.mem_cons.mp hid with rfl | hid
      · exact List.mem_cons_self ..
      · exact List.mem_cons_of_mem _ (ih id hid)
  | skip _ _ _ _ ih =>
      intro id hid
      rw [starIds_append]
      exact List.mem_append_right _ (ih id hid)

/-- What fits still does when everything is renamed, the bindings included. -/
theorem Fits.rename (h : Fits o b ps ks taken worth)
    (hstar : ∀ id ∈ starIds ks, b'.star (ρ id) = (b.star id).rename σ)
    (hmvar : ∀ m ∈ Pattern.unknownsAll ps,
      b'.mvar (σ m) = (b.mvar m).map (Key.mapStar ρ)) :
    Fits o b' (Pattern.renameAll σ ps) (ks.map (Key.mapStar ρ)) (taken.map ρ)
      worth := by
  induction h with
  | nil => exact .nil
  | @node p k ps ks taken worth hkey _ ih =>
      rw [starIds_of_key hkey] at hstar
      obtain ⟨hkey', hchildren⟩ := Pattern.rename_of_key (σ := σ) hkey
      rw [List.map_cons, Key.mapStar_of_key hkey]
      refine .node hkey' ?_
      rw [hchildren, ← Pattern.renameAll_append]
      exact ih hstar fun m hm => hmvar m (Pattern.unknowns_of_key hkey ps m hm)
  | @take p id ps ks taken worth hlive hbound _ ih =>
      obtain ⟨hid, hrest⟩ := List.forall_mem_cons.mp hstar
      have hlive' : ∀ m, p.rename σ = .star m → ¬ o.Live m := by
        intro m hm hlivem
        cases p with
        | star m' =>
            obtain rfl := Pattern.star.inj hm
            exact hlive m' rfl (LookupOptions.live_map.mp hlivem)
        | _ => simp at hm
      have hbound' : b'.star (ρ id) = p.rename σ := by rw [hid, hbound]
      have htake := Fits.take hlive' hbound'
        (ih hrest fun m hm => hmvar m (List.mem_append_right _ hm))
      rwa [Pattern.size_rename] at htake
  | @skip m front ps ks taken worth hlive hfront hbound _ ih =>
      rw [starIds_append] at hstar
      obtain ⟨-, hrest⟩ := List.forall_mem_append.mp hstar
      rw [List.map_append, ← Key.skipWorth_mapStar (ρ := ρ) front]
      refine .skip (LookupOptions.live_map.mpr hlive)
        (Key.completes_mapStar hfront) ?_
        (ih hrest fun m hm => hmvar m (List.mem_append_right _ hm))
      intro x hx
      obtain ⟨y, rfl, rfl⟩ := Option.map_eq_some_iff.mp hx
      rw [hmvar y (by simp), hbound y rfl]

end

namespace Bindings

variable {ρ back : Nat → Nat} {σ undo : MVar → MVar}

/-- The bindings under other names, if `back` and `undo` lead from these to the
old ones. -/
def rename (b : Bindings) (ρ back : Nat → Nat) (σ undo : MVar → MVar) :
    Bindings :=
  ⟨fun id => (b.star (back id)).rename σ,
    fun m => (b.mvar (undo m)).map (Key.mapStar ρ)⟩

theorem star_rename (b : Bindings) {id : Nat} (h : back (ρ id) = id) :
    (b.rename ρ back σ undo).star (ρ id) = (b.star id).rename σ :=
  congrArg (fun id => (b.star id).rename σ) h

theorem mvar_rename (b : Bindings) {m : MVar} (h : undo (σ m) = m) :
    (b.rename ρ back σ undo).mvar (σ m) = (b.mvar m).map (Key.mapStar ρ) :=
  congrArg (fun m => (b.mvar m).map (Key.mapStar ρ)) h

end Bindings

namespace Search

variable {α : Type} {o : LookupOptions} {q : Pattern} {ks : List Key}
  {ρ back : Nat → Nat} {σ undo : MVar → MVar}

theorem RootAllows.rename (h : RootAllows o q ks) :
    RootAllows o (q.rename σ) (ks.map (Key.mapStar ρ)) := by
  refine h.imp_right fun hroot => ?_
  obtain ⟨hq, hks⟩ := hroot
  rw [Pattern.isStar_rename]
  refine ⟨hq, ?_⟩
  cases ks with
  | nil => exact nofun
  | cons k ks =>
      intro id hid
      cases k with
      | star id' => exact hks id' rfl
      | _ => cases hid

/-- What stars take is as large under other names. -/
theorem sum_size_rename {b : Bindings} {taken : List Nat}
    (hback : ∀ id ∈ taken, back (ρ id) = id) :
    ∑ id ∈ (taken.map ρ).toFinset, ((b.rename ρ back σ undo).star id).size
      = ∑ id ∈ taken.toFinset, (b.star id).size := by
  have himage : (taken.map ρ).toFinset = taken.toFinset.image ρ := by
    ext id
    simp
  have hinj : Set.InjOn ρ taken.toFinset := by
    intro i hi j hj hij
    rw [← hback i (List.mem_toFinset.mp hi), hij,
      hback j (List.mem_toFinset.mp hj)]
  rw [himage, Finset.sum_image hinj]
  refine Finset.sum_congr rfl fun id hid => ?_
  rw [b.star_rename (hback id (List.mem_toFinset.mp hid)), Pattern.size_rename]

/-- The hit with other numbers for its stars. -/
def renamed (ρ : Nat → Nat) (hit : Hit α) : Hit α :=
  { hit with keys := hit.keys.map (Key.mapStar ρ) }

/-- A hit is renamed with the sequence and the query. -/
theorem hitOn_rename {vs : List α} (hks : Key.Completes 1 ks)
    (hback : ∀ id ∈ starIds ks, back (ρ id) = id)
    (hundo : ∀ m ∈ q.unknowns, undo (σ m) = m) {hit : Hit α}
    (hhit : hitOn o q (ks, vs) = some hit) :
    hitOn o (q.rename σ) (ks.map (Key.mapStar ρ), vs)
      = some (renamed ρ hit) := by
  obtain ⟨hroot, b, taken, worth, hfits⟩ :=
    fits_of_hitOn hks (Option.isSome_of_eq_some hhit)
  have hfits' : Fits o (b.rename ρ back σ undo) [q.rename σ]
      (ks.map (Key.mapStar ρ)) (taken.map ρ) worth := by
    refine hfits.rename (fun id hid => b.star_rename (hback id hid)) ?_
    intro m hm
    exact b.mvar_rename (hundo m (by simpa using hm))
  obtain ⟨hit₀, hhit₀, hentry, hscore⟩ :=
    hitOn_of_fits (e := (ks, vs)) hroot hfits
  obtain ⟨hit', hhit', hentry', hscore'⟩ := hitOn_of_fits
    (e := (ks.map (Key.mapStar ρ), vs)) hroot.rename hfits'
  obtain rfl := Option.some.inj (hhit.symm.trans hhit₀)
  rw [sum_size_rename fun id hid => hback id (hfits.taken_subset id hid),
    ← hscore] at hscore'
  obtain ⟨hkeys, hvalues⟩ := Prod.mk.inj hentry
  obtain ⟨hkeys', hvalues'⟩ := Prod.mk.inj hentry'
  rw [hhit', renamed, Option.some.injEq, Hit.mk.injEq, hkeys, hvalues]
  exact ⟨hkeys', hvalues', Nat.add_right_cancel hscore'⟩

/-- A search for a renamed query in a renamed sequence comes to the renamed hit,
if it comes to any. -/
theorem hitOn_rename_eq (vs : List α) (hks : Key.Completes 1 ks)
    (hback : ∀ id ∈ starIds ks, back (ρ id) = id)
    (hundo : ∀ m ∈ q.unknowns, undo (σ m) = m) :
    hitOn o (q.rename σ) (ks.map (Key.mapStar ρ), vs)
      = (hitOn o q (ks, vs)).map (renamed ρ) := by
  cases hhit : hitOn o q (ks, vs) with
  | some hit => exact hitOn_rename hks hback hundo hhit
  | none =>
      -- A hit of the renamed query is renamed back.
      refine Option.eq_none_iff_forall_not_mem.mpr fun hit' hhit' => ?_
      have hback' : ∀ id ∈ starIds (ks.map (Key.mapStar ρ)),
          ρ (back id) = id := by
        rw [Key.starIds_mapStar]
        intro id hid
        obtain ⟨i, hi, rfl⟩ := List.mem_map.mp hid
        rw [hback i hi]
      have hundo' : ∀ m ∈ (q.rename σ).unknowns, σ (undo m) = m := by
        rw [Pattern.unknowns_rename]
        intro m hm
        obtain ⟨x, hx, rfl⟩ := List.mem_map.mp hm
        rw [hundo x hx]
      have hold := hitOn_rename (Key.completes_mapStar hks) hback' hundo' hhit'
      rw [Pattern.rename_rename q hundo, Key.mapStar_mapStar hback,
        hhit] at hold
      cases hold

/-- **Only the pattern of variables matters.** Take a sequence that passes the
check, and a forest that holds nothing else. If the stars of the sequence are
renamed without confusing any two, and the metavariables of the query, in
wildcards and fixed nodes, then the sequence still passes, and in a forest that
holds nothing else the query hits it exactly if it did before, with the same
score. -/
theorem calls_rename {ks : List Key} (hks : Key.check ks = .ok ())
    (vs : List α) (q : Pattern) (o : LookupOptions) {ρ : Nat → Nat}
    {σ : MVar → MVar} (hρ : Set.InjOn ρ {id | id ∈ starIds ks})
    (hσ : Set.InjOn σ {m | m ∈ q.unknowns}) :
    Key.check (ks.map (Key.mapStar ρ)) = .ok ()
    ∧ ∃ call : Option (Hit α),
      (∀ f : Forest α, f.check = .ok () → f.entries = [(ks, vs)] →
        calls o f q = .ok (call.toList, true))
      ∧ ∀ f : Forest α, f.check = .ok () →
        f.entries = [(ks.map (Key.mapStar ρ), vs)] →
          calls o f (q.rename σ)
            = .ok ((call.map (renamed ρ)).toList, true) := by
  obtain ⟨hcomplete, -⟩ := Key.check_eq_ok_iff.mp hks
  have : Nonempty MVar := ⟨⟨0⟩⟩
  have hhit := hitOn_rename_eq (o := o) vs hcomplete
    (fun id hid => hρ.leftInvOn_invFunOn hid)
    (fun m hm => hσ.leftInvOn_invFunOn hm)
  refine ⟨Key.check_mapStar hks, hitOn o q (ks, vs), fun f hf hentries => ?_,
    fun f hf hentries => ?_⟩
  · exact calls_single (Forest.check_eq_ok_iff.mp hf) hentries o q
  · rw [← hhit]
    exact calls_single (Forest.check_eq_ok_iff.mp hf) hentries o (q.rename σ)

/-- Two stars change their numbers, and two metavariables, one of which is
fixed. -/
theorem calls_rename_swapped :
    ∃ (f f' : Forest Nat) (ks ks' : List Key) (q q' : Pattern),
      ks = [.pi, .star 0, .star 1] ∧ ks' = [.pi, .star 1, .star 0]
      ∧ q = .pi (.fixed ⟨3⟩) (.star (some ⟨4⟩))
      ∧ q' = .pi (.fixed ⟨4⟩) (.star (some ⟨3⟩))
      ∧ Forest.empty.insert ks 7 = .ok f ∧ Forest.empty.insert ks' 7 = .ok f'
      ∧ calls .standard f q = .ok ([⟨ks, [7], 1⟩], true)
      ∧ calls .standard f' q' = .ok ([⟨ks', [7], 1⟩], true) := by
  let ks := [Key.pi, .star 0, .star 1]
  let q := Pattern.pi (.fixed ⟨3⟩) (.star (some ⟨4⟩))
  have hρ : Set.InjOn (fun id => 1 - id) {id | id ∈ starIds ks} := by
    have hids : ∀ i ∈ starIds ks, ∀ j ∈ starIds ks, 1 - i = 1 - j → i = j := by
      decide
    exact fun i hi j hj hij => hids i hi j hj hij
  have hσ : Set.InjOn (fun m : MVar => (⟨7 - m.id⟩ : MVar))
      {m | m ∈ q.unknowns} := by
    have hids : ∀ m ∈ q.unknowns, ∀ n ∈ q.unknowns,
        (⟨7 - m.id⟩ : MVar) = ⟨7 - n.id⟩ → m = n := by decide
    exact fun m hm n hn hmn => hids m hm n hn hmn
  obtain ⟨f, hf, hcheck, hentries, hrun⟩ : ∃ f : Forest Nat,
      Forest.empty.insert ks 7 = .ok f ∧ f.check = .ok ()
      ∧ f.entries = [(ks, [7])]
      ∧ calls .standard f q = .ok ([⟨ks, [7], 1⟩], true) := by
    refine ⟨_, rfl, rfl, ?_, ?_⟩
    · rfl
    · rfl
  obtain ⟨f', hf', hcheck', hentries'⟩ : ∃ f' : Forest Nat,
      Forest.empty.insert [.pi, .star 1, .star 0] 7 = .ok f'
      ∧ f'.check = .ok () ∧ f'.entries = [([.pi, .star 1, .star 0], [7])] := by
    refine ⟨_, rfl, rfl, ?_⟩
    rfl
  obtain ⟨-, call, hcalls, hcalls'⟩ :=
    calls_rename (by decide) [7] q .standard hρ hσ
  have hcall : call = some ⟨ks, [7], 1⟩ := by
    have hfound := hcalls f hcheck hentries
    rw [hrun, Except.ok.injEq, Prod.mk.injEq] at hfound
    exact Option.toList_eq_singleton_iff.mp hfound.1.symm
  rw [hcall] at hcalls'
  exact ⟨f, f', ks, _, q, _, rfl, rfl, rfl, rfl, hf, hf', hrun,
    hcalls' f' hcheck' hentries'⟩

end Search

end TermIndex
