import TermIndex.Proofs.Alignment
import TermIndex.Proofs.Lookups

/-!
# Every stored term finds itself

Storing and querying encode a term in different modes. The direct encoding of a
stored term is that of a query with unification (`direct_store`), and without
unification the metavariables are fixed instead, so that what is stored covers
the query (`covers_fixed`).

With unification, every wildcard of the query skips the star that was stored for
it, and all nodes count (`Fits.self`).
-/

namespace TermIndex

/-! ## A pattern fits its own sequence -/

namespace Slot

/-- The first place of a metavariable stays where it is. -/
theorem idxOf?_append {seen : List (Option MVar)} {m : Option MVar} {id : Nat}
    (h : seen.idxOf? m = some id) (new : List (Option MVar)) :
    (seen ++ new).idxOf? m = some id := by
  rw [List.idxOf?, List.findIdx?_append]
  rw [List.idxOf?] at h
  rw [h]
  rfl

theorem idxOf?_concat {seen : List (Option MVar)} {m : Option MVar}
    (h : seen.idxOf? m = none) : (seen ++ [m]).idxOf? m = some seen.length := by
  rw [List.idxOf?, List.findIdx?_append]
  rw [List.idxOf?] at h
  simp [h]

theorem idxOf?_numberedFrom {x : MVar} {id : Nat} (slots : List Slot) :
    ∀ {seen : List (Option MVar)}, seen.idxOf? (some x) = some id →
      (numberedFrom seen slots).2.idxOf? (some x) = some id := by
  induction slots with
  | nil => exact fun h => h
  | cons slot rest ih =>
      intro seen h
      cases slot with
      | key k => exact ih h
      | wild m =>
          obtain ⟨id', seen', heq, hcases⟩ := numberedFrom_wild seen m rest
          rw [heq]
          rcases hcases with ⟨rfl, -, -⟩ | ⟨rfl, -, -⟩
          · exact ih h
          · exact ih (idxOf?_append h [m])

end Slot

/-- Patterns fit the keys they are numbered to, with every wildcard skipping its
own star. -/
theorem Fits.self {o : LookupOptions} (ho : o.unify = true) {b : Bindings}
    (ps : List Pattern) : ∀ {seen : List (Option MVar)},
    (∀ x id, (Slot.numberedFrom seen (Pattern.slotsAll ps)).2.idxOf? (some x)
      = some id → b.mvar x = [.star id]) →
    Fits o b ps (Slot.numberedFrom seen (Pattern.slotsAll ps)).1 []
      (Pattern.sizes ps) := by
  induction ps using Pattern.nodes_induction with
  | nil => exact fun _ => .nil
  | star m ps ih =>
      intro seen hb
      rw [Pattern.slotsAll, Pattern.slots, List.singleton_append] at hb ⊢
      obtain ⟨id, seen', heq, hcases⟩ :=
        Slot.numberedFrom_wild seen m (Pattern.slotsAll ps)
      rw [heq] at hb ⊢
      have hbound : ∀ x, m = some x → b.mvar x = [.star id] := by
        rintro x rfl
        refine hb x id (Slot.idxOf?_numberedFrom _ ?_)
        rcases hcases with ⟨rfl, -, hid⟩ | ⟨rfl, rfl, hnone⟩
        · exact hid
        · exact Slot.idxOf?_concat (hnone x rfl)
      have hskip := Fits.skip (Or.inr ho) (rfl : Key.Completes 1 [.star id])
        hbound (ih hb)
      rwa [show skipWorth [.star id] = (Pattern.star m).size from rfl] at hskip
  | node p k ps hk _ ih =>
      intro seen hb
      rw [Pattern.slotsAll_of_key hk] at hb ⊢
      rw [Pattern.sizes_of_key hk]
      exact .node hk (ih hb)

theorem Fits.keys_self {o : LookupOptions} (ho : o.unify = true) (p : Pattern) :
    ∃ b, Fits o b [p] p.keys [] p.size := by
  let seen := (Slot.numberedFrom [] (Pattern.slotsAll [p])).2
  let b : Bindings :=
    ⟨fun _ => .hidden, fun x => [.star ((seen.idxOf? (some x)).getD 0)]⟩
  have hfits : Fits o b [p] (Slot.numberedFrom [] (Pattern.slotsAll [p])).1 []
      (Pattern.sizes [p]) :=
    Fits.self ho [p] fun x id hid => by simp only [b, seen, hid]; rfl
  rw [Pattern.slotsAll_singleton, Pattern.sizes, Pattern.sizes] at hfits
  exact ⟨b, hfits⟩

/-! ## Modes -/

namespace Encoder

variable {enc : Encoder} {t : Term} {depth : Nat}

/-- A query that unifies is encoded like a stored term. -/
theorem direct_store (enc : Encoder) (fuel : Nat) (t : Term) (depth : Nat) :
    (enc.inMode .store).direct fuel t depth
      = (enc.inMode (.query true)).direct fuel t depth := by
  have hview : ∀ (t : Term) (depth : Nat),
      (enc.inMode .store).view t depth
        = (enc.inMode (.query true)).view t depth := by
    intro t depth
    by_cases ht : ∀ m, t.head ≠ .mvar m
    · rw [view_inMode _ _ _ ht, view_inMode _ _ _ ht]
    · push Not at ht
      obtain ⟨m, hm⟩ := ht
      rw [view_mvar _ _ hm, view_mvar _ _ hm]
      cases decide (0 < t.numArgs) <;> rfl
  induction fuel generalizing t depth with
  | zero => rfl
  | succ fuel ih =>
      have hrec : (enc.inMode .store).direct fuel
          = (enc.inMode (.query true)).direct fuel :=
        funext fun t => funext fun depth => ih t depth
      simp only [direct, hrec, hview]
      rfl

/-- A fixed metavariable stands for its wildcard, and a hidden subtree for an
anonymous one. -/
theorem covers_encodeMVar (enc : Encoder) (m : MVar) (applied : Bool) :
    Covers .fixed [(enc.inMode (.query true)).encodeMVar m applied]
      [(enc.inMode (.query false)).encodeMVar m applied] := by
  cases applied with
  | true => exact .left .nil
  | false => exact .mvar .nil

theorem covers_build_fixed {as es : List Pattern}
    (has : as.length = (enc.view t depth).parts.length)
    (hes : es.length = (enc.view t depth).parts.length)
    (h : Covers .fixed as es) :
    Covers .fixed [((enc.inMode (.query true)).view t depth).build as]
      [((enc.inMode (.query false)).view t depth).build es] := by
  by_cases ht : ∀ m, t.head ≠ .mvar m
  · rw [view_inMode _ _ _ ht, view_inMode _ _ _ ht]
    exact covers_build ht has hes h
  · push Not at ht
    obtain ⟨m, hm⟩ := ht
    rw [view_mvar _ _ hm, view_mvar _ _ hm]
    exact covers_encodeMVar enc m _

/-- Without unification, fixed metavariables stand where the stored term has
its wildcards. -/
theorem covers_fixed {fuel : Nat} {d : Pattern}
    (h : (enc.inMode (.query true)).direct fuel t depth = some d) :
    ∃ e, (enc.inMode (.query false)).direct fuel t depth = some e
      ∧ Covers .fixed [d] [e] :=
  exists_inMode covers_of_forall₂ (.left .nil) (.of_children rfl rfl .nil)
    covers_build_fixed h

/-- Without unification, no metavariable of a query becomes a wildcard. -/
theorem closes_fixed (enc : Encoder) :
    (enc.inMode (.query false)).Closes fun _ => True := by
  refine ⟨fun _ _ _ _ => trivial, fun _ _ _ _ _ _ => trivial,
    fun t m _ _ => ?_⟩
  cases decide (0 < t.numArgs) <;> rfl

end Encoder

/-! ## Lookups -/

namespace Index

variable {α : Type} [BEq α] [PartialEquivBEq α]

/-- **Every stored term finds itself.** If the encodings of a term can be
computed, then inserting it does not fail. From then on the term finds its
value, or one that took its place, in every mode and whatever else is inserted.
With unification the score is the full size of its pattern. -/
theorem lookup_self {ix : Index α} (hix : ix.check = .ok ()) {host : Host}
    {t : Term} {ps : List Pattern} (hps : ix.encodings host t = .ok ps)
    (value : α) :
    ∃ d, (∀ o : LookupOptions, o.unify = true → ix.query host o t = .ok d)
      ∧ ∃ ix₁, ix.insert host t value = .ok ix₁
        ∧ ∀ ops ix₂, ix₁.run ops = .ok ix₂ →
          ∀ o : LookupOptions, o.maxResults = none → o.minScore = 0 →
            d.isStar = false ∨ o.allowRootStar = true →
            ∃ groups, ix₂.lookup host o t = .ok groups
              ∧ ∃ g ∈ groups, (∃ v ∈ g.values, v = value ∨ v == value)
                ∧ (o.unify = true → g.score = d.size) := by
  let enc := ix.encoder host .store
  obtain ⟨d, rest, hstore, rfl⟩ := direct_of_encodings hps
  have hmem : d ∈ d :: rest := List.mem_cons_self ..
  have hd : (enc.inMode (.query true)).direct host.fuel t 0 = some d := by
    rw [← Encoder.direct_store]
    exact hstore
  obtain ⟨e, he, hcovers⟩ := Encoder.covers_fixed hd
  obtain ⟨hestar, heanon⟩ := (Encoder.closes_fixed enc).direct trivial he
  obtain ⟨ix₁, hinsert, hfinds⟩ := lookup_inserted hix hps value
  refine ⟨d, fun o ho => query_of_direct (by rw [ho]; exact hd), ix₁, hinsert,
    fun ops ix₂ hrun o hmax hmin hroot => ?_⟩
  cases ho : o.unify with
  | true =>
      obtain ⟨b, hfits⟩ := Fits.keys_self ho d
      obtain ⟨groups, hgroups, g, hg, hscore, hv⟩ :=
        hfinds ops ix₂ hrun o hmax hmin d hmem t d
          (query_of_direct (by rw [ho]; exact hd))
          (hroot.imp_left fun hstar => ⟨hstar, hstar⟩) b _ _ hfits
      exact ⟨groups, hgroups, g, hg, hv, fun _ => hscore⟩
  | false =>
      obtain ⟨b, taken, worth, hfits⟩ := hcovers.fits_stored heanon
      obtain ⟨groups, hgroups, g, hg, -, hv⟩ :=
        hfinds ops ix₂ hrun o hmax hmin d hmem t e
          (query_of_direct (by rw [ho]; exact he))
          (hroot.imp_left fun hstar => ⟨hstar, hestar⟩) b _ _ hfits
      exact ⟨groups, hgroups, g, hg, hv, nofun⟩

/-- A repeated metavariable is stored and looked up as one star. -/
theorem lookup_self_repeated :
    ∃ (host : Host) (t : Term) (ix₁ ix₂ : Index Nat) (groups : List (Hit Nat)),
      host = .ofTables 10 .empty .empty
      ∧ t = .app (.app (.const ⟨"f"⟩) (.mvar ⟨0⟩)) (.mvar ⟨0⟩)
      ∧ (empty .standard).insert host t 7 = .ok ix₁
      ∧ ix₁.run [.term host (.const ⟨"c"⟩) 8] = .ok ix₂
      ∧ ix₂.lookup host .standard t = .ok groups
      ∧ ∃ g ∈ groups, (∃ v ∈ g.values, v = 7 ∨ v == 7) ∧ g.score = 1 := by
  let host := Host.ofTables 10 .empty .empty
  let t : Term := .app (.app (.const ⟨"f"⟩) (.mvar ⟨0⟩)) (.mvar ⟨0⟩)
  let d : Pattern := .app (.const ⟨"f"⟩) [.star (some ⟨0⟩), .star (some ⟨0⟩)]
  have hps : (empty .standard : Index Nat).encodings host t = .ok [d] := rfl
  have hq : (empty .standard : Index Nat).query host .standard t = .ok d := rfl
  obtain ⟨d', hquery, ix₁, hinsert, hfinds⟩ := lookup_self rfl hps 7
  obtain rfl := Except.ok.inj (hq.symm.trans (hquery .standard rfl))
  obtain ⟨ix₂, hrun⟩ : ∃ ix₂,
      ix₁.run [.term host (.const ⟨"c"⟩) 8] = .ok ix₂ := by
    cases hinsert
    exact ⟨_, rfl⟩
  obtain ⟨groups, hgroups, g, hg, hv, hscore⟩ :=
    hfinds _ ix₂ hrun .standard rfl rfl (Or.inl rfl)
  exact ⟨host, t, ix₁, ix₂, groups, rfl, rfl, hinsert, hrun, hgroups, g, hg, hv,
    hscore rfl⟩

end Index

end TermIndex
