import TermIndex.Proofs.Covering
import TermIndex.Proofs.Reading

/-!
# Matching a linear query is unification

A stored sequence and a query are unifiable if the stars of the one and the
wildcards of the other can be replaced so that the same keys come out. For a
query in which no metavariable stands twice this is what the search decides
(`calls_unifiable`).

If the search succeeds, a common instance is read off the match. The stars are
replaced first, each by what it took with every wildcard of the query below it
made the same fixed pattern; then each wildcard that skipped something is
replaced by what it skipped with the stars replaced. Nothing runs in a circle,
since a wildcard either lies below a star or skips. That a metavariable stands
once makes these choices independent of each other (`Covers.append_apart`).

In the other direction the two instances are walked along together. Wherever the
query has a node, the sequence has its key or a star, so that a match is stuck
only at something that is bound already. With distinct stars nothing is.
-/

namespace TermIndex

namespace Pattern

/-- The metavariables of the wildcards, one for each place. -/
def mvars (p : Pattern) : List MVar := p.wildcards.filterMap id

def mvarsAll (ps : List Pattern) : List MVar := (wildcardsAll ps).filterMap id

theorem mvarsAll_singleton (p : Pattern) : mvarsAll [p] = p.mvars := by
  rw [mvarsAll, wildcardsAll_singleton, mvars]

theorem mvarsAll_cons (p : Pattern) (ps : List Pattern) :
    mvarsAll (p :: ps) = p.mvars ++ mvarsAll ps := by
  rw [mvarsAll, wildcardsAll_cons, List.filterMap_append]
  rfl

theorem mvarsAll_of_key {p : Pattern} {k : Key} (h : p.key? = some k)
    (ps : List Pattern) : mvarsAll (p :: ps) = mvarsAll (p.children ++ ps) := by
  rw [mvarsAll, wildcardsAll_of_key h]
  rfl

theorem nodup_mvarsAll_of_cons {p : Pattern} {ps : List Pattern}
    (h : (mvarsAll (p :: ps)).Nodup) : (mvarsAll ps).Nodup := by
  rw [mvarsAll_cons] at h
  exact (List.nodup_append.mp h).2.1

end Pattern

/-- The stars of the sequence and the wildcards of the query can be replaced by
patterns without wildcards, so that both have the same keys: a star by one
pattern wherever it stands, and so a metavariable, but each anonymous wildcard
by a pattern of its own. As nothing is left open in `e`, it differs from `q` at
the wildcards of `q` only. -/
def Unifiable (ks : List Key) (q : Pattern) : Prop :=
  ∃ (s : Nat → Pattern) (τ : MVar → Pattern) (d e : Pattern),
    Filled s ks [d] ∧ Covers τ [q] [e]
      ∧ d.wildcards = [] ∧ e.wildcards = [] ∧ d.keys = e.keys

variable {τ τ' : MVar → Pattern} {ds ds' es es' ps : List Pattern}

/-! ## Replacing wildcards -/

theorem Covers.length (h : Covers τ ds es) : ds.length = es.length := by
  induction h with
  | nil => rfl
  | node hd he _ ih =>
      rw [List.length_append, List.length_append, Pattern.length_children hd,
        Pattern.length_children he] at ih
      simpa using ih
  | _ => simpa using ‹_ = _›

/-- What comes behind some patterns is replaced on its own. -/
theorem Covers.drop (ds : List Pattern) : ∀ {es : List Pattern},
    Covers τ (ds ++ ds') es → Covers τ ds' (es.drop ds.length) := by
  induction ds using Pattern.nodes_induction with
  | nil => exact id
  | star m ds ih =>
      intro es h
      cases h with
      | mvar h => exact ih h
      | left h => exact ih h
      | right h => exact ih h
      | node hd _ _ => cases hd
  | node d k ds hk ih ihbelow =>
      intro es h
      cases h with
      | mvar h => cases hk
      | left h => cases hk
      | right h => exact ih h
      | @node _ e _ _ es hd he h =>
          have hbelow : Covers τ (d.children ++ ds ++ ds')
              (e.children ++ es) := by
            rwa [List.append_assoc]
          have hrest := ihbelow hbelow
          have hlength : d.children.length = e.children.length := by
            rw [Pattern.length_children hd, Pattern.length_children he]
          rwa [List.length_append, hlength, List.drop_append,
            List.drop_eq_nil_of_le (Nat.le_add_right ..), List.nil_append,
            Nat.add_sub_cancel_left] at hrest

theorem Covers.congr (h : Covers τ ds es)
    (hτ : ∀ m ∈ Pattern.mvarsAll ds, τ m = τ' m) : Covers τ' ds es := by
  induction h with
  | nil => exact .nil
  | @mvar m ds es h ih =>
      rw [Pattern.mvarsAll_cons] at hτ
      obtain ⟨hm, hτ⟩ := List.forall_mem_append.mp hτ
      rw [hm m (List.mem_singleton_self m)]
      exact .mvar (ih hτ)
  | left h ih =>
      rw [Pattern.mvarsAll_cons] at hτ
      exact .left (ih (List.forall_mem_append.mp hτ).2)
  | right h ih =>
      rw [Pattern.mvarsAll_cons] at hτ
      exact .right (ih (List.forall_mem_append.mp hτ).2)
  | node hd he h ih =>
      rw [Pattern.mvarsAll_of_key hd] at hτ
      exact .node hd he (ih hτ)

/-- Patterns that share no metavariable are replaced independently. -/
theorem Covers.append_apart (h : Covers τ ds es) (h' : Covers τ' ds' es')
    (hapart : ∀ m ∈ Pattern.mvarsAll ds, m ∉ Pattern.mvarsAll ds') :
    ∃ τ'', Covers τ'' (ds ++ ds') (es ++ es') := by
  classical
  refine ⟨fun m => if m ∈ Pattern.mvarsAll ds then τ m else τ' m, ?_⟩
  refine (h.congr fun m hm => ?_).append (h'.congr fun m hm => ?_)
  · rw [if_pos hm]
  · have hnot : m ∉ Pattern.mvarsAll ds := fun hds => hapart m hds hm
    rw [if_neg hnot]

/-- A pattern in front is replaced on its own, if no metavariable stands
twice. -/
theorem Covers.cons_apart {d e : Pattern} (hd : Covers τ' [d] [e])
    (h : Covers τ ds es) (hlinear : (Pattern.mvarsAll (d :: ds)).Nodup) :
    ∃ τ'', Covers τ'' (d :: ds) (e :: es) := by
  rw [Pattern.mvarsAll_cons] at hlinear
  obtain ⟨-, -, hapart⟩ := List.nodup_append.mp hlinear
  refine hd.append_apart h fun m hm hds => ?_
  rw [Pattern.mvarsAll_singleton] at hm
  exact hapart m hm m hds rfl

/-- What comes out of the children goes below a node. -/
theorem Covers.graft {d : Pattern} {k : Key} (hd : d.key? = some k)
    (h : Covers τ (d.children ++ ds) es) :
    ∃ e rest, e.key? = some k ∧ e.children ++ rest = es
      ∧ Covers τ (d :: ds) (e :: rest) := by
  have hle : k.arity ≤ es.length := by
    rw [← h.length, List.length_append, Pattern.length_children hd]
    omega
  obtain ⟨e, rest, -, he, hchildren⟩ := Pattern.graft_eq_cons
    (Pattern.starId?_of_key hd) (Pattern.badArity_of_key hd) hle
  exact ⟨e, rest, he, hchildren, .node hd he (by rwa [hchildren])⟩

theorem covers_wildcard (m : Option MVar) (e : Pattern) :
    Covers (fun _ => e) [.star m] [e] := by
  cases m with
  | none => exact .left .nil
  | some m => exact .mvar .nil

/-- Every wildcard can be replaced by a sort. -/
theorem exists_covers_sort (ps : List Pattern) :
    ∃ es, Covers (fun _ => .sort) ps es ∧ Pattern.wildcardsAll es = [] := by
  induction ps using Pattern.nodes_induction with
  | nil => exact ⟨[], .nil, rfl⟩
  | star m ps ih =>
      obtain ⟨es, hes, hwild⟩ := ih
      exact ⟨.sort :: es, (covers_wildcard m .sort).append hes, hwild⟩
  | node p k ps hk _ ih =>
      obtain ⟨es, hes, hwild⟩ := ih
      obtain ⟨e, rest, he, rfl, hcovers⟩ := hes.graft hk
      exact ⟨e :: rest, hcovers, by rwa [Pattern.wildcardsAll_of_key he]⟩

/-! ## A match has a common instance -/

/-- What fits has a common instance. The function `g` replaces the wildcards of
what a star takes. -/
theorem Fits.exists_common {o : LookupOptions} {b : Bindings} {ks : List Key}
    {taken : List Nat} {worth : Nat} {g : Pattern → Pattern}
    (hg : ∀ p, Covers (fun _ => .sort) [p] [g p])
    (h : Fits o b ps ks taken worth) (hks : Key.Proper ks)
    (hlinear : (Pattern.mvarsAll ps).Nodup) :
    ∃ τ es, Covers τ ps es ∧ Filled (fun id => g (b.star id)) ks es := by
  induction h with
  | nil => exact ⟨fun _ => .sort, [], .nil, .nil⟩
  | @node p k ps ks taken worth hkey h ih =>
      obtain ⟨-, hks⟩ := List.forall_mem_cons.mp hks
      rw [Pattern.mvarsAll_of_key hkey] at hlinear
      obtain ⟨τ, es, hbelow, hfilled⟩ := ih hks hlinear
      obtain ⟨e, rest, he, rfl, hcovers⟩ := hbelow.graft hkey
      exact ⟨τ, e :: rest, hcovers, .node he hfilled⟩
  | @take p id ps ks taken worth hlive hbound h ih =>
      obtain ⟨-, hks⟩ := List.forall_mem_cons.mp hks
      have hrest := Pattern.nodup_mvarsAll_of_cons hlinear
      obtain ⟨τ, es, hcovers, hfilled⟩ := ih hks hrest
      obtain ⟨τ', hτ'⟩ := (hg p).cons_apart hcovers hlinear
      have hstar : Filled (fun id => g (b.star id)) (.star id :: ks)
          (g (b.star id) :: es) := .star hfilled
      rw [hbound] at hstar
      exact ⟨τ', g p :: es, hτ', hstar⟩
  | @skip m front ps ks taken worth hlive hfront hbound h ih =>
      obtain ⟨hproper, hks⟩ := List.forall_mem_append.mp hks
      have hrest := Pattern.nodup_mvarsAll_of_cons hlinear
      obtain ⟨τ, es, hcovers, hfilled⟩ := ih hks hrest
      -- What is skipped is a tree of its own once its stars are replaced.
      obtain ⟨skipped, hlength, hskipped, -⟩ :=
        exists_filled (fun id => g (b.star id)) hfront hproper
      obtain ⟨e, rfl⟩ := List.length_eq_one_iff.mp hlength
      obtain ⟨τ', hτ'⟩ := (covers_wildcard m e).cons_apart hcovers hlinear
      exact ⟨τ', e :: es, hτ', hskipped.append hfilled⟩

/-- A linear query that fits a sequence is unifiable with it. -/
theorem Fits.unifiable {o : LookupOptions} {b : Bindings} {q : Pattern}
    {ks : List Key} {taken : List Nat} {worth : Nat}
    (h : Fits o b [q] ks taken worth) (hks : Key.Proper ks)
    (hlinear : q.mvars.Nodup) : Unifiable ks q := by
  have hsort : ∀ p : Pattern, ∃ e, Covers (fun _ => .sort) [p] [e]
      ∧ e.wildcards = [] := by
    intro p
    obtain ⟨es, hes, hwild⟩ := exists_covers_sort [p]
    obtain ⟨e, rfl⟩ := List.length_eq_one_iff.mp hes.length.symm
    exact ⟨e, hes, by rwa [Pattern.wildcardsAll_singleton] at hwild⟩
  choose g hg hground using hsort
  rw [← Pattern.mvarsAll_singleton] at hlinear
  obtain ⟨τ, es, hcovers, hfilled⟩ := h.exists_common hg hks hlinear
  obtain ⟨e, rfl⟩ := List.length_eq_one_iff.mp hcovers.length.symm
  have hwild : e.wildcards = [] := by
    rw [← Pattern.wildcardsAll_singleton, hfilled.wildcardsAll_eq]
    exact List.flatMap_eq_nil_iff.mpr fun id _ => hground (b.star id)
  exact ⟨_, τ, e, e, hfilled, hcovers, hwild, hwild, rfl⟩

/-! ## A common instance is a match -/

/-- The patterns fit the keys under all bindings that agree with some choices.
There is at most one choice for each place of a star and each place of a
metavariable. -/
def FitsFreely (o : LookupOptions) (ps : List Pattern) (ks : List Key) : Prop :=
  ∃ (takes : List (Nat × Pattern)) (skips : List (MVar × List Key)),
    (takes.map Prod.fst).Sublist (starIds ks)
      ∧ (skips.map Prod.fst).Sublist (Pattern.mvarsAll ps)
      ∧ ∀ b : Bindings, (∀ t ∈ takes, b.star t.1 = t.2) →
        (∀ t ∈ skips, b.mvar t.1 = t.2) →
          ∃ taken worth, Fits o b ps ks taken worth

namespace FitsFreely

variable {o : LookupOptions} {ks : List Key}

theorem nil : FitsFreely o [] [] :=
  ⟨[], [], .slnil, .slnil, fun _ _ _ => ⟨_, _, .nil⟩⟩

theorem node {p : Pattern} {k : Key} (hk : p.key? = some k)
    (h : FitsFreely o (p.children ++ ps) ks) :
    FitsFreely o (p :: ps) (k :: ks) := by
  obtain ⟨takes, skips, htakes, hskips, hfits⟩ := h
  rw [← starIds_of_key hk] at htakes
  rw [← Pattern.mvarsAll_of_key hk] at hskips
  refine ⟨takes, skips, htakes, hskips, fun b hstar hmvar => ?_⟩
  obtain ⟨taken, worth, hks⟩ := hfits b hstar hmvar
  exact ⟨taken, _, .node hk hks⟩

theorem take {p : Pattern} {k : Key} {id : Nat} (hk : p.key? = some k)
    (h : FitsFreely o ps ks) : FitsFreely o (p :: ps) (.star id :: ks) := by
  obtain ⟨takes, skips, htakes, hskips, hfits⟩ := h
  refine ⟨(id, p) :: takes, skips, htakes.cons_cons id, ?_,
    fun b hstar hmvar => ?_⟩
  · rw [Pattern.mvarsAll_cons]
    exact hskips.trans (List.sublist_append_right ..)
  · obtain ⟨hid, hstar⟩ := List.forall_mem_cons.mp hstar
    obtain ⟨taken, worth, hks⟩ := hfits b hstar hmvar
    exact ⟨_, _, .take (Pattern.ne_star_of_key hk) hid hks⟩

theorem skip {m : Option MVar} {front : List Key} (ho : o.unify = true)
    (hfront : Key.Completes 1 front) (h : FitsFreely o ps ks) :
    FitsFreely o (.star m :: ps) (front ++ ks) := by
  obtain ⟨takes, skips, htakes, hskips, hfits⟩ := h
  refine ⟨takes, (m.map (·, front)).toList ++ skips, ?_, ?_,
    fun b hstar hmvar => ?_⟩
  · rw [starIds_append]
    exact htakes.trans (List.sublist_append_right ..)
  · have hm : ((m.map (·, front)).toList.map Prod.fst)
        = (Pattern.star m).mvars := by
      cases m <;> rfl
    rw [List.map_append, hm, Pattern.mvarsAll_cons]
    exact hskips.append_left _
  · obtain ⟨hm, hmvar⟩ := List.forall_mem_append.mp hmvar
    obtain ⟨taken, worth, hks⟩ := hfits b hstar hmvar
    refine ⟨_, _, .skip (Or.inr ho) hfront ?_ hks⟩
    rintro x rfl
    exact hm (x, front) (List.mem_singleton_self _)

/-- If nothing stands twice, the choices do not contradict each other. -/
theorem fits (h : FitsFreely o ps ks) (hstars : (starIds ks).Nodup)
    (hmvars : (Pattern.mvarsAll ps).Nodup) :
    ∃ b taken worth, Fits o b ps ks taken worth := by
  obtain ⟨takes, skips, htakes, hskips, hfits⟩ := h
  have htake := lookup_of_pairwise <|
    (List.pairwise_map.mp (hstars.sublist htakes)).imp
      fun hne heq => absurd heq hne
  have hskip := lookup_of_pairwise <|
    (List.pairwise_map.mp (hmvars.sublist hskips)).imp
      fun hne heq => absurd heq hne
  refine ⟨_, hfits ⟨fun id => (takes.lookup id).getD .hidden,
    fun m => (skips.lookup m).getD []⟩ (fun t ht => ?_) (fun t ht => ?_)⟩
  · simp [htake t ht]
  · simp [hskip t ht]

end FitsFreely

/-- A common instance: one sequence without stars is that of `ds`, and also that
of `es`, which come out of `ps`. -/
structure Joint (τ : MVar → Pattern) (g : Nat → Pattern) (ls : List Key)
    (ps ds es : List Pattern) : Prop where
  covers : Covers τ ps es
  stored : Filled g ls ds
  query : Filled g ls es
  ground : starIds ls = []

namespace Joint

variable {g : Nat → Pattern} {ls : List Key} {p d e : Pattern}

theorem exists_cons (h : Joint τ g ls (p :: ps) ds es) :
    ∃ d ds' e es', ds = d :: ds' ∧ es = e :: es' := by
  obtain ⟨e, es', rfl⟩ := List.exists_cons_of_length_eq_add_one
    h.covers.length.symm
  cases ds with
  | nil =>
      have hnil := h.stored
      cases hnil
      cases h.query
  | cons d ds' => exact ⟨d, ds', e, es', rfl, rfl⟩

/-- Behind the first patterns there is a common instance too. -/
theorem tail (h : Joint τ g ls (p :: ps) (d :: ds) (e :: es)) :
    ∃ rest, Joint τ g rest ps ds es := by
  obtain ⟨front, rest, rfl, -, -, hstored, hquery⟩ :=
    h.stored.split_both h.query
  have hground := h.ground
  rw [starIds_append, List.append_eq_nil_iff] at hground
  exact ⟨rest, Covers.drop [p] h.covers, hstored, hquery, hground.2⟩

/-- Where the query has a key, both instances have it. -/
theorem below {k : Key} (hk : p.key? = some k)
    (h : Joint τ g ls (p :: ps) (d :: ds) (e :: es)) :
    d.key? = some k ∧ ∃ rest,
      Joint τ g rest (p.children ++ ps) (d.children ++ ds)
        (e.children ++ es) := by
  obtain ⟨hcovers, hstored, hquery, hground⟩ := h
  cases hquery with
  | star _ => cases hground
  | @node _ k' ls _ he hquery =>
      rw [starIds_of_key he] at hground
      cases hstored with
      | star _ => exact (Walk.key?_ne_star he).elim
      | node hd hstored =>
          cases hcovers with
          | mvar _ | left _ => cases hk
          | right _ => cases he
          | node hp he' hcovers =>
              obtain rfl := Option.some.inj (hk.symm.trans hp)
              obtain rfl := Option.some.inj (he.symm.trans he')
              exact ⟨hd, ls, hcovers, hstored, hquery, hground⟩

end Joint

/-- Patterns and a sequence with a common instance fit. -/
theorem Joint.fitsFreely {o : LookupOptions} {s g : Nat → Pattern}
    (ho : o.unify = true) (ps : List Pattern) :
    ∀ {ds es : List Pattern} {ks ls : List Key}, Joint τ g ls ps ds es →
      Filled s ks ds → FitsFreely o ps ks := by
  induction ps using Pattern.nodes_induction with
  | nil =>
      intro ds es ks ls h hfilled
      obtain ⟨hcovers, hstored, hquery, -⟩ := h
      cases hcovers
      cases hquery
      cases hstored
      cases hfilled
      exact .nil
  | star m ps ih =>
      intro ds es ks ls h hfilled
      obtain ⟨d, ds, e, es, rfl, rfl⟩ := h.exists_cons
      obtain ⟨rest, hrest⟩ := h.tail
      replace hfilled : Filled s ks ([d] ++ ds) := hfilled
      obtain ⟨front, ks, rfl, hfront, hfilled⟩ := hfilled.split
      exact .skip ho hfront.completes (ih hrest hfilled)
  | node p k ps hk ih ihbelow =>
      intro ds es ks ls h hfilled
      obtain ⟨d, ds, e, es, rfl, rfl⟩ := h.exists_cons
      cases hfilled with
      | star hfilled =>
          obtain ⟨rest, hrest⟩ := h.tail
          exact .take hk (ih hrest hfilled)
      | node hd hfilled =>
          obtain ⟨hd', rest, hrest⟩ := h.below hk
          obtain rfl := Option.some.inj (hd.symm.trans hd')
          exact .node hk (ihbelow hrest hfilled)

/-- A query fits every sequence that it is unifiable with, if nothing stands
twice in either. -/
theorem Unifiable.fits {o : LookupOptions} {q : Pattern} {ks : List Key}
    (ho : o.unify = true) (h : Unifiable ks q) (hstars : (starIds ks).Nodup)
    (hlinear : q.mvars.Nodup) :
    ∃ b taken worth, Fits o b [q] ks taken worth := by
  obtain ⟨s, τ, d, e, hfilled, hcovers, hd, he, hkeys⟩ := h
  rw [← Pattern.wildcardsAll_singleton] at hd he
  obtain ⟨ls, hls, hground, hstored⟩ :=
    Pattern.filled_slotsAll (fun _ => .hidden) [d] hd
  obtain ⟨ls', hls', -, hquery⟩ :=
    Pattern.filled_slotsAll (fun _ => .hidden) [e] he
  rw [Pattern.slotsAll_singleton] at hls hls'
  rw [Pattern.keys_of_slots hls, Pattern.keys_of_slots hls'] at hkeys
  subst hkeys
  have hjoint : Joint τ (fun _ => .hidden) ls [q] [d] [e] :=
    ⟨hcovers, hstored, hquery, hground⟩
  rw [← Pattern.mvarsAll_singleton] at hlinear
  exact (hjoint.fitsFreely ho [q] hfilled).fits hstars hlinear

namespace Search

variable {α : Type} {o : LookupOptions} {q : Pattern} {ks : List Key}
  {vs : List α}

end Search

end TermIndex
