import TermIndex.Proofs.Lookups

/-!
# Lookups that stop early

A search that visits its hits walks a query and a forest with the visitor in
hand. What it shows is what the search that lists its outcomes has in its list,
in the same order, up to the point where the visitor declines (`visitHits_eq`).
This holds at every depth: `shownTo` goes through a list of outcomes, and for
each part of the search there is one equation that says that visiting is listing
and then going through the list.

So a callback that declines cuts the search off and changes nothing before that
(`lookupWhile_stops`), whatever it has made its answers depend on.
-/

namespace TermIndex

open Visitor (continueWith)

variable {α σ β γ : Type}

theorem Visitor.continueWith_assoc (rest next : σ → Except Fault (σ × Bool))
    (r : Except Fault (σ × Bool)) :
    continueWith rest (continueWith next r)
      = continueWith (fun s => continueWith rest (next s)) r := by
  rcases r with e | ⟨s, _ | _⟩
  · rfl
  · rfl
  · rfl

/-! ## Going through outcomes -/

namespace Outcomes

/-- Shows the outcomes to a visitor, until it declines or a fault is in the
way. -/
def shownTo (v : Visitor σ β) (s : σ) : Outcomes β → Except Fault (σ × Bool)
  | [] => .ok (s, true)
  | .error e :: _ => .error e
  | .ok b :: rest => continueWith (fun s => shownTo v s rest) (v s b)

variable (v : Visitor σ β) (s : σ)

theorem shownTo_append (os qs : Outcomes β) :
    shownTo v s (os ++ qs)
      = continueWith (fun s => shownTo v s qs) (shownTo v s os) := by
  induction os generalizing s with
  | nil => rfl
  | cons a os ih =>
      cases a with
      | error e => rfl
      | ok b =>
          rw [List.cons_append, shownTo, shownTo, Visitor.continueWith_assoc]
          simp only [ih]

theorem shownTo_ok (bs : List β) : shownTo v s (bs.map .ok) = v.each s bs := by
  induction bs generalizing s with
  | nil => rfl
  | cons b bs ih =>
      rw [List.map_cons, shownTo, Visitor.each]
      simp only [ih]

theorem shownTo_andThen (os : Outcomes γ) (f : γ → Outcomes β) :
    shownTo v s (os.andThen f)
      = shownTo (fun s c => shownTo v s (f c)) s os := by
  induction os generalizing s with
  | nil => rfl
  | cons a os ih =>
      rw [andThen, List.flatMap_cons, shownTo_append]
      cases a with
      | error e => rfl
      | ok c =>
          rw [shownTo]
          exact congrArg (continueWith · _) (funext fun s => ih s)

theorem shownTo_mapOk (os : Outcomes γ) (f : γ → β) :
    shownTo v s (mapOk f os) = shownTo (fun s c => v s (f c)) s os := by
  induction os generalizing s with
  | nil => rfl
  | cons a os ih =>
      cases a with
      | error e => rfl
      | ok c =>
          change shownTo v s (.ok (f c) :: mapOk f os) = _
          rw [shownTo, shownTo]
          simp only [ih]

theorem shownTo_single (b : β) : shownTo v s [.ok b] = v s b := by
  rw [shownTo]
  rcases v s b with e | ⟨s', _ | _⟩
  · rfl
  · rfl
  · rfl

/-- A callback that cannot fail is a visitor that does not. -/
theorem visit_eq_shownTo (f : σ → β → σ × Bool) (os : Outcomes β) :
    os.visit f s = os.shownTo (fun s b => .ok (f s b)) s := by
  induction os generalizing s with
  | nil => rfl
  | cons a os ih =>
      cases a with
      | error e => rfl
      | ok b =>
          rw [visit, shownTo]
          rcases hf : f s b with ⟨s', _ | _⟩
          · rfl
          · exact ih s'

end Outcomes

open Outcomes

/-! ## Skipping -/

namespace Trie

mutual

theorem visitSkips_eq (v : Visitor σ (List Key × Trie α)) (passed : List Key)
    (s : σ) : ∀ (pending : Nat) (t : Trie α),
      visitSkips v passed s pending t
        = shownTo (fun s b => v s (passed ++ b.1, b.2)) s (t.skips pending)
  | 0, t => by
      rw [visitSkips, skips, shownTo_single, List.append_nil]
  | _ + 1, .leaf _ => by
      rw [visitSkips, skips, shownTo]
  | _ + 1, .path [] _ => by
      rw [visitSkips, skips, shownTo]
  | pending + 1, .path (k :: ks) child => by
      rw [visitSkips, skips]
      dsimp only
      split
      · rw [shownTo_single]
      · rw [shownTo_mapOk, visitSkips_eq]
        simp only [List.append_assoc]
      · nofun
      · nofun
  | pending + 1, .node branches => by
      rw [visitSkips, skips, visitSkipsAll_eq]

theorem visitSkipsAll_eq (v : Visitor σ (List Key × Trie α))
    (passed : List Key) (pending : Nat) (s : σ) :
    ∀ branches : List (Key × Trie α),
      visitSkipsAll v passed pending s branches
        = shownTo (fun s b => v s (passed ++ b.1, b.2)) s
          (skipsAll pending branches)
  | [] => by
      rw [visitSkipsAll, skipsAll, shownTo]
  | (k, t) :: rest => by
      rw [visitSkipsAll, skipsAll, shownTo_append, shownTo_mapOk,
        visitSkips_eq]
      simp only [List.append_assoc, List.singleton_append,
        visitSkipsAll_eq v passed pending _ rest]

end

end Trie

theorem Position.visitSkips_eq (v : Visitor σ (List Key × Trie α)) (s : σ)
    (here : Position α) : here.visitSkips v s = shownTo v s here.skips := by
  cases here with
  | root f => exact Trie.visitSkipsAll_eq v [] 0 s f.branches
  | inside t => exact Trie.visitSkips_eq v [] s 1 t

/-! ## Unifying -/

namespace Search

variable {o : LookupOptions}

/-- The visitor shows what is below a thread. -/
theorem visitAround_eq {p : Pattern} {below v : Visitor σ (Thread α)}
    {listed : Thread α → Outcomes (Thread α)}
    (hbelow : ∀ s t, below s t = shownTo v s (listed t)) (s : σ)
    (t : Thread α) :
    visitAround o p below v s t = shownTo v s (around o p listed t) := by
  unfold visitAround around
  cases t.here.fault? with
  | some e => rfl
  | none =>
      have hstars : (fun s =>
            if t.starsAllowed o then v.each s (t.takenBy p) else .ok (s, true))
          = fun s => shownTo v s
            (if t.starsAllowed o then (t.takenBy p).map .ok else []) := by
        funext s
        split
        · rw [shownTo_ok]
        · rfl
      dsimp only
      rw [shownTo_append, hstars]
      cases p.key?.bind t.exact with
      | none => rfl
      | some next => exact congrArg (continueWith _) (hbelow s next)

theorem visitSkipping_eq (m : Option MVar) (v : Visitor σ (Thread α)) (s : σ)
    (t : Thread α) :
    visitSkipping o m v s t = shownTo v s (skipping o m t) := by
  unfold visitSkipping skipping
  split
  · rw [shownTo_andThen, Position.visitSkips_eq]
    congr 1
    funext s ⟨keys, below⟩
    dsimp only
    cases t.skipped m keys below with
    | none => rfl
    | some next => exact (shownTo_single v s next).symm
  · rfl

mutual

theorem visitUnify_eq : ∀ (p : Pattern) (v : Visitor σ (Thread α)) (s : σ)
    (t : Thread α), visitUnify o p v s t = shownTo v s (unify o p t)
  | .star m, v, s, t => by
      rw [visitUnify, unify]
      split
      · exact visitSkipping_eq m v s t
      · exact visitAround_eq (fun s t => (shownTo_single v s t).symm) s t
  | .app h args, v, s, t => by
      rw [visitUnify, unify]
      exact visitAround_eq (visitUnifyAll_eq args v) s t
  | .lam body, v, s, t => by
      rw [visitUnify, unify]
      exact visitAround_eq (visitUnify_eq body v) s t
  | .pi domain body, v, s, t => by
      rw [visitUnify, unify]
      refine visitAround_eq (fun s t => ?_) s t
      rw [visitUnify_eq domain, shownTo_andThen]
      simp only [funext₂ (visitUnify_eq body v)]
  | .proj st i value args, v, s, t => by
      rw [visitUnify, unify]
      refine visitAround_eq (fun s t => ?_) s t
      rw [visitUnify_eq value, shownTo_andThen]
      simp only [funext₂ (visitUnifyAll_eq args v)]
  | .hidden, v, s, t | .fixed _, v, s, t
  | .lit _, v, s, t | .sort, v, s, t => by
      rw [visitUnify, unify]
      exact visitAround_eq (fun s t => (shownTo_single v s t).symm) s t

theorem visitUnifyAll_eq : ∀ (ps : List Pattern) (v : Visitor σ (Thread α))
    (s : σ) (t : Thread α),
      visitUnifyAll o ps v s t = shownTo v s (unifyAll o ps t)
  | [], v, s, t => by
      rw [visitUnifyAll, unifyAll, shownTo_single]
  | p :: ps, v, s, t => by
      rw [visitUnifyAll, unifyAll, visitUnify_eq p, shownTo_andThen]
      simp only [funext₂ (visitUnifyAll_eq ps v)]

end

/-- Visiting the hits is listing them and going through the list, in every
forest, whether it is in order or not. -/
theorem visitHits_eq (f : Forest α) (q : Pattern) (g : σ → Hit α → σ × Bool)
    (s : σ) : visitHits o f q g s = (hits o f q).visit g s := by
  unfold visitHits hits
  split
  · rfl
  · rw [visit_eq_shownTo, shownTo_andThen, visitUnify_eq]
    congr 1
    funext s t
    cases finish t with
    | error e => rfl
    | ok h => exact (shownTo_single (fun s h => .ok (g s h)) s h).symm

end Search

/-! ## Stopping -/

namespace Index

/-- The callback with a record of its calls: what it was shown, and whether it
went on. -/
def recording (f : σ → Hit α → σ × Bool) (s : σ × List (Hit α × Bool))
    (h : Hit α) : (σ × List (Hit α × Bool)) × Bool :=
  (((f s.1 h).1, s.2 ++ [(h, (f s.1 h).2)]), (f s.1 h).2)

/-- The calls of a lookup that would have shown `all`, and its result. -/
structure Stops (all : List (Hit α)) (calls : List (Hit α × Bool))
    (goOn : Bool) : Prop where
  /-- The calls are the first of those that could have been made. -/
  initial : calls.map Prod.fst <+: all
  /-- No call comes after one that was declined. -/
  last : ∀ front call after, calls = front ++ call :: after →
    call.2 = false → after = []
  declined : goOn = false ↔ ∃ call ∈ calls, call.2 = false
  /-- If nothing was declined, nothing is left out. -/
  whole : goOn = true → calls.map Prod.fst = all

namespace Stops

theorem nil : Stops ([] : List (Hit α)) [] true where
  initial := List.nil_prefix
  last := by
    intro front call after h
    cases front <;> cases h
  declined := by simp
  whole := fun _ => rfl

theorem decline (h : Hit α) (rest : List (Hit α)) :
    Stops (h :: rest) [(h, false)] false where
  initial := List.prefix_append [h] rest
  last := by
    intro front call after heq _
    rcases List.cons_eq_append_iff.mp heq with ⟨-, heq⟩ | ⟨front', -, heq⟩
    · exact (List.cons.inj heq).2
    · cases front' <;> cases heq
  declined := by simp
  whole := nofun

theorem goOn {all : List (Hit α)} {calls : List (Hit α × Bool)} {goOn : Bool}
    (hs : Stops all calls goOn) (h : Hit α) :
    Stops (h :: all) ((h, true) :: calls) goOn where
  initial := (List.prefix_cons_inj h).mpr hs.initial
  last := by
    intro front call after heq hcall
    rcases List.cons_eq_append_iff.mp heq with ⟨-, heq⟩ | ⟨front', -, heq⟩
    · obtain ⟨rfl, -⟩ := List.cons.inj heq
      cases hcall
    · exact hs.last front' call after heq hcall
  declined := by simp [hs.declined]
  whole := fun hgo => congrArg (h :: ·) (hs.whole hgo)

end Stops

/-- A callback does not notice that it is recorded, and the record shows that it
was stopped at the first hit that it declined. -/
theorem visit_recording (f : σ → Hit α → σ × Bool) (hs : List (Hit α)) :
    ∀ (s : σ) (seen : List (Hit α × Bool)), ∃ s' calls goOn,
      Outcomes.visit f s (hs.map .ok) = .ok (s', goOn)
      ∧ Outcomes.visit (recording f) (s, seen) (hs.map .ok)
        = .ok ((s', seen ++ calls), goOn)
      ∧ Stops hs calls goOn := by
  induction hs with
  | nil =>
      intro s seen
      exact ⟨s, [], true, rfl, by rw [List.append_nil]; rfl, .nil⟩
  | cons h hs ih =>
      intro s seen
      rw [List.map_cons, Outcomes.visit, Outcomes.visit, recording]
      rcases hf : f s h with ⟨s₁, _ | _⟩
      · exact ⟨s₁, [(h, false)], false, rfl, rfl, .decline h hs⟩
      · obtain ⟨s', calls, goOn, hvisit, hrecord, hstops⟩ :=
          ih s₁ (seen ++ [(h, true)])
        refine ⟨s', (h, true) :: calls, goOn, hvisit, ?_, hstops.goOn h⟩
        rw [List.append_assoc] at hrecord
        exact hrecord

variable [BEq α]

/-- **Stopping early yields a prefix.** After any run of insertions, a lookup
with any callback ends without a fault. Its calls are the first of those that
are made if nothing is declined, none of them comes after one that was declined,
and the result is false exactly if one was. -/
theorem lookupWhile_stops (settings : Settings) (rules : List Conversion)
    {ops : List (Insertion α)} {ix : Index α}
    (hrun : ((empty settings).withRules rules).run ops = .ok ix)
    (q : Pattern) (o : LookupOptions) (f : σ → Hit α → σ × Bool) (s : σ) :
    ∃ all s' calls goOn,
      ix.lookupWhile q o (fun seen h => (seen ++ [h], true)) []
        = .ok (all, true)
      ∧ ix.lookupWhile q o f s = .ok (s', goOn)
      ∧ ix.lookupWhile q o (recording f) (s, []) = .ok ((s', calls), goOn)
      ∧ Stops all calls goOn := by
  have hnew : Grown ((empty settings : Index α).withRules rules)
      ((empty settings).withRules rules) := ⟨.empty, .empty, rfl⟩
  obtain ⟨hs, hhits, -⟩ := exists_hits (hnew.of_run hrun).check q o
  obtain ⟨s', calls, goOn, hvisit, hrecord, hstops⟩ :=
    visit_recording f hs s []
  refine ⟨hs, s', calls, goOn, ?_, ?_, ?_, hstops⟩
  · rw [lookupWhile, Search.visitHits_eq]
    exact Search.calls_eq hhits
  · rw [lookupWhile, Search.visitHits_eq, hhits, hvisit]
  · rw [lookupWhile, Search.visitHits_eq, hhits, hrecord]
    rfl

/-- The callback counts its calls and declines the second of three. -/
theorem lookupWhile_stops_second :
    ∃ (ix : Index Nat) (ops : List (Insertion Nat)) (q : Pattern)
      (count : Nat → Hit Nat → Nat × Bool) (a b c : Hit Nat),
      ops = [.pattern (.app (.const ⟨"f"⟩) [.app (.const ⟨"a"⟩) []]) 1,
        .pattern (.app (.const ⟨"f"⟩) [.app (.const ⟨"b"⟩) []]) 2,
        .pattern (.app (.const ⟨"f"⟩) [.app (.const ⟨"c"⟩) []]) 3]
      ∧ q = .app (.const ⟨"f"⟩) [.star (some ⟨0⟩)]
      ∧ count = (fun n _ => (n + 1, decide (n + 1 < 2)))
      ∧ ((empty .standard).withRules []).run ops = .ok ix
      ∧ ix.lookupWhile q .standard (fun seen h => (seen ++ [h], true)) []
        = .ok ([a, b, c], true)
      ∧ ix.lookupWhile q .standard count 0 = .ok (2, false)
      ∧ ix.lookupWhile q .standard (recording count) (0, [])
        = .ok ((2, [(a, true), (b, false)]), false)
      ∧ Stops [a, b, c] [(a, true), (b, false)] false := by
  let ops : List (Insertion Nat) :=
    [.pattern (.app (.const ⟨"f"⟩) [.app (.const ⟨"a"⟩) []]) 1,
      .pattern (.app (.const ⟨"f"⟩) [.app (.const ⟨"b"⟩) []]) 2,
      .pattern (.app (.const ⟨"f"⟩) [.app (.const ⟨"c"⟩) []]) 3]
  let q := Pattern.app (.const ⟨"f"⟩) [.star (some ⟨0⟩)]
  let count : Nat → Hit Nat → Nat × Bool :=
    fun n _ => (n + 1, decide (n + 1 < 2))
  let hit (name : String) (value : Nat) : Hit Nat :=
    ⟨[.app (.const ⟨"f"⟩) 1, .app (.const ⟨name⟩) 0], [value], 1⟩
  obtain ⟨ix, hrun⟩ : ∃ ix, ((empty .standard).withRules []).run ops = .ok ix :=
    ⟨_, rfl⟩
  obtain ⟨all, s', calls, goOn, hall, hcount, hrecord, hstops⟩ :=
    lookupWhile_stops .standard [] hrun q .standard count 0
  have hall' : ix.lookupWhile q .standard (fun seen h => (seen ++ [h], true)) []
      = .ok ([hit "a" 1, hit "b" 2, hit "c" 3], true) := by
    cases hrun
    rfl
  have hrecord' : ix.lookupWhile q .standard (recording count) (0, [])
      = .ok ((2, [(hit "a" 1, true), (hit "b" 2, false)]), false) := by
    cases hrun
    rfl
  rw [hall'] at hall
  rw [hrecord'] at hrecord
  cases hall
  cases hrecord
  exact ⟨ix, ops, q, count, _, _, _, rfl, rfl, rfl, hrun, hall', hcount,
    hrecord', hstops⟩

end Index

end TermIndex
