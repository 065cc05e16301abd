import TermIndex.Proofs.BoundVariables
import TermIndex.Proofs.ReadTerms

/-!
# Numbers that are given

The names of variables are kept over many calls: a caller asks for one variable,
or has a text parsed, and each call goes on with the names that the calls before
it left. Whatever the calls were, texts that were refused included, they asked
for variables one after the other (`Names.run_later`). So a number that was once
given does not change, and when two variables have the same number is known from
their names (`given_numbers`).

Two names that are neither the same nor numerals of one value can have the same
number: the names that are no numerals get the numbers from `namedBase` on, and
these can be written as numerals too (`given_collision`).
-/

namespace TermIndex

open Surface

/-! ## Numbers in a term -/

/-- The numbers of the variables of this kind, from the left. -/
def Term.numbers (kind : VariableKind) : Term → List Nat
  | .mvar m => if kind = .mvar then [m.id] else []
  | .fvar x => if kind = .fvar then [x.id] else []
  | .app f a => f.numbers kind ++ a.numbers kind
  | .lam _ _ d b => d.numbers kind ++ b.numbers kind
  | .pi _ _ d b => d.numbers kind ++ b.numbers kind
  | .letE _ t v b => t.numbers kind ++ v.numbers kind ++ b.numbers kind
  | .proj _ _ e => e.numbers kind
  | .bvar _ | .sort _ | .const _ | .lit _ => []

theorem Term.numbers_rename (kind : VariableKind) (ρ : Nat → Nat) (t : Term) :
    (t.rename ρ).numbers kind = t.numbers kind := by
  induction t generalizing ρ with
  | _ => simp only [rename, numbers, *]

namespace Surface

variable {kind : VariableKind} {ns : Names} {ls ls' : List Token} {i : Nat}

/-- The number is that of a variable among these tokens. -/
def Named (ns : Names) (kind : VariableKind) (ls : List Token) (i : Nat) :
    Prop :=
  ∃ v ∈ ls.filterMap Token.variable?, v.kind = kind ∧ (ns.number v).1 = i

theorem Named.left (h : Named ns kind ls i) : Named ns kind (ls ++ ls') i := by
  obtain ⟨v, hv, hi⟩ := h
  exact ⟨v, by simp [List.filterMap_append, hv], hi⟩

theorem Named.right (h : Named ns kind ls' i) : Named ns kind (ls ++ ls') i := by
  obtain ⟨v, hv, hi⟩ := h
  exact ⟨v, by simp [List.filterMap_append, hv], hi⟩

theorem mem_numbers_mkApp {f : Term} {as : List Term}
    (h : i ∈ (f.mkApp as).numbers kind) :
    i ∈ f.numbers kind ∨ ∃ a ∈ as, i ∈ a.numbers kind := by
  induction as generalizing f with
  | nil => exact Or.inl h
  | cons a as ih =>
      rcases ih h with h | ⟨b, hb, h⟩
      · rcases List.mem_append.mp h with h | h
        · exact Or.inl h
        · exact Or.inr ⟨a, List.mem_cons_self .., h⟩
      · exact Or.inr ⟨b, List.mem_cons_of_mem _ hb, h⟩

theorem mem_numbers_bind {q : Quantifier} {n : Name} {info : BinderInfo} {domain body : Term}
    (h : i ∈ (q.bind n info domain body).numbers kind) :
    i ∈ domain.numbers kind ∨ i ∈ body.numbers kind := by
  cases q with
  | _ => exact List.mem_append.mp h

theorem mem_numbers_bindGroup {q : Quantifier} {info : BinderInfo} {domain body : Term} {k : Nat}
    {names : List String}
    (h : i ∈ (q.bindGroup info domain k names body).numbers kind) :
    i ∈ domain.numbers kind ∨ i ∈ body.numbers kind := by
  induction names generalizing k with
  | nil => exact Or.inr h
  | cons x xs ih =>
      rcases mem_numbers_bind h with h | h
      · rw [Term.raise_zero_eq, Term.numbers_rename] at h
        exact Or.inl h
      · exact ih h

mutual

/-- What is read from a phrase has no other numbers than those of the variables
in it. -/
theorem named_read (p : Phrase) (scope : Scope) {i : Nat}
    (h : i ∈ (p.read ns scope).numbers kind) : Named ns kind p.leaves i := by
  cases p with
  | ident word =>
      rw [Phrase.read, Scope.resolve] at h
      split at h
      · cases h
      · cases h
  | var v =>
      obtain ⟨_ | _, name⟩ := v
      · cases kind with
        | mvar => exact ⟨⟨.mvar, name⟩, List.mem_singleton_self _, rfl,
            (List.mem_singleton.mp h).symm⟩
        | fvar => cases h
      · cases kind with
        | mvar => cases h
        | fvar => exact ⟨⟨.fvar, name⟩, List.mem_singleton_self _, rfl,
            (List.mem_singleton.mp h).symm⟩
  | index i => cases h
  | nat n => cases h
  | str s => cases h
  | sort w => cases h
  | app fn args =>
      rw [leaves_app]
      rcases mem_numbers_mkApp h with h | ⟨a, ha, h⟩
      · exact (named_read fn scope h).left
      · exact (named_readArgs args scope ha h).right
  | quantified q inside =>
      rw [leaves_quantified]
      exact named_telescope q inside scope h
  | arrow left right =>
      rw [leaves_arrow]
      rcases List.mem_append.mp h with h | h
      · exact (named_read left scope h).left
      · exact (named_read right _ h).right
  | letE name type value body =>
      rw [leaves_letE]
      rcases List.mem_append.mp h with h | h
      · rcases List.mem_append.mp h with h | h
        · exact (named_readType type scope h).left
        · exact (named_read value scope h).left.right
      · exact (named_read body _ h).right.right
  | proj struct i value =>
      rw [leaves_proj, ← List.singleton_append]
      exact (named_read value scope h).right

theorem named_readArgs (ps : List Phrase) (scope : Scope) {t : Term} {i : Nat}
    (ht : t ∈ readArgs ns scope ps) (h : i ∈ t.numbers kind) :
    Named ns kind (leavesArgs ps) i := by
  cases ps with
  | nil => cases ht
  | cons p ps =>
      rw [leavesArgs_cons]
      rcases List.mem_cons.mp ht with rfl | ht
      · exact (named_read p scope h).left
      · exact (named_readArgs ps scope ht h).right

theorem named_readType (type : Option Phrase) (scope : Scope) {i : Nat}
    (h : i ∈ (readType ns scope type).numbers kind) :
    Named ns kind (leavesType type) i := by
  cases type with
  | none => cases h
  | some p =>
      rw [leavesType_some]
      exact named_read p scope h

theorem named_telescope (q : Quantifier) (inside : Telescope) (scope : Scope)
    {i : Nat} (h : i ∈ (inside.read ns q scope).numbers kind) :
    Named ns kind (inside.leaves q) i := by
  cases inside with
  | body b =>
      rw [leaves_body]
      exact named_read b scope h
  | bare name inner =>
      rw [leaves_bare]
      rcases mem_numbers_bind h with h | h
      · cases h
      · exact named_telescope q inner _ h
  | group info names type inner =>
      rw [leaves_group]
      rcases mem_numbers_bindGroup h with h | h
      · exact (named_readType type scope h).left
      · exact (named_telescope q inner _ h).right

end

/-! ## Calls -/

/-- A caller asks for a variable, or has a text parsed. -/
inductive Call where
  | mvar (name : String)
  | fvar (name : String)
  | parse (text : String)

namespace Names

/-- The names known after a call. -/
def after (ns : Names) : Call → Names
  | .mvar name => (ns.mvar name).2
  | .fvar name => (ns.fvar name).2
  | .parse text => (Surface.parse ns text).2

def run (ns : Names) (calls : List Call) : Names := calls.foldl after ns

theorem after_later (ns : Names) (call : Call) : ns.Later (ns.after call) := by
  cases call with
  | mvar name => exact ⟨[⟨.mvar, name⟩], rfl⟩
  | fvar name => exact ⟨[⟨.fvar, name⟩], rfl⟩
  | parse text =>
      obtain ⟨vs, hvs, -⟩ := parse_asks ns text
      exact ⟨vs, hvs⟩

/-- Calls only ask for variables. -/
theorem run_later (ns : Names) (calls : List Call) : ns.Later (ns.run calls) := by
  induction calls generalizing ns with
  | nil => exact .refl ns
  | cons call calls ih =>
      obtain ⟨vs, hvs⟩ := ns.after_later call
      have hrest := ih (ns.after call)
      rw [hvs] at hrest
      rw [run, List.foldl_cons, hvs]
      exact hrest.askAll

end Names

/-- The call gives the variable this number. A text gives its variables the
numbers that are in its term. -/
def Call.Gives (ns : Names) : Call → Variable → Nat → Prop
  | .mvar name, v, i => v = ⟨.mvar, name⟩ ∧ i = (ns.mvar name).1.id
  | .fvar name, v, i => v = ⟨.fvar, name⟩ ∧ i = (ns.fvar name).1.id
  | .parse text, v, i => ∃ t, (Surface.parse ns text).1 = .ok t
    ∧ v ∈ written text ∧ i ∈ t.numbers v.kind
    ∧ (Surface.parse ns text).2.Assigns v i

/-- One of these calls gives the variable this number. -/
def Given (calls : List Call) (v : Variable) (i : Nat) : Prop :=
  ∃ before call after, calls = before ++ call :: after
    ∧ call.Gives (Names.empty.run before) v i

theorem Call.Gives.assigns {ns : Names} {call : Call} {v : Variable} {i : Nat}
    (h : call.Gives ns v i) : (ns.after call).Assigns v i := by
  cases call with
  | mvar name =>
      obtain ⟨rfl, rfl⟩ := h
      exact ns.assigns_ask ⟨.mvar, name⟩
  | fvar name =>
      obtain ⟨rfl, rfl⟩ := h
      exact ns.assigns_ask ⟨.fvar, name⟩
  | parse text =>
      obtain ⟨t, -, -, -, h⟩ := h
      exact h

theorem Given.assigns {calls : List Call} {v : Variable} {i : Nat}
    (h : Given calls v i) : (Names.empty.run calls).Assigns v i := by
  obtain ⟨before, call, after, rfl, h⟩ := h
  obtain ⟨vs, hvs⟩ := ((Names.empty.run before).after call).run_later after
  rw [Names.run, List.foldl_append, List.foldl_cons]
  change (((Names.empty.run before).after call).run after).Assigns v i
  rw [hvs]
  exact h.assigns.later vs

/-- Every number in a term that was parsed is given to a variable of its text. -/
theorem exists_given {ns : Names} {text : String} {t : Term}
    (h : (Surface.parse ns text).1 = .ok t) (hi : i ∈ t.numbers kind) :
    ∃ name, (Call.parse text).Gives ns ⟨kind, name⟩ i := by
  obtain ⟨ls, p, hscan, hleaves, -, hnames, rfl⟩ := parse_ok h
  obtain ⟨⟨kind', name⟩, hv, rfl, hnumber⟩ := named_read p [] hi
  obtain ⟨j, hj⟩ := Names.assigns_of_mem hv ns
  rw [← hnames] at hj
  obtain rfl : j = i := (congrArg Prod.fst hj).symm.trans hnumber
  refine ⟨name, _, h, ?_, hi, hj⟩
  rw [written, hscan]
  rwa [hleaves, variables_leaves] at hv

/-- **Numbers of variables.** Over any calls, every number in a term that was
parsed is one that its variables are given, and two variables of one kind are
given the same number if they have the same name, or are numerals of one value,
or if one is a numeral that is the number of the other. As a variable that is
asked for again has its own name, it has the same number again. -/
theorem given_numbers (calls : List Call) :
    (∀ before text after t, calls = before ++ .parse text :: after →
      (Surface.parse (Names.empty.run before) text).1 = .ok t →
      ∀ kind, ∀ i ∈ t.numbers kind, ∃ name, Given calls ⟨kind, name⟩ i)
    ∧ ∀ v w i j, Given calls v i → Given calls w j → v.kind = w.kind →
      (i = j ↔ v.name = w.name ∨ SameNumeral v.name w.name
        ∨ Collide ((Names.empty.run calls).known v.kind) v.name w.name
        ∨ Collide ((Names.empty.run calls).known v.kind) w.name v.name) := by
  refine ⟨?_, fun v w i j hv hw hkind => hv.assigns.eq_iff hw.assigns hkind⟩
  intro before text after t hcalls ht kind i hi
  obtain ⟨name, hname⟩ := exists_given ht hi
  exact ⟨name, before, .parse text, after, hcalls, hname⟩

/-- A text that is refused in the end, so that `y` is met first, and three more
calls. -/
def refusedFirst : List Call :=
  [.parse "(?y", .mvar "x", .parse "?x", .mvar "y"]

theorem given_numbers_refusedFirst :
    (∃ name, Given refusedFirst ⟨.mvar, name⟩ 1048577)
      ∧ Given refusedFirst ⟨.mvar, "x"⟩ 1048577
      ∧ Given refusedFirst ⟨.mvar, "y"⟩ 1048576
      ∧ ((1048577 : Nat) = 1048576 ↔ "x" = "y" ∨ SameNumeral "x" "y"
        ∨ Collide ["y", "x"] "x" "y" ∨ Collide ["y", "x"] "y" "x") := by
  have hx : Given refusedFirst ⟨.mvar, "x"⟩ 1048577 :=
    ⟨[.parse "(?y"], .mvar "x", [.parse "?x", .mvar "y"], rfl, rfl,
      by decide +kernel⟩
  have hy : Given refusedFirst ⟨.mvar, "y"⟩ 1048576 :=
    ⟨[.parse "(?y", .mvar "x", .parse "?x"], .mvar "y", [], rfl, rfl,
      by decide +kernel⟩
  have hparse : (Surface.parse (Names.empty.run [.parse "(?y", .mvar "x"])
      "?x").1 = .ok (.mvar ⟨1048577⟩) := by decide +kernel
  have hknown : (Names.empty.run refusedFirst).known .mvar = ["y", "x"] := by
    decide +kernel
  have h := given_numbers refusedFirst
  rw [← hknown]
  exact ⟨h.1 _ "?x" [.mvar "y"] _ rfl hparse .mvar _ (List.mem_singleton_self _),
    hx, hy, h.2 _ _ _ _ hx hy rfl⟩

/-- A numeral is given the number that another name has. -/
theorem given_collision :
    Given [.parse "?x", .mvar "1048576"] ⟨.mvar, "x"⟩ 1048576
      ∧ Given [.parse "?x", .mvar "1048576"] ⟨.mvar, "1048576"⟩ 1048576
      ∧ "x" ≠ "1048576" ∧ ¬ SameNumeral "x" "1048576" := by
  have hparse : Surface.parse .empty "?x" = (.ok (.mvar ⟨1048576⟩), ⟨["x"], []⟩) := by
    decide +kernel
  have hx : (Call.parse "?x").Gives .empty ⟨.mvar, "x"⟩ 1048576 := by
    refine ⟨.mvar ⟨1048576⟩, ?_, ?_, List.mem_singleton_self _, ?_⟩
    · rw [hparse]
    · decide +kernel
    · rw [hparse]
      exact (Names.assigns_ask .empty ⟨.mvar, "x"⟩)
  refine ⟨⟨[], _, [.mvar "1048576"], rfl, hx⟩,
    ⟨[.parse "?x"], .mvar "1048576", [], rfl, rfl, by decide +kernel⟩,
    by decide, ?_⟩
  rintro ⟨n, hn, -⟩
  have hnone : numeral? maxId "x".toList = none := by decide +kernel
  rw [hnone] at hn
  cases hn

end Surface

end TermIndex
