import TermIndex.Surface.Names
import Mathlib.Data.List.Infix

/-!
# Numbers of variables

A variable is written by its name, and what stands for it is a number. Asking
for a number may add the name to those that are known, and changes nothing else:
once a name has its number, asking again gives the same and adds nothing
(`Assigns`), however many other variables are asked for in between
(`Assigns.later`).

Of two names of one kind that have their numbers, the numbers are the same if
the names are, or if both are numerals of one value. In one more case they are
the same although the names have nothing in common: one name is a numeral, and
the other was given just this number when it was met (`Collide`,
`numberOf_eq_iff`).
-/

namespace TermIndex.Surface

/-! ## One list of names -/

section

variable {known known' : List String} {name a b : String} {i j n : Nat}

theorem numberOf_numeral (h : numeral? maxId name.toList = some n) :
    numberOf known name = (n, known) := by
  rw [numberOf, h]

theorem numberOf_known (hname : numeral? maxId name.toList = none)
    (h : known.idxOf? name = some i) :
    numberOf known name = (namedBase + i, known) := by
  rw [numberOf, hname]
  dsimp only
  rw [h]

theorem numberOf_new (hname : numeral? maxId name.toList = none)
    (h : known.idxOf? name = none) :
    numberOf known name = (namedBase + known.length, known ++ [name]) := by
  rw [numberOf, hname]
  dsimp only
  rw [h]

/-- A name that keeps the names as they are is a numeral, or known. -/
theorem numberOf_eq_self (h : numberOf known name = (i, known)) :
    numeral? maxId name.toList = some i
      ∨ numeral? maxId name.toList = none
        ∧ ∃ k, known.idxOf? name = some k ∧ i = namedBase + k := by
  cases hname : numeral? maxId name.toList with
  | some n =>
      rw [numberOf_numeral hname] at h
      exact Or.inl (congrArg some (Prod.mk.inj h).1)
  | none =>
      cases hk : known.idxOf? name with
      | some k =>
          rw [numberOf_known hname hk] at h
          exact Or.inr ⟨rfl, k, rfl, (Prod.mk.inj h).1.symm⟩
      | none =>
          rw [numberOf_new hname hk] at h
          have hlength := congrArg List.length (Prod.mk.inj h).2
          simp at hlength

theorem prefix_numberOf (known : List String) (name : String) :
    known <+: (numberOf known name).2 := by
  cases hname : numeral? maxId name.toList with
  | some n =>
      rw [numberOf_numeral hname]
  | none =>
      cases hk : known.idxOf? name with
      | some k =>
          rw [numberOf_known hname hk]
      | none =>
          rw [numberOf_new hname hk]
          exact List.prefix_append known [name]

theorem numberOf_again (h : numberOf known name = (i, known')) :
    numberOf known' name = (i, known') := by
  cases hname : numeral? maxId name.toList with
  | some n =>
      rw [numberOf_numeral hname] at h ⊢
      rw [(Prod.mk.inj h).1]
  | none =>
      cases hk : known.idxOf? name with
      | some k =>
          rw [numberOf_known hname hk] at h
          obtain ⟨rfl, rfl⟩ := Prod.mk.inj h
          exact numberOf_known hname hk
      | none =>
          rw [numberOf_new hname hk] at h
          obtain ⟨rfl, rfl⟩ := Prod.mk.inj h
          have hlast : (known ++ [name]).idxOf? name = some known.length := by
            rw [List.idxOf?] at hk ⊢
            simp [List.findIdx?_append, hk]
          exact numberOf_known hname hlast

/-- More names do not change the number of one that has it. -/
theorem numberOf_later (h : numberOf known name = (i, known))
    (hlonger : known <+: known') : numberOf known' name = (i, known') := by
  rcases numberOf_eq_self h with hname | ⟨hname, k, hk, rfl⟩
  · exact numberOf_numeral hname
  · obtain ⟨more, rfl⟩ := hlonger
    have hk' : (known ++ more).idxOf? name = some k := by
      rw [List.idxOf?] at hk ⊢
      simp [List.findIdx?_append, hk]
    exact numberOf_known hname hk'

/-- The names are numerals of one value. -/
def SameNumeral (a b : String) : Prop :=
  ∃ n, numeral? maxId a.toList = some n ∧ numeral? maxId b.toList = some n

/-- The numeral `a` is the number that was given to the name `b`. -/
def Collide (known : List String) (a b : String) : Prop :=
  ∃ k, numeral? maxId a.toList = some (namedBase + k)
    ∧ numeral? maxId b.toList = none ∧ known.idxOf? b = some k

/-- When two names that have their numbers have the same one. -/
theorem numberOf_eq_iff (ha : numberOf known a = (i, known))
    (hb : numberOf known b = (j, known)) :
    i = j ↔ a = b ∨ SameNumeral a b ∨ Collide known a b
      ∨ Collide known b a := by
  constructor
  · rintro rfl
    rcases numberOf_eq_self ha with hna | ⟨hna, k, hka, rfl⟩
    · rcases numberOf_eq_self hb with hnb | ⟨hnb, k, hkb, rfl⟩
      · exact Or.inr (Or.inl ⟨i, hna, hnb⟩)
      · exact Or.inr (Or.inr (Or.inl ⟨k, hna, hnb, hkb⟩))
    · rcases numberOf_eq_self hb with hnb | ⟨-, k', hkb, hkk'⟩
      · exact Or.inr (Or.inr (Or.inr ⟨k, hnb, hna, hka⟩))
      · obtain rfl : k = k' := Nat.add_left_cancel hkk'
        obtain ⟨_, hgeta, -⟩ := List.idxOf?_eq_some_iff.mp hka
        obtain ⟨_, hgetb, -⟩ := List.idxOf?_eq_some_iff.mp hkb
        exact Or.inl (hgeta.symm.trans hgetb)
  · rintro (rfl | ⟨n, hna, hnb⟩ | ⟨k, hna, hnb, hkb⟩ | ⟨k, hnb, hna, hka⟩)
    · exact congrArg Prod.fst (ha.symm.trans hb)
    · rw [numberOf_numeral hna] at ha
      rw [numberOf_numeral hnb] at hb
      exact (Prod.mk.inj ha).1.symm.trans (Prod.mk.inj hb).1
    · rw [numberOf_numeral hna] at ha
      rw [numberOf_known hnb hkb] at hb
      exact (Prod.mk.inj ha).1.symm.trans (Prod.mk.inj hb).1
    · rw [numberOf_known hna hka] at ha
      rw [numberOf_numeral hnb] at hb
      exact (Prod.mk.inj ha).1.symm.trans (Prod.mk.inj hb).1

end

/-! ## Both kinds of variables -/

inductive VariableKind where
  | mvar
  | fvar
deriving DecidableEq

/-- A variable as it is written. -/
structure Variable where
  kind : VariableKind
  name : String
deriving DecidableEq

namespace Names

/-- The names of one kind that were met so far. -/
def known (ns : Names) : VariableKind → List String
  | .mvar => ns.mvars
  | .fvar => ns.fvars

/-- The number of a variable, and the names known afterwards. -/
def number (ns : Names) : Variable → Nat × Names
  | ⟨.mvar, name⟩ => ((ns.mvar name).1.id, (ns.mvar name).2)
  | ⟨.fvar, name⟩ => ((ns.fvar name).1.id, (ns.fvar name).2)

def ask (ns : Names) (v : Variable) : Names := (ns.number v).2

/-- The names known after the variables were met in this order. -/
def askAll (ns : Names) (vs : List Variable) : Names := vs.foldl ask ns

/-- The variable has this number, and is none that is met for the first time. -/
def Assigns (ns : Names) (v : Variable) (i : Nat) : Prop :=
  ns.number v = (i, ns)

variable {ns : Names} {v w : Variable} {i j : Nat}

theorem askAll_append (ns : Names) (vs ws : List Variable) :
    ns.askAll (vs ++ ws) = (ns.askAll vs).askAll ws :=
  List.foldl_append

theorem assigns_iff :
    ns.Assigns v i
      ↔ numberOf (ns.known v.kind) v.name = (i, ns.known v.kind) := by
  obtain ⟨mvars, fvars⟩ := ns
  obtain ⟨_ | _, name⟩ := v
  · simp [Assigns, number, known, mvar, Prod.ext_iff]
  · simp [Assigns, number, known, fvar, Prod.ext_iff]

/-- What is known of one kind grows only by a variable of this kind. -/
theorem known_ask (ns : Names) (v : Variable) (kind : VariableKind) :
    (ns.ask v).known kind
      = if v.kind = kind then (numberOf (ns.known kind) v.name).2
        else ns.known kind := by
  obtain ⟨_ | _, name⟩ := v
  · cases kind with
    | mvar => rfl
    | fvar => rfl
  · cases kind with
    | mvar => rfl
    | fvar => rfl

theorem prefix_ask (ns : Names) (v : Variable) (kind : VariableKind) :
    ns.known kind <+: (ns.ask v).known kind := by
  rw [known_ask]
  split
  · exact prefix_numberOf _ _
  · exact List.prefix_rfl

theorem prefix_askAll (ns : Names) (vs : List Variable) (kind : VariableKind) :
    ns.known kind <+: (ns.askAll vs).known kind := by
  induction vs generalizing ns with
  | nil => exact List.prefix_rfl
  | cons v vs ih => exact (ns.prefix_ask v kind).trans (ih (ns.ask v))

/-- A variable that was asked for keeps its number. -/
theorem assigns_ask (ns : Names) (v : Variable) :
    (ns.ask v).Assigns v (ns.number v).1 := by
  rw [assigns_iff, known_ask, if_pos rfl]
  obtain ⟨_ | _, name⟩ := v
  · exact numberOf_again rfl
  · exact numberOf_again rfl

theorem Assigns.later (h : ns.Assigns v i) (vs : List Variable) :
    (ns.askAll vs).Assigns v i := by
  rw [assigns_iff] at h ⊢
  exact numberOf_later h (ns.prefix_askAll vs v.kind)

theorem assigns_of_mem {vs : List Variable} (h : v ∈ vs) (ns : Names) :
    ∃ i, (ns.askAll vs).Assigns v i := by
  obtain ⟨before, after, rfl⟩ := List.append_of_mem h
  rw [askAll_append]
  exact ⟨_, ((ns.askAll before).assigns_ask v).later after⟩

/-! ## Names that come later -/

/-- More variables were met in between. -/
def Later (ns ids : Names) : Prop := ∃ vs, ids = ns.askAll vs

theorem Later.refl (ns : Names) : ns.Later ns := ⟨[], rfl⟩

section

variable {ids : Names} {vs ws : List Variable}

theorem Later.askAll (h : (ns.askAll vs).Later ids) : ns.Later ids := by
  obtain ⟨more, rfl⟩ := h
  exact ⟨vs ++ more, (askAll_append ns vs more).symm⟩

theorem Later.first (h : (ns.askAll (vs ++ ws)).Later ids) :
    (ns.askAll vs).Later ids := by
  rw [askAll_append] at h
  exact h.askAll

theorem Later.second (h : (ns.askAll (vs ++ ws)).Later ids) :
    ((ns.askAll vs).askAll ws).Later ids := by
  rwa [askAll_append] at h

end

/-! ## Equal numbers -/

/-- When two variables of one kind that have their numbers have the same one. -/
theorem Assigns.eq_iff (hv : ns.Assigns v i) (hw : ns.Assigns w j)
    (hkind : v.kind = w.kind) :
    i = j ↔ v.name = w.name ∨ SameNumeral v.name w.name
      ∨ Collide (ns.known v.kind) v.name w.name
      ∨ Collide (ns.known v.kind) w.name v.name := by
  rw [assigns_iff] at hv hw
  rw [← hkind] at hw
  exact numberOf_eq_iff hv hw

end Names

end TermIndex.Surface
