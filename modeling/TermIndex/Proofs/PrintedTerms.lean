import TermIndex.Term.Printer
import TermIndex.Proofs.PhraseReading

/-!
# Reading printed terms

The text of a term is the text of a phrase: bound variables are printed as
explicit indices, other variables as numerals, and a spine of applications is
one application to all its arguments (`Term.spine`). The text shows neither the
kinds of binders nor levels above one, and a constant is read as a bound
variable if a binder around it has its name. In a term without such parts
(`Term.Printable`) nothing is lost, so the phrase stands for the term.
-/

namespace TermIndex

open Surface

/-! ## Terms that are printed in full -/

namespace Term

/-- The constants of a term, from the left. -/
def consts : Term → List Name
  | .const n => [n]
  | .app f a => f.consts ++ a.consts
  | .lam _ _ d b => d.consts ++ b.consts
  | .pi _ _ d b => d.consts ++ b.consts
  | .letE _ t v b => t.consts ++ v.consts ++ b.consts
  | .proj _ _ e => e.consts
  | .bvar _ | .fvar _ | .mvar _ | .sort _ | .lit _ => []

/-- The text of the term shows all of it: names can be written, binders are
explicit and bind no name of a constant in their body, sorts are the two that
have a word, and strings need no escapes. Numbers have the size that they have
in memory. -/
def Printable : Term → Prop
  | .bvar i => i ≤ maxId
  | .fvar x => x.id ≤ maxId
  | .mvar m => m.id ≤ maxId
  | .sort level => level ≤ 1
  | .const n =>
    Nameable n.text ∧ n.text ≠ "Prop" ∧ n.text ≠ "Type" ∧ n.text ≠ "Sort"
  | .app f a => f.Printable ∧ a.Printable
  | .lam n info d b =>
    info = .default ∧ Nameable n.text ∧ n ∉ b.consts ∧ d.Printable
      ∧ b.Printable
  | .pi n info d b =>
    info = .default ∧ Nameable n.text ∧ n ∉ b.consts ∧ d.Printable
      ∧ b.Printable
  | .letE n t v b =>
    Nameable n.text ∧ n ∉ b.consts ∧ t.Printable ∧ v.Printable ∧ b.Printable
  | .lit (.nat n) => n ≤ maxLiteral
  | .lit (.str s) => ∀ c ∈ s.toList, Quoted.escape c = [c]
  | .proj s i e => Nameable s.text ∧ i ≤ maxId ∧ e.Printable

end Term

/-! ## Spines -/

namespace Surface

/-- A function and what it is applied to. -/
structure Spine where
  fn : Phrase
  args : List Phrase

/-- The application, which is none without arguments. -/
def Spine.phrase (s : Spine) : Phrase :=
  if s.args.isEmpty then s.fn else .app s.fn s.args

theorem Spine.phrase_concat (fn : Phrase) (args : List Phrase) (p : Phrase) :
    (Spine.mk fn (args ++ [p])).phrase = .app fn (args ++ [p]) := by
  rw [phrase, if_neg (by simp)]

def Spine.Valid (s : Spine) : Prop := s.fn.Valid ∧ ValidArgs s.args

def Spine.variables (s : Spine) : List Variable :=
  s.fn.variables ++ variablesArgs s.args

def Spine.translate (s : Spine) (ns : Names) (scope : Scope) : Term :=
  (s.fn.translate ns scope).mkApp (translateArgs ns scope s.args)

theorem Spine.valid_phrase {s : Spine} (h : s.Valid) : s.phrase.Valid := by
  unfold phrase
  split
  · exact h.1
  · exact h

theorem Spine.variables_phrase (s : Spine) :
    s.phrase.variables = s.variables := by
  obtain ⟨fn, args⟩ := s
  cases args with
  | nil => exact (List.append_nil _).symm
  | cons p ps => rfl

theorem Spine.translate_phrase (s : Spine) (ns : Names) (scope : Scope) :
    s.phrase.translate ns scope = s.translate ns scope := by
  obtain ⟨fn, args⟩ := s
  cases args with
  | _ => rfl

/-! ## Arguments -/

section

variable (ps : List Phrase) (p : Phrase)

theorem renderArgs_concat :
    renderArgs (ps ++ [p]) = renderArgs ps ++ " " ++ p.render := by
  induction ps with
  | nil => simp [renderArgs]
  | cons q qs ih => simp [renderArgs, ih, String.append_assoc]

theorem validArgs_concat : ValidArgs (ps ++ [p]) ↔ ValidArgs ps ∧ p.Valid := by
  induction ps with
  | nil => simp [ValidArgs]
  | cons q qs ih => simp [ValidArgs, ih, and_assoc]

theorem variablesArgs_concat :
    variablesArgs (ps ++ [p]) = variablesArgs ps ++ p.variables := by
  induction ps with
  | nil => simp [variablesArgs]
  | cons q qs ih => simp [variablesArgs, ih]

theorem translateArgs_concat (ns : Names) (scope : Scope) :
    translateArgs ns scope (ps ++ [p])
      = translateArgs ns scope ps ++ [p.translate ns scope] := by
  induction ps with
  | nil => rfl
  | cons q qs ih => exact congrArg (q.translate ns scope :: ·) ih

end

end Surface

namespace Term

/-- What the text of a term is the text of. -/
def spine : Term → Spine
  | .bvar i => ⟨.index i, []⟩
  | .fvar x => ⟨.var ⟨.fvar, toString x.id⟩, []⟩
  | .mvar m => ⟨.var ⟨.mvar, toString m.id⟩, []⟩
  | .sort 0 => ⟨.sort .prop, []⟩
  | .sort (_ + 1) => ⟨.sort .type, []⟩
  | .const n => ⟨.ident n.text, []⟩
  | .app f a => ⟨f.spine.fn, f.spine.args ++ [a.spine.phrase]⟩
  | .lam n _ d b =>
    ⟨.quantified .lam
      (.group .default [n.text] (some d.spine.phrase) (.body b.spine.phrase)), []⟩
  | .pi n _ d b =>
    ⟨.quantified .pi
      (.group .default [n.text] (some d.spine.phrase) (.body b.spine.phrase)), []⟩
  | .letE n t v b =>
    ⟨.letE n.text (some t.spine.phrase) v.spine.phrase b.spine.phrase, []⟩
  | .lit (.nat n) => ⟨.nat n, []⟩
  | .lit (.str s) => ⟨.str s, []⟩
  | .proj s i e => ⟨.proj s.text i e.spine.phrase, []⟩

/-! ## Text -/

theorem quote_eq {s : String} (h : ∀ c ∈ s.toList, Quoted.escape c = [c]) :
    Quoted.quote s = "\"" ++ s ++ "\"" := by
  have hbody : s.toList.flatMap Quoted.escape = s.toList := by
    rw [List.flatMap_congr h, List.flatMap_singleton']
  rw [Quoted.quote, hbody, ← String.toList_inj]
  simp

/-- A character that needs no escape is no quote. -/
theorem ne_quote_of_escape {s : String}
    (h : ∀ c ∈ s.toList, Quoted.escape c = [c]) : '"' ∉ s.toList := by
  intro hc
  cases h _ hc

theorem renderIn_app (f a : Term) :
    (app f a).renderIn true = f.renderIn true ++ " " ++ a.renderIn false := rfl

theorem renderIn_lam (b : Bool) (n : Name) (info : BinderInfo) (d t : Term) :
    (lam n info d t).renderIn b
      = "(fun (" ++ n.text ++ " : " ++ d.renderIn false ++ ") => "
        ++ t.renderIn false ++ ")" := rfl

theorem renderIn_pi (b : Bool) (n : Name) (info : BinderInfo) (d t : Term) :
    (pi n info d t).renderIn b
      = "(forall (" ++ n.text ++ " : " ++ d.renderIn false ++ "), "
        ++ t.renderIn false ++ ")" := rfl

theorem renderIn_letE (b : Bool) (n : Name) (d v t : Term) :
    (letE n d v t).renderIn b
      = "(let " ++ n.text ++ " : " ++ d.renderIn false ++ " := "
        ++ v.renderIn false ++ "; " ++ t.renderIn false ++ ")" := rfl

theorem render_group (q : Quantifier) (x : String) (type body : Phrase) :
    (Phrase.quantified q
        (.group .default [x] (some type) (.body body))).render
      = "(" ++ q.keyword ++ " (" ++ x ++ " : " ++ type.render ++ ")"
        ++ q.separatorText ++ body.render ++ ")" := by
  simp only [Phrase.render, Telescope.render, renderType, openText, closeText,
    ← String.toList_inj]
  simp

theorem renderIn_spine {t : Term} (ht : t.Printable) :
    t.renderIn true = t.spine.fn.render ++ renderArgs t.spine.args
      ∧ t.renderIn false = t.spine.phrase.render := by
  -- All terms but applications are printed alike in a spine and on their own.
  have hatom : ∀ {t : Term} {p : Phrase}, t.spine = ⟨p, []⟩ →
      (∀ b, t.renderIn b = p.render) →
      t.renderIn true = t.spine.fn.render ++ renderArgs t.spine.args
        ∧ t.renderIn false = t.spine.phrase.render := by
    intro t p hs ht
    rw [hs]
    exact ⟨(ht true).trans String.append_empty.symm, ht false⟩
  induction t with
  | app f a ihf iha =>
      have hspine : (app f a).renderIn true
          = f.spine.fn.render ++ renderArgs (f.spine.args ++ [a.spine.phrase]) := by
        rw [renderArgs_concat, renderIn_app, (ihf ht.1).1, (iha ht.2).2]
        simp only [String.append_assoc]
      refine ⟨hspine, ?_⟩
      have hfalse : (app f a).renderIn false
          = "(" ++ (app f a).renderIn true ++ ")" := rfl
      rw [hfalse, hspine, spine, Spine.phrase_concat, Phrase.render]
      simp only [String.append_assoc]
  | lam n info d b ihd ihb =>
      obtain ⟨-, -, -, hd, hb⟩ := ht
      refine hatom rfl fun _ => ?_
      rw [render_group, renderIn_lam, (ihd hd).2, (ihb hb).2]
      simp only [← String.toList_inj]
      simp [Quantifier.keyword, Quantifier.separatorText]
  | pi n info d b ihd ihb =>
      obtain ⟨-, -, -, hd, hb⟩ := ht
      refine hatom rfl fun _ => ?_
      rw [render_group, renderIn_pi, (ihd hd).2, (ihb hb).2]
      simp only [← String.toList_inj]
      simp [Quantifier.keyword, Quantifier.separatorText]
  | sort level =>
      cases level with
      | _ => exact hatom rfl fun _ => rfl
  | lit l =>
      cases l with
      | nat n => exact hatom rfl fun _ => rfl
      | str s => exact hatom rfl fun _ => quote_eq ht
  | letE n t v b iht ihv ihb =>
      obtain ⟨-, -, ht, hv, hb⟩ := ht
      refine hatom rfl fun _ => ?_
      rw [Phrase.render, renderType, renderIn_letE, (iht ht).2, (ihv hv).2,
        (ihb hb).2]
      simp only [String.append_assoc]
  | proj s i e ih =>
      refine hatom rfl fun _ => ?_
      rw [Phrase.render, ← (ih ht.2.2).2]
      rfl
  | _ => exact hatom rfl fun _ => rfl

/-! ## Meaning -/

theorem valid_numeral (i : Nat) (kind : VariableKind) :
    (Phrase.var ⟨kind, toString i⟩).Valid := by
  constructor
  · intro hempty
    have hdigits := congrArg String.toList hempty
    rw [toList_numeral] at hdigits
    exact Nat.toDigits_ne_nil hdigits
  · rw [toList_numeral]
    exact (isNumeral_toDigits i).isWordChar

theorem valid_spine {t : Term} (ht : t.Printable) : t.spine.Valid := by
  induction t with
  | app f a ihf iha =>
      have hf := ihf ht.1
      exact ⟨hf.1, (validArgs_concat ..).mpr
        ⟨hf.2, Spine.valid_phrase (iha ht.2)⟩⟩
  | lam n info d b ihd ihb | pi n info d b ihd ihb =>
      obtain ⟨-, hn, -, hd, hb⟩ := ht
      refine ⟨⟨List.cons_ne_nil _ _, ?_, nofun, Spine.valid_phrase (ihd hd),
        Spine.valid_phrase (ihb hb)⟩, trivial⟩
      exact List.forall_mem_singleton.mpr hn
  | letE n t v b iht ihv ihb =>
      obtain ⟨hn, -, ht, hv, hb⟩ := ht
      exact ⟨⟨hn, Spine.valid_phrase (iht ht), Spine.valid_phrase (ihv hv),
        Spine.valid_phrase (ihb hb)⟩, trivial⟩
  | proj s i e ih =>
      exact ⟨⟨ht.1, ht.2.1, Spine.valid_phrase (ih ht.2.2)⟩, trivial⟩
  | lit l =>
      cases l with
      | nat n => exact ⟨ht, trivial⟩
      | str s => exact ⟨ne_quote_of_escape ht, trivial⟩
  | sort level =>
      cases level with
      | _ => exact ⟨trivial, trivial⟩
  | mvar m => exact ⟨valid_numeral .., trivial⟩
  | fvar x => exact ⟨valid_numeral .., trivial⟩
  | bvar i => exact ⟨ht, trivial⟩
  | const n => exact ⟨ht, trivial⟩

/-- The printed number of a variable is its name, and its number again. -/
theorem assigns_numeral (ns : Names) {i : Nat} (hi : i ≤ maxId)
    (kind : VariableKind) : ns.Assigns ⟨kind, toString i⟩ i := by
  rw [Names.assigns_iff]
  refine numberOf_numeral ?_
  rw [toList_numeral]
  exact numeral?_toDigits hi

theorem askAll_spine (ns : Names) {t : Term} (ht : t.Printable) :
    ns.askAll t.spine.phrase.variables = ns := by
  induction t with
  | app f a ihf iha =>
      rw [Spine.variables_phrase] at ihf ⊢
      rw [Spine.variables, spine, variablesArgs_concat, ← List.append_assoc,
        Names.askAll_append]
      exact (congrArg (Names.askAll · a.spine.phrase.variables) (ihf ht.1)).trans
        (iha ht.2)
  | lam n info d b ihd ihb | pi n info d b ihd ihb =>
      obtain ⟨-, -, -, hd, hb⟩ := ht
      change ns.askAll (d.spine.phrase.variables ++ b.spine.phrase.variables) = ns
      rw [Names.askAll_append, ihd hd, ihb hb]
  | letE n t v b iht ihv ihb =>
      obtain ⟨-, -, ht, hv, hb⟩ := ht
      change ns.askAll (t.spine.phrase.variables ++ v.spine.phrase.variables
        ++ b.spine.phrase.variables) = ns
      rw [Names.askAll_append, Names.askAll_append, iht ht, ihv hv, ihb hb]
  | proj s i e ih => exact ih ht.2.2
  | mvar m => exact congrArg Prod.snd (assigns_numeral ns ht .mvar)
  | fvar x => exact congrArg Prod.snd (assigns_numeral ns ht .fvar)
  | lit l =>
      cases l with
      | _ => rfl
  | sort level =>
      cases level with
      | _ => rfl
  | _ => rfl

theorem resolve_of_not_mem {scope : Scope} {word : String}
    (h : some word ∉ scope) : scope.resolve word = .const ⟨word⟩ := by
  rw [Scope.resolve, List.idxOf?_eq_none_iff.mpr h]

/-- A binder hides no constant of its body. -/
theorem not_mem_push {n : Name} {ns : List Name} {scope : Scope} (hn : n ∉ ns)
    (hscope : ∀ m ∈ ns, some m.text ∉ scope) :
    ∀ m ∈ ns, some m.text ∉ some n.text :: scope := by
  intro m hm hmem
  rcases List.mem_cons.mp hmem with heq | hmem
  · obtain ⟨text⟩ := n
    obtain rfl : m.text = text := Option.some.inj heq
    exact hn hm
  · exact hscope m hm hmem

theorem translate_spine (ns : Names) {t : Term} (ht : t.Printable)
    {scope : Scope} (hscope : ∀ n ∈ t.consts, some n.text ∉ scope) :
    t.spine.phrase.translate ns scope = t := by
  induction t generalizing scope with
  | app f a ihf iha =>
      obtain ⟨hf, ha⟩ := List.forall_mem_append.mp hscope
      have hfn := ihf ht.1 hf
      rw [Spine.translate_phrase] at hfn
      rw [spine, Spine.translate_phrase, Spine.translate, translateArgs_concat,
        mkApp_concat, iha ht.2 ha]
      exact congrArg (Term.app · a) hfn
  | lam n info d b ihd ihb | pi n info d b ihd ihb =>
      obtain ⟨rfl, -, hn, hd, hb⟩ := ht
      obtain ⟨hdscope, hbscope⟩ := List.forall_mem_append.mp hscope
      have hdomain := ihd hd hdscope
      have hbody := ihb hb (not_mem_push hn hbscope)
      conv_rhs => rw [← hdomain, ← hbody]
      rfl
  | letE n t v b iht ihv ihb =>
      obtain ⟨-, hn, ht, hv, hb⟩ := ht
      obtain ⟨hout, hbscope⟩ := List.forall_mem_append.mp hscope
      obtain ⟨htscope, hvscope⟩ := List.forall_mem_append.mp hout
      have hbody := ihb hb (not_mem_push hn hbscope)
      conv_rhs => rw [← iht ht htscope, ← ihv hv hvscope, ← hbody]
      rfl
  | proj s i e ih => exact congrArg (Term.proj s i) (ih ht.2.2 hscope)
  | lit l =>
      cases l with
      | _ => rfl
  | sort level =>
      match level, ht with
      | 0, _ => rfl
      | 1, _ => rfl
  | mvar m =>
      have hnumber := congrArg Prod.fst (assigns_numeral ns ht .mvar)
      exact congrArg (fun i => Term.mvar ⟨i⟩) hnumber
  | fvar x =>
      have hnumber := congrArg Prod.fst (assigns_numeral ns ht .fvar)
      exact congrArg (fun i => Term.fvar ⟨i⟩) hnumber
  | bvar i => rfl
  | const n => exact resolve_of_not_mem (hscope n (List.mem_singleton_self n))

/-- **Parsing undoes printing.** A term that is printed in full is read back from
its text, and no variable is met that has a name. -/
theorem parse_printed (ns : Names) {t : Term} (ht : t.Printable) :
    parse ns t.render = (.ok t, ns) := by
  have hvalid := Spine.valid_phrase (valid_spine ht)
  have hread := (t.spine.phrase.spells hvalid).parse
    (Reader.gives_whole _ hvalid ns)
  rw [askAll_spine ns ht, translate_spine ns ht fun n _ => List.not_mem_nil]
    at hread
  rw [render, (renderIn_spine ht).2]
  exact hread

/-- A constructor applied to a bound variable, a metavariable and a projection. -/
def applied : Term :=
  .lam "x" .default (.const "Nat")
    (.app (.app (.app (.const "S.mk") (.bvar 0)) (.mvar ⟨3⟩))
      (.proj "S" 1 (.lit (.str "a b"))))

theorem parse_printed_applied :
    applied.Printable
      ∧ parse .empty "(fun (x : Nat) => (S.mk #0 ?3 (proj S 1 \"a b\")))"
        = (.ok applied, .empty) := by
  have happlied : applied.Printable := by
    have hescape (s : String) : (∀ c ∈ s.toList, Quoted.escape c = [c])
        ↔ (s.toList.all fun c => Quoted.escape c == [c]) = true := by
      simp only [List.all_eq_true, beq_iff_eq]
    simp only [applied, Printable, consts, Nameable, hescape]
    decide +kernel
  exact ⟨happlied, parse_printed .empty happlied⟩

end Term

end TermIndex
