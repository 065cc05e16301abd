import TermIndex.Proofs.Spelling
import TermIndex.Proofs.VariableNumbers
import TermIndex.Surface.Parser

/-!
# Phrases of the surface syntax

A phrase is a term as it is written. It has a text, in which everything that
consists of parts stands in parentheses, and it stands for a term: every
identifier for the closest binder of its name, or else for a constant.

The text of a phrase is read as its tokens (`spells_render`).
-/

namespace TermIndex.Surface

/-- The words for sorts. -/
inductive SortWord where
  | prop
  | type
  | sort

def SortWord.text : SortWord → String
  | .prop => "Prop"
  | .type => "Type"
  | .sort => "Sort"

def SortWord.level : SortWord → Nat
  | .prop => 0
  | .type | .sort => 1

inductive Quantifier where
  | lam
  | pi

namespace Quantifier

def keyword : Quantifier → String
  | .lam => "fun"
  | .pi => "forall"

/-- The token between the binders and the body. -/
def separator : Quantifier → Token
  | .lam => .fatArrow
  | .pi => .comma

def bind : Quantifier → Name → BinderInfo → Term → Term → Term
  | .lam => .lam
  | .pi => .pi

/-- The binders of one group: each name has the domain of the group, moved under
the names before it, of which there are `k`. -/
def bindGroup (q : Quantifier) (info : BinderInfo) (domain : Term) (k : Nat) :
    List String → Term → Term
  | [], body => body
  | x :: xs, body =>
    q.bind ⟨x⟩ info (domain.raise 0 k) (q.bindGroup info domain (k + 1) xs body)

end Quantifier

mutual

inductive Phrase where
  | ident (word : String)
  | var (v : Variable)
  | index (i : Nat)
  | nat (n : Nat)
  | str (s : String)
  | sort (w : SortWord)
  | app (fn : Phrase) (args : List Phrase)
  | quantified (q : Quantifier) (inside : Telescope)
  | arrow (left right : Phrase)
  | letE (name : String) (type : Option Phrase) (value body : Phrase)
  | proj (struct : String) (index : Nat) (value : Phrase)

/-- Binders, and the body that they are in front of. A group is written in the
brackets of its kind. -/
inductive Telescope where
  | body (b : Phrase)
  | bare (name : String) (inner : Telescope)
  | group (info : BinderInfo) (names : List String) (type : Option Phrase)
      (inner : Telescope)

end

/-! ## Text -/

def Variable.render : Variable → String
  | ⟨.mvar, name⟩ => "?" ++ name
  | ⟨.fvar, name⟩ => "$" ++ name

def openText : BinderInfo → String
  | .default => "("
  | .implicit => "\x7b"
  | .strict => "\x7b\x7b"
  | .inst => "["

def closeText : BinderInfo → String
  | .default => ")"
  | .implicit => "\x7d"
  | .strict => "\x7d\x7d"
  | .inst => "]"

def Quantifier.separatorText : Quantifier → String
  | .lam => " => "
  | .pi => ", "

mutual

/-- The text of a phrase, fully parenthesised. -/
def Phrase.render : Phrase → String
  | .ident word => word
  | .var v => v.render
  | .index i => "#" ++ toString i
  | .nat n => toString n
  | .str s => "\"" ++ s ++ "\""
  | .sort w => w.text
  | .app fn args => "(" ++ fn.render ++ renderArgs args ++ ")"
  | .quantified q inside => "(" ++ q.keyword ++ inside.render q ++ ")"
  | .arrow left right => "(" ++ left.render ++ " -> " ++ right.render ++ ")"
  | .letE name type value body =>
    "(let " ++ name ++ renderType type ++ " := " ++ value.render ++ "; "
      ++ body.render ++ ")"
  | .proj struct i value =>
    "(proj " ++ struct ++ " " ++ toString i ++ " " ++ value.render ++ ")"

def renderArgs : List Phrase → String
  | [] => ""
  | p :: ps => " " ++ p.render ++ renderArgs ps

def renderType : Option Phrase → String
  | none => ""
  | some p => " : " ++ p.render

def Telescope.render (q : Quantifier) : Telescope → String
  | .body b => q.separatorText ++ b.render
  | .bare name inner => " " ++ name ++ inner.render q
  | .group info names type inner =>
    " " ++ openText info ++ " ".intercalate names ++ renderType type
      ++ closeText info ++ inner.render q

end

/-! ## Tokens -/

def Variable.token : Variable → Token
  | ⟨.mvar, name⟩ => .mvar name
  | ⟨.fvar, name⟩ => .fvar name

def openTokens : BinderInfo → List Token
  | .default => [.lparen]
  | .implicit => [.lbrace]
  | .strict => [.lbrace, .lbrace]
  | .inst => [.lbracket]

def closeTokens : BinderInfo → List Token
  | .default => [.rparen]
  | .implicit => [.rbrace]
  | .strict => [.rbrace, .rbrace]
  | .inst => [.rbracket]

mutual

def Phrase.tokens : Phrase → List Token
  | .ident word => [.ident word]
  | .var v => [v.token]
  | .index i => [.bvar i]
  | .nat n => [.nat n]
  | .str s => [.str s]
  | .sort w => [.ident w.text]
  | .app fn args => .lparen :: fn.tokens ++ tokensArgs args ++ [.rparen]
  | .quantified q inside =>
    .lparen :: .ident q.keyword :: inside.tokens q ++ [.rparen]
  | .arrow left right =>
    .lparen :: left.tokens ++ .arrow :: right.tokens ++ [.rparen]
  | .letE name type value body =>
    .lparen :: .ident "let" :: .ident name :: tokensType type
      ++ .assign :: value.tokens ++ .semi :: body.tokens ++ [.rparen]
  | .proj struct i value =>
    .lparen :: .ident "proj" :: .ident struct :: .nat i :: value.tokens
      ++ [.rparen]

def tokensArgs : List Phrase → List Token
  | [] => []
  | p :: ps => p.tokens ++ tokensArgs ps

def tokensType : Option Phrase → List Token
  | none => []
  | some p => .colon :: p.tokens

def Telescope.tokens (q : Quantifier) : Telescope → List Token
  | .body b => q.separator :: b.tokens
  | .bare name inner => .ident name :: inner.tokens q
  | .group info names type inner =>
    openTokens info ++ names.map .ident ++ tokensType type ++ closeTokens info
      ++ inner.tokens q

end

/-! ## Meaning -/

mutual

/-- The variables of a phrase, from the left. -/
def Phrase.variables : Phrase → List Variable
  | .var v => [v]
  | .app fn args => fn.variables ++ variablesArgs args
  | .quantified _ inside => inside.variables
  | .arrow left right => left.variables ++ right.variables
  | .letE _ type value body =>
    variablesType type ++ value.variables ++ body.variables
  | .proj _ _ value => value.variables
  | .ident _ | .index _ | .nat _ | .str _ | .sort _ => []

def variablesArgs : List Phrase → List Variable
  | [] => []
  | p :: ps => p.variables ++ variablesArgs ps

def variablesType : Option Phrase → List Variable
  | none => []
  | some p => p.variables

def Telescope.variables : Telescope → List Variable
  | .body b => b.variables
  | .bare _ inner => inner.variables
  | .group _ _ type inner => variablesType type ++ inner.variables

end

/-- What a variable stands for. -/
def Names.translate (ns : Names) : Variable → Term
  | ⟨.mvar, name⟩ => .mvar (ns.mvar name).1
  | ⟨.fvar, name⟩ => .fvar (ns.fvar name).1

/-- What a variable stands for does not change. -/
theorem Names.translate_later {ns ids : Names} {v : Variable}
    (h : (ns.ask v).Later ids) : ids.translate v = ns.translate v := by
  obtain ⟨more, rfl⟩ := h
  have hnumber := congrArg Prod.fst ((assigns_ask ns v).later more)
  obtain ⟨_ | _, name⟩ := v
  · exact congrArg (fun i => Term.mvar ⟨i⟩) hnumber
  · exact congrArg (fun i => Term.fvar ⟨i⟩) hnumber

mutual

/-- The term that a phrase stands for, below binders of these names, the
innermost first. The binder of an arrow cannot be seen. -/
def Phrase.translate (ns : Names) (scope : Scope) : Phrase → Term
  | .ident word => scope.resolve word
  | .var v => ns.translate v
  | .index i => .bvar i
  | .nat n => .lit (.nat n)
  | .str s => .lit (.str s)
  | .sort w => .sort w.level
  | .app fn args => (fn.translate ns scope).mkApp (translateArgs ns scope args)
  | .quantified q inside => inside.translate ns q scope
  | .arrow left right =>
    (left.translate ns scope).arrow (right.translate ns scope)
  | .letE name type value body =>
    .letE ⟨name⟩ (translateType ns scope type) (value.translate ns scope)
      (body.translate ns (some name :: scope))
  | .proj struct i value => .proj ⟨struct⟩ i (value.translate ns scope)

def translateArgs (ns : Names) (scope : Scope) : List Phrase → List Term
  | [] => []
  | p :: ps => p.translate ns scope :: translateArgs ns scope ps

/-- A type that is left out is a sort. -/
def translateType (ns : Names) (scope : Scope) : Option Phrase → Term
  | none => .sort 1
  | some p => p.translate ns scope

def Telescope.translate (ns : Names) (q : Quantifier) (scope : Scope) :
    Telescope → Term
  | .body b => b.translate ns scope
  | .bare name inner =>
    q.bind ⟨name⟩ .default (.sort 1) (inner.translate ns q (some name :: scope))
  | .group info names type inner =>
    q.bindGroup info (translateType ns scope type) 0 names
      (inner.translate ns q (names.foldl (fun s x => some x :: s) scope))

end

/-! ## Phrases that can be written -/

/-- An identifier that is no keyword. -/
def Nameable (word : String) : Prop := IsWord word ∧ isKeyword word = false

mutual

/-- There is no explicit index in the phrase. -/
def Phrase.IndexFree : Phrase → Prop
  | .index _ => False
  | .app fn args => fn.IndexFree ∧ IndexFreeArgs args
  | .quantified _ inside => inside.IndexFree
  | .arrow left right => left.IndexFree ∧ right.IndexFree
  | .letE _ type value body =>
    IndexFreeType type ∧ value.IndexFree ∧ body.IndexFree
  | .proj _ _ value => value.IndexFree
  | .ident _ | .var _ | .nat _ | .str _ | .sort _ => True

def IndexFreeArgs : List Phrase → Prop
  | [] => True
  | p :: ps => p.IndexFree ∧ IndexFreeArgs ps

def IndexFreeType : Option Phrase → Prop
  | none => True
  | some p => p.IndexFree

def Telescope.IndexFree : Telescope → Prop
  | .body b => b.IndexFree
  | .bare _ inner => inner.IndexFree
  | .group _ _ type inner => IndexFreeType type ∧ inner.IndexFree

end

mutual

/-- Every part of the phrase can be written: identifiers and variables are
words, numbers are within their bounds, strings have no quote, and groups have a
name. Right of an arrow there is no explicit index, because there the arrow
counts as a binder. -/
def Phrase.Valid : Phrase → Prop
  | .ident word =>
    Nameable word ∧ word ≠ "Prop" ∧ word ≠ "Type" ∧ word ≠ "Sort"
  | .var v => v.name ≠ "" ∧ ∀ c ∈ v.name.toList, isWordChar c = true
  | .index i => i ≤ maxId
  | .nat n => n ≤ maxLiteral
  | .str s => '"' ∉ s.toList
  | .sort _ => True
  | .app fn args => fn.Valid ∧ ValidArgs args
  | .quantified _ inside => inside.Valid
  | .arrow left right => left.Valid ∧ right.Valid ∧ right.IndexFree
  | .letE name type value body =>
    Nameable name ∧ ValidType type ∧ value.Valid ∧ body.Valid
  | .proj struct i value => Nameable struct ∧ i ≤ maxId ∧ value.Valid

def ValidArgs : List Phrase → Prop
  | [] => True
  | p :: ps => p.Valid ∧ ValidArgs ps

def ValidType : Option Phrase → Prop
  | none => True
  | some p => p.Valid

/-- In square brackets the type is not left out: without a colon, what stands
there is not the names but the type. -/
def Telescope.Valid : Telescope → Prop
  | .body b => b.Valid
  | .bare name inner => Nameable name ∧ inner.Valid
  | .group info names type inner =>
    names ≠ [] ∧ (∀ x ∈ names, Nameable x) ∧ (info = .inst → type ≠ none)
      ∧ ValidType type ∧ inner.Valid

end

/-! ## Spelling -/

theorem spells_openText {s : List Char} {ts : List Token} (info : BinderInfo)
    (h : Spells s ts) :
    Spells ((openText info).toList ++ s) (openTokens info ++ ts) := by
  cases info with
  | default => exact h.mark rfl rfl
  | implicit => exact h.mark rfl rfl
  | strict => exact (h.mark rfl rfl).mark rfl rfl
  | inst => exact h.mark rfl rfl

theorem spells_closeText {s : List Char} {ts : List Token} (info : BinderInfo)
    (h : Spells s ts) :
    Spells ((closeText info).toList ++ s) (closeTokens info ++ ts) := by
  cases info with
  | default => exact h.mark rfl rfl
  | implicit => exact h.mark rfl rfl
  | strict => exact (h.mark rfl rfl).mark rfl rfl
  | inst => exact h.mark rfl rfl

theorem ends_closeText (info : BinderInfo) (s : List Char) :
    Ends ((closeText info).toList ++ s) := by
  cases info with
  | _ => exact .cons (by decide +kernel) _

theorem isWord_keyword (q : Quantifier) : IsWord q.keyword := by
  cases q with
  | _ => decide +kernel

theorem isWord_let : IsWord "let" := by decide +kernel

theorem isWord_proj : IsWord "proj" := by decide +kernel

theorem isWord_text (w : SortWord) : IsWord w.text := by
  cases w with
  | _ => decide +kernel

theorem leads_words {words : List String} (hne : words ≠ [])
    (hwords : ∀ w ∈ words, IsWord w) {s s' : List Char} {ts : List Token}
    (hs : Ends s) (h : Leads s ts s') :
    Leads ((" ".intercalate words).toList ++ s) (words.map .ident ++ ts) s' := by
  induction words with
  | nil => exact absurd rfl hne
  | cons w words ih =>
      obtain ⟨hw, hwords⟩ := List.forall_mem_cons.mp hwords
      cases words with
      | nil => simpa using h.word hw hs
      | cons w' words =>
          have hrest := ih (List.cons_ne_nil w' words) hwords
          have htext : (" ".intercalate (w :: w' :: words)).toList
              = w.toList ++ ' ' :: (" ".intercalate (w' :: words)).toList := by
            simp [String.toList_intercalate]
          rw [htext, List.append_assoc, List.cons_append]
          exact hrest.space.word hw (.cons (by decide +kernel) _)

theorem Ends.space (s : List Char) : Ends (' ' :: s) :=
  .cons (by decide +kernel) s

theorem Ends.close (s : List Char) : Ends (')' :: s) :=
  .cons (by decide +kernel) s

theorem ends_args (args : List Phrase) {s : List Char} (hs : Ends s) :
    Ends ((renderArgs args).toList ++ s) := by
  cases args with
  | nil => exact hs
  | cons p ps =>
      rw [renderArgs, String.toList_append, String.toList_append,
        List.append_assoc, List.append_assoc]
      exact .space _

theorem ends_type (type : Option Phrase) {s : List Char} (hs : Ends s) :
    Ends ((renderType type).toList ++ s) := by
  cases type with
  | none => exact hs
  | some p =>
      rw [renderType, String.toList_append, List.append_assoc]
      exact .space _

theorem ends_telescope (q : Quantifier) (inside : Telescope) (s : List Char) :
    Ends ((inside.render q).toList ++ s) := by
  cases inside with
  | body b =>
      rw [Telescope.render, String.toList_append, List.append_assoc]
      cases q with
      | lam => exact .space _
      | pi => exact .cons (c := ',') (by decide +kernel) _
  | _ =>
      simp only [Telescope.render, String.toList_append, List.append_assoc]
      exact .space _

theorem toList_numeral (n : Nat) : (toString n).toList = Nat.toDigits 10 n :=
  Nat.toList_repr

mutual

/-- **The text of a phrase is read as its tokens.** -/
theorem spells_render (p : Phrase) (hp : p.Valid) {s : List Char}
    {ts : List Token} (hs : Ends s) (h : Spells s ts) :
    Spells (p.render.toList ++ s) (p.tokens ++ ts) := by
  cases p with
  | ident word => exact h.word hp.1.1 hs
  | var v =>
      obtain ⟨_ | _, name⟩ := v
      · rw [Phrase.render, Variable.render, String.toList_append,
          List.append_assoc]
        exact h.mvar hp.1 hp.2 hs
      · rw [Phrase.render, Variable.render, String.toList_append,
          List.append_assoc]
        exact h.fvar hp.1 hp.2 hs
  | index i =>
      rw [Phrase.render, String.toList_append, toList_numeral,
        List.append_assoc]
      exact h.index hp hs
  | nat n =>
      rw [Phrase.render, toList_numeral]
      exact h.nat hp hs
  | str t =>
      rw [Phrase.render, String.toList_append, String.toList_append,
        List.append_assoc, List.append_assoc]
      exact h.str hp
  | sort w => exact h.word (isWord_text w) hs
  | app fn args =>
      simp only [Phrase.render, Phrase.tokens, String.toList_append,
        List.append_assoc, List.cons_append, List.nil_append]
      refine .mark rfl rfl (spells_render fn hp.1 ?_ ?_)
      · exact ends_args args (.close s)
      · exact spells_args args hp.2 (.close s) (h.mark rfl rfl)
  | quantified q inside =>
      simp only [Phrase.render, Phrase.tokens, String.toList_append,
        List.append_assoc, List.cons_append, List.nil_append]
      refine .mark rfl rfl (.word (isWord_keyword q) ?_ ?_)
      · exact ends_telescope q inside _
      · exact spells_telescope q inside hp (h.mark rfl rfl)
  | arrow left right =>
      simp only [Phrase.render, Phrase.tokens, String.toList_append,
        List.append_assoc, List.cons_append, List.nil_append]
      refine .mark rfl rfl (spells_render left hp.1 (.space _) ?_)
      refine .space (.arrow (.space ?_))
      exact spells_render right hp.2.1 (.close s) (h.mark rfl rfl)
  | letE name type value body =>
      simp only [Phrase.render, Phrase.tokens, String.toList_append,
        List.append_assoc, List.cons_append, List.nil_append]
      refine .mark rfl rfl (.word isWord_let (.space _) (.space ?_))
      refine .word hp.1.1 (ends_type type (.space _)) ?_
      refine spells_type type hp.2.1 (.space _) (.space (.assign (.space ?_)))
      refine spells_render value hp.2.2.1 (.cons (by decide +kernel) _) ?_
      refine .mark rfl rfl (.space ?_)
      exact spells_render body hp.2.2.2 (.close s) (h.mark rfl rfl)
  | proj struct i value =>
      simp only [Phrase.render, Phrase.tokens, String.toList_append,
        toList_numeral, List.append_assoc, List.cons_append, List.nil_append]
      refine .mark rfl rfl (.word isWord_proj (.space _) (.space ?_))
      refine .word hp.1.1 (.space _) (.space (.nat ?_ (.space _) (.space ?_)))
      · exact Nat.le_trans hp.2.1 (by decide)
      · exact spells_render value hp.2.2 (.close s) (h.mark rfl rfl)

theorem spells_args (ps : List Phrase) (hps : ValidArgs ps) {s : List Char}
    {ts : List Token} (hs : Ends s) (h : Spells s ts) :
    Spells ((renderArgs ps).toList ++ s) (tokensArgs ps ++ ts) := by
  cases ps with
  | nil => exact h
  | cons p ps =>
      simp only [renderArgs, tokensArgs, String.toList_append,
        List.append_assoc]
      refine .space (spells_render p hps.1 (ends_args ps hs) ?_)
      exact spells_args ps hps.2 hs h

theorem spells_type (type : Option Phrase) (htype : ValidType type)
    {s : List Char} {ts : List Token} (hs : Ends s) (h : Spells s ts) :
    Spells ((renderType type).toList ++ s) (tokensType type ++ ts) := by
  cases type with
  | none => exact h
  | some p =>
      rw [renderType, String.toList_append, List.append_assoc]
      exact .space (.colon (spells_render p htype hs h))

theorem spells_telescope (q : Quantifier) (inside : Telescope)
    (hinside : inside.Valid) {s : List Char} {ts : List Token}
    (h : Spells (')' :: s) ts) :
    Spells ((inside.render q).toList ++ ')' :: s) (inside.tokens q ++ ts) := by
  cases inside with
  | body b =>
      have hbody := spells_render b hinside (.close s) h
      rw [Telescope.render, String.toList_append, List.append_assoc]
      cases q with
      | lam => exact hbody.space.fatArrow.space
      | pi => exact .mark rfl rfl hbody.space
  | bare name inner =>
      simp only [Telescope.render, Telescope.tokens, String.toList_append,
        List.append_assoc, List.cons_append]
      refine .space (.word hinside.1.1 (ends_telescope q inner _) ?_)
      exact spells_telescope q inner hinside.2 h
  | group info names type inner =>
      obtain ⟨hne, hnames, -, htype, hinner⟩ := hinside
      simp only [Telescope.render, Telescope.tokens, String.toList_append,
        List.append_assoc]
      refine .space (spells_openText info (leads_words hne ?_ ?_ ?_))
      · exact fun w hw => (hnames w hw).1
      · exact ends_type type (ends_closeText info _)
      · refine spells_type type htype (ends_closeText info _) ?_
        refine spells_closeText info ?_
        exact spells_telescope q inner hinner h

end

end TermIndex.Surface
