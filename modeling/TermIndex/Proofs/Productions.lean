import TermIndex.Proofs.Grammar

/-!
# Productions

The grammar as a relation between states. A state has a stack of the names of the
binders around the place, the tokens that are left, and the names of variables
met so far. `Reads i s s'` means that the item `i` is read between the two: there
is one rule for each production, and a rule that opens a binder pushes its name on
the stack, reads on, and takes the name off again.

Whatever is read takes tokens from the left and leaves the others
(`Reads.takes`). A term leaves the stack as it was; binders and groups leave their
own names on it (`Reads.restores`), and are cut off with the whole construct.
-/

namespace TermIndex.Surface

open Reader

/-! ## States -/

structure State where
  stack : Scope
  tokens : List Token
  names : Names

namespace State

/-- The state without the innermost binder. -/
def pop (s : State) : State := { s with stack := s.stack.tail }

/-- The state without the binders above the outermost `depth`. -/
def cut (s : State) (depth : Nat) : State :=
  { s with stack := s.stack.drop (s.stack.length - depth) }

end State

/-- What there is to be read: a term, an application, an atom, further arguments
of `f` that make up `t`, a type that may be left out, the binders up to a
separator, or the inside of one group. -/
inductive Item where
  | term (t : Term)
  | application (t : Term)
  | arguments (f t : Term)
  | atom (t : Term)
  | type (d : Term)
  | binders (q : Quantifier) (bs : List Binder)
  | group (info : BinderInfo) (bs : List Binder)

/-! ## The rules -/

inductive Reads : Item → State → State → Prop where
  | alone {t : Term} {s s' : State} (happ : Reads (.application t) s s')
      (hend : s'.tokens.head? ≠ some .arrow) : Reads (.term t) s s'
  | arrow {left right : Term} {s s' : State} {σ : Scope} {ts : List Token}
      {ns : Names} (hleft : Reads (.application left) s ⟨σ, .arrow :: ts, ns⟩)
      (hright : Reads (.term right) ⟨none :: σ, ts, ns⟩ s') :
      Reads (.term (.pi "a" .default left right)) s s'.pop
  | application {f t : Term} {s s₁ s' : State} (hf : Reads (.atom f) s s₁)
      (hargs : Reads (.arguments f t) s₁ s') : Reads (.application t) s s'
  | done {f : Term} {s : State} (hend : beginsAtom s.tokens = false) :
      Reads (.arguments f f) s s
  | argument {f a t : Term} {s s₁ s' : State} (ha : Reads (.atom a) s s₁)
      (hmore : Reads (.arguments (.app f a) t) s₁ s') :
      Reads (.arguments f t) s s'
  | paren {t : Term} {σ σ' : Scope} {ts ts' : List Token} {ns ns' : Names}
      (ht : Reads (.term t) ⟨σ, ts, ns⟩ ⟨σ', .rparen :: ts', ns'⟩) :
      Reads (.atom t) ⟨σ, .lparen :: ts, ns⟩ ⟨σ', ts', ns'⟩
  | var (v : Variable) (σ : Scope) (ts : List Token) (ns : Names) :
      Reads (.atom (ns.translate v)) ⟨σ, v.token :: ts, ns⟩ ⟨σ, ts, ns.ask v⟩
  | index (i : Nat) (σ : Scope) (ts : List Token) (ns : Names) :
      Reads (.atom (.bvar i)) ⟨σ, .bvar i :: ts, ns⟩ ⟨σ, ts, ns⟩
  | nat (n : Nat) (σ : Scope) (ts : List Token) (ns : Names) :
      Reads (.atom (.lit (.nat n))) ⟨σ, .nat n :: ts, ns⟩ ⟨σ, ts, ns⟩
  | str (x : String) (σ : Scope) (ts : List Token) (ns : Names) :
      Reads (.atom (.lit (.str x))) ⟨σ, .str x :: ts, ns⟩ ⟨σ, ts, ns⟩
  | ident {word : String} (hword : isKeyword word = false) (σ : Scope)
      (ts : List Token) (ns : Names) :
      Reads (.atom (identifier σ word)) ⟨σ, .ident word :: ts, ns⟩ ⟨σ, ts, ns⟩
  | quantified {q : Quantifier} {bs : List Binder} {body : Term} {σ : Scope}
      {ts : List Token} {ns : Names} {s₁ s' : State}
      (hbs : Reads (.binders q bs) ⟨σ, ts, ns⟩ s₁)
      (hbody : Reads (.term body) s₁ s') :
      Reads (.atom (q.binds bs body)) ⟨σ, .ident q.keyword :: ts, ns⟩
        (s'.cut σ.length)
  | letE {x : String} {type value body : Term} {σ σ₁ σ₂ : Scope}
      {ts ts₁ ts₂ : List Token} {ns ns₁ ns₂ : Names} {s' : State}
      (hx : isKeyword x = false)
      (htype : Reads (.type type) ⟨σ, ts, ns⟩ ⟨σ₁, .assign :: ts₁, ns₁⟩)
      (hvalue : Reads (.term value) ⟨σ₁, ts₁, ns₁⟩ ⟨σ₂, .semi :: ts₂, ns₂⟩)
      (hbody : Reads (.term body) ⟨some x :: σ₂, ts₂, ns₂⟩ s') :
      Reads (.atom (.letE ⟨x⟩ type value body))
        ⟨σ, .ident "let" :: .ident x :: ts, ns⟩ s'.pop
  | proj {struct : String} (i : Nat) {value : Term} {σ : Scope}
      {ts : List Token} {ns : Names} {s' : State}
      (hstruct : isKeyword struct = false)
      (hvalue : Reads (.atom value) ⟨σ, ts, ns⟩ s') :
      Reads (.atom (.proj ⟨struct⟩ (i % (maxId + 1)) value))
        ⟨σ, .ident "proj" :: .ident struct :: .nat i :: ts, ns⟩ s'
  | written {d : Term} {σ : Scope} {ts : List Token} {ns : Names} {s' : State}
      (hd : Reads (.term d) ⟨σ, ts, ns⟩ s') :
      Reads (.type d) ⟨σ, .colon :: ts, ns⟩ s'
  | omitted {s : State} (hend : s.tokens.head? ≠ some .colon) :
      Reads (.type (.sort 1)) s s
  | separator (q : Quantifier) (σ : Scope) (ts : List Token) (ns : Names) :
      Reads (.binders q []) ⟨σ, q.separator :: ts, ns⟩ ⟨σ, ts, ns⟩
  | bare {q : Quantifier} {x : String} {more : List Binder} {σ : Scope}
      {ts : List Token} {ns : Names} {s' : State} (hx : isKeyword x = false)
      (hmore : Reads (.binders q more) ⟨some x :: σ, ts, ns⟩ s') :
      Reads (.binders q (⟨x, .default, .sort 1⟩ :: more))
        ⟨σ, .ident x :: ts, ns⟩ s'
  | grouped {q : Quantifier} {info : BinderInfo} {bs more : List Binder}
      {σ σ₁ : Scope} {ts ts₁ : List Token} {ns ns₁ : Names} {s' : State}
      (hgroup : Reads (.group info bs) ⟨σ, ts, ns⟩
        ⟨σ₁, (closeTokens info).tail ++ ts₁, ns₁⟩)
      (hmore : Reads (.binders q more) ⟨σ₁, ts₁, ns₁⟩ s') :
      Reads (.binders q (bs ++ more)) ⟨σ, openTokens info ++ ts, ns⟩ s'
  | group {info : BinderInfo} {words : List String} {d : Term} {σ σ' : Scope}
      {ts ts' : List Token} {ns ns' : Names} (hne : words ≠ [])
      (hwords : ∀ w ∈ words, isKeyword w = false)
      (hinst : info = .inst → ts.head? = some .colon)
      (htype : Reads (.type d) ⟨σ, ts, ns⟩ ⟨σ', closing info :: ts', ns'⟩) :
      Reads (.group info (Binder.group info d words))
        ⟨σ, words.map .ident ++ ts, ns⟩
        ⟨words.foldl (fun σ x => some x :: σ) σ', ts', ns'⟩
  | anonymous {f : String} {as : List String}
      (hwords : ∀ w ∈ f :: as, isKeyword w = false) (σ : Scope)
      (ts : List Token) (ns : Names) :
      Reads (.group .inst (Binder.group .inst
          ((σ.resolve f).mkApp (as.map σ.resolve)) ["inst"]))
        ⟨σ, (f :: as).map .ident ++ .rbracket :: ts, ns⟩
        ⟨some "inst" :: σ, ts, ns⟩

/-! ## Stacks -/

theorem enter_eq (bs : List Binder) (σ : Scope) :
    Binder.enter bs σ = (bs.map fun b => some b.name).reverse ++ σ := by
  induction bs generalizing σ with
  | nil => rfl
  | cons b bs ih =>
      rw [List.map_cons, List.reverse_cons, List.append_assoc]
      exact ih (some b.name :: σ)

theorem length_enter (bs : List Binder) (σ : Scope) :
    (Binder.enter bs σ).length = bs.length + σ.length := by
  simp [enter_eq]

/-- What binders have put on a stack is cut off again. -/
theorem drop_enter (bs : List Binder) (σ : Scope) :
    (Binder.enter bs σ).drop ((Binder.enter bs σ).length - σ.length) = σ := by
  have hfront : (Binder.enter bs σ).length - σ.length
      = (bs.map fun b => some b.name).reverse.length := by
    simp [length_enter]
  rw [hfront, enter_eq, List.drop_left]

/-- What a reading does to the stack. -/
def Item.stackAfter : Item → Scope → Scope
  | .binders _ bs, σ | .group _ bs, σ => Binder.enter bs σ
  | _, σ => σ

/-- **Every name that is pushed is taken off again.** -/
theorem Reads.restores {i : Item} {s s' : State} (h : Reads i s s') :
    s'.stack = i.stackAfter s.stack := by
  induction h with
  | alone _ _ ih | paren _ ih | written _ ih => exact ih
  | arrow _ _ ihleft ihright =>
      rw [State.pop, ihright]
      exact ihleft
  | application _ _ ihf ihargs => exact ihargs.trans ihf
  | done _ | omitted _ => rfl
  | argument _ _ iha ihmore => exact ihmore.trans iha
  | var | index | nat | str | ident | separator => rfl
  | quantified _ _ ihbs ihbody =>
      rw [State.cut, ihbody]
      dsimp only [Item.stackAfter] at ihbs ⊢
      rw [ihbs, drop_enter]
  | letE _ _ _ _ ihtype ihvalue ihbody =>
      rw [State.pop, ihbody]
      exact ihvalue.trans ihtype
  | proj _ _ _ ih => exact ih
  | bare _ _ ih => exact ih
  | grouped _ _ ihgroup ihmore =>
      rw [ihmore]
      dsimp only [Item.stackAfter] at ihgroup ⊢
      rw [ihgroup, enter_append]
  | group _ _ _ _ ih =>
      dsimp only [Item.stackAfter] at ih ⊢
      rw [ih, enter_group]
  | anonymous => rfl

/-! ## Tokens -/

/-- At least `n` tokens are taken from the left, and the others are left. -/
def Takes (n : Nat) (ts ts' : List Token) : Prop :=
  ts' <:+ ts ∧ ts'.length + n ≤ ts.length

namespace Takes

variable {m n : Nat} {t : Token} {ts ts₁ ts' : List Token}

theorem refl (ts : List Token) : Takes 0 ts ts :=
  ⟨List.suffix_refl ts, Nat.le_refl _⟩

theorem trans (h : Takes m ts ts₁) (h' : Takes n ts₁ ts') :
    Takes (m + n) ts ts' :=
  ⟨h'.1.trans h.1, by have := h.2; have := h'.2; omega⟩

theorem front (us : List Token) (h : Takes n ts ts') :
    Takes (us.length + n) (us ++ ts) ts' :=
  ⟨h.1.trans (List.suffix_append us ts), by
    have := h.2
    rw [List.length_append]
    omega⟩

theorem cons (h : Takes n ts ts') : Takes (n + 1) (t :: ts) ts' := by
  rw [Nat.add_comm]
  exact h.front [t]

theorem next (h : Takes n ts (t :: ts')) : Takes (n + 1) ts ts' :=
  h.trans (cons (refl ts'))

theorem mono (h : Takes n ts ts') (hmn : m ≤ n) : Takes m ts ts' :=
  ⟨h.1, by have := h.2; omega⟩

end Takes

/-- The fewest tokens that an item is read from. -/
def Item.least : Item → Nat
  | .arguments _ _ | .type _ => 0
  | _ => 1

/-- A reading takes tokens from the left, and leaves the others. -/
theorem Reads.takes {i : Item} {s s' : State} (h : Reads i s s') :
    Takes i.least s.tokens s'.tokens := by
  induction h with
  | alone _ _ ih => exact ih
  | arrow _ _ ihleft ihright =>
      exact (ihleft.next.trans ihright).mono (by simp [Item.least])
  | application _ _ ihf ihargs => exact ihf.trans ihargs
  | done _ | omitted _ => exact .refl _
  | argument _ _ iha ihmore => exact (iha.trans ihmore).mono (Nat.zero_le _)
  | paren _ ih => exact ih.next.cons.mono (by simp [Item.least])
  | var | index | nat | str | ident | separator => exact (Takes.refl _).cons
  | quantified _ _ ihbs ihbody => exact (ihbs.trans ihbody).cons.mono (by simp [Item.least])
  | letE _ _ _ _ ihtype ihvalue ihbody =>
      exact ((ihtype.next.trans ihvalue.next).trans ihbody).cons.cons.mono
        (by simp [Item.least])
  | proj _ _ _ ih => exact ih.cons.cons.cons.mono (by simp [Item.least])
  | written _ ih => exact ih.cons.mono (by simp [Item.least])
  | bare _ _ ih => exact ih.cons.mono (by simp [Item.least])
  | @grouped _ info _ _ _ _ _ _ _ _ _ _ _ ihgroup ihmore =>
      have hmore := ihmore.front (closeTokens info).tail
      exact ((ihgroup.trans hmore).front (openTokens info)).mono
        (by simp only [Item.least]; omega)
  | @group _ words _ _ _ _ _ _ _ hne _ _ _ ih =>
      have hwords := List.length_pos_of_ne_nil hne
      exact (ih.next.front (words.map .ident)).mono
        (by simp only [Item.least, List.length_map]; omega)
  | @anonymous f as =>
      exact ((Takes.refl _).cons.front ((f :: as).map .ident)).mono
        (by simp [Item.least])

/-! ## What follows -/

/-- What may follow the item: no argument after an application, and no arrow
either after a term. -/
def Item.Ends (ts : List Token) : Item → Prop
  | .term _ => EndsTerm ts
  | .application _ | .arguments _ _ => beginsAtom ts = false
  | _ => True

/-- Applications and terms are read as far as they go. -/
theorem Reads.ends {i : Item} {s s' : State} (h : Reads i s s') :
    i.Ends s'.tokens := by
  induction h with
  | alone _ hend ih => exact ⟨ih, hend⟩
  | arrow _ _ _ ih => exact ih
  | application _ _ _ ih => exact ih
  | done hend => exact hend
  | argument _ _ _ ih => exact ih
  | _ => trivial

end TermIndex.Surface
