import TermIndex.Proofs.Readers

/-!
# How readers end

A reader ends with a result or with an error, and either way it has moved the
cursor. A sequence is taken apart by what its first reader came to
(`outcome_bind`): if the whole gives a result, so did all its parts
(`ok_of_bind`), and each primitive reader says by its result what it took.

The names change only when a variable is met. However a reader ends, it has
asked for variables that were left in the text, in their order, and changed
nothing else about the names (`Asks`). So this holds of every text that is
parsed, of those that are refused too (`parse_asks`).
-/

namespace TermIndex.Surface

/-- The variable that the token is. -/
def Token.variable? : Token → Option Variable
  | .mvar name => some ⟨.mvar, name⟩
  | .fvar name => some ⟨.fvar, name⟩
  | _ => none

/-- The variables among the tokens that are left. -/
def Cursor.variables (c : Cursor) : List Variable :=
  c.tokens.filterMap Token.variable?

/-- The cursor moved over these tokens, and no name was added. -/
def Cursor.Skips (c : Cursor) (ts : List Token) (c' : Cursor) : Prop :=
  c.tokens = ts ++ c'.tokens ∧ c'.names = c.names

namespace Reader

variable {α β : Type} {r : Reader α} {f : α → Reader β} {a : α} {b : β}
  {c c' : Cursor} {t : Token}

/-! ## Success -/

theorem ok_of_bind (h : outcome (r >>= f) c = (.ok b, c')) :
    ∃ a c₁, outcome r c = (.ok a, c₁) ∧ outcome (f a) c₁ = (.ok b, c') := by
  rw [outcome_bind] at h
  rcases hr : outcome r c with ⟨e | a, c₁⟩
  · rw [hr] at h
    cases h
  · rw [hr] at h
    exact ⟨a, c₁, rfl, h⟩

theorem ok_of_pure {a' : α} (h : outcome (pure a : Reader α) c = (.ok a', c')) :
    a' = a ∧ c' = c := by
  cases h
  exact ⟨rfl, rfl⟩

theorem ok_of_position {f : Nat → Reader β}
    (h : outcome (position >>= f) c = (.ok b, c')) :
    outcome (f c.pos) c = (.ok b, c') := h

theorem ok_of_peek? {t? : Option Token} (h : outcome peek? c = (.ok t?, c')) :
    t? = c.tokens.head? ∧ c' = c := by
  cases h
  rw [Cursor.tokens, List.head?_map]
  exact ⟨rfl, rfl⟩

theorem ok_of_next (h : outcome next c = (.ok t, c')) : c.Skips [t] c' := by
  obtain ⟨rest, stop, ns⟩ := c
  cases rest with
  | nil => cases h
  | cons l rest =>
      cases h
      exact ⟨rfl, rfl⟩

theorem ok_of_eat {took : Bool} (h : outcome (eat t) c = (.ok took, c')) :
    took = true ∧ c.Skips [t] c'
      ∨ took = false ∧ c.tokens.head? ≠ some t ∧ c = c' := by
  obtain ⟨t?, c₁, hpeek, h⟩ := ok_of_bind h
  obtain ⟨rfl, rfl⟩ := ok_of_peek? hpeek
  split at h
  · next hhead =>
      obtain ⟨t', c₂, hnext, h⟩ := ok_of_bind h
      obtain ⟨rfl, rfl⟩ := ok_of_pure h
      have hskips := ok_of_next hnext
      have ht : some t' = some t := by rw [← hhead, hskips.1]; rfl
      obtain rfl := Option.some.inj ht
      exact Or.inl ⟨rfl, hskips⟩
  · next hhead =>
      obtain ⟨rfl, rfl⟩ := ok_of_pure h
      exact Or.inr ⟨rfl, hhead, rfl⟩

theorem ok_of_expect {u : Unit} (h : outcome (expect t) c = (.ok u, c')) :
    c.Skips [t] c' := by
  obtain ⟨took, c₁, heat, h⟩ := ok_of_bind h
  rcases ok_of_eat heat with ⟨rfl, hskips⟩ | ⟨rfl, -⟩
  · obtain ⟨-, rfl⟩ := ok_of_pure h
    exact hskips
  · cases h

theorem ok_of_name {word : String} (h : outcome name c = (.ok word, c')) :
    isKeyword word = false ∧ c.Skips [.ident word] c' := by
  obtain ⟨t, c₁, hnext, h⟩ := ok_of_bind (ok_of_position h)
  have hskips := ok_of_next hnext
  cases t with
  | ident w =>
      dsimp only at h
      split at h
      · cases h
      · next hword =>
          obtain ⟨rfl, rfl⟩ := ok_of_pure h
          exact ⟨Bool.eq_false_iff.mpr hword, hskips⟩
  | _ => cases h

theorem leadingNames_tokens (ls : List Lexeme) :
    ls.map Lexeme.token
      = (leadingNames ls).1.map .ident ++ (leadingNames ls).2.map Lexeme.token := by
  induction ls with
  | nil => rfl
  | cons l ls ih =>
      obtain ⟨pos, t⟩ := l
      cases t with
      | ident word =>
          rw [leadingNames]
          split
          · rfl
          · simpa using ih
      | _ => rfl

theorem not_isKeyword_leadingNames (ls : List Lexeme) :
    ∀ w ∈ (leadingNames ls).1, isKeyword w = false := by
  induction ls with
  | nil => exact List.forall_mem_nil _
  | cons l ls ih =>
      obtain ⟨pos, t⟩ := l
      cases t with
      | ident word =>
          rw [leadingNames]
          split
          · exact List.forall_mem_nil _
          · next hword =>
              exact List.forall_mem_cons.mpr ⟨Bool.eq_false_iff.mpr hword, ih⟩
      | _ => exact List.forall_mem_nil _

theorem ok_of_names {words : List String}
    (h : outcome names c = (.ok words, c')) :
    (∀ w ∈ words, isKeyword w = false) ∧ c.Skips (words.map .ident) c' := by
  obtain ⟨rest, stop, ns⟩ := c
  cases h
  exact ⟨not_isKeyword_leadingNames rest, leadingNames_tokens rest, rfl⟩

theorem ok_of_atAtom {begins : Bool}
    (h : outcome atAtom c = (.ok begins, c')) :
    begins = beginsAtom c.tokens ∧ c' = c := by
  obtain ⟨t?, c₁, hpeek, h⟩ := ok_of_bind h
  obtain ⟨rfl, rfl⟩ := ok_of_peek? hpeek
  exact ok_of_pure h

/-! ## Names -/

/-- However the reader ends, it has asked for some of the variables that were
left, from the left, and for nothing else. Those in front were taken before, but
not asked for yet. -/
def Asks (front : List Variable) (r : Reader α) : Prop :=
  ∀ c, ∃ vs, (outcome r c).2.names = c.names.askAll vs
    ∧ List.Sublist (vs ++ (outcome r c).2.variables) (front ++ c.variables)

variable {front : List Variable}

theorem Asks.bind (hr : Asks front r) (hf : ∀ a, Asks [] (f a)) :
    Asks front (r >>= f) := by
  intro c
  obtain ⟨vs, hnames, hleft⟩ := hr c
  rw [outcome_bind]
  rcases hc : outcome r c with ⟨e | a, c₁⟩
  · rw [hc] at hnames hleft
    exact ⟨vs, hnames, hleft⟩
  · rw [hc] at hnames hleft
    obtain ⟨ws, hnames', hleft'⟩ := hf a c₁
    refine ⟨vs ++ ws, ?_, ?_⟩
    · rw [Names.askAll_append, ← hnames]
      exact hnames'
    · rw [List.append_assoc]
      exact ((List.append_sublist_append_left vs).mpr hleft').trans hleft

theorem Asks.pure (a : α) : Asks front (Pure.pure a : Reader α) :=
  fun c => ⟨[], rfl, List.sublist_append_right front c.variables⟩

theorem Asks.failAt (pos : Nat) (reason : Reason) :
    Asks front (failAt pos reason : Reader α) :=
  fun c => ⟨[], rfl, List.sublist_append_right front c.variables⟩

theorem Asks.get {f : Cursor → Reader β} (hf : ∀ c, Asks front (f c)) :
    Asks front (get >>= f) :=
  fun c => hf c c

theorem Asks.position {f : Nat → Reader β} (hf : ∀ pos, Asks front (f pos)) :
    Asks front (position >>= f) :=
  fun c => hf c.pos c

theorem Asks.peek? {f : Option Token → Reader β} (hf : ∀ t?, Asks front (f t?)) :
    Asks front (peek? >>= f) :=
  fun c => hf _ c

/-- A variable that is taken is in front of what is left. -/
theorem Asks.next {f : Token → Reader β}
    (hf : ∀ t, Asks t.variable?.toList (f t)) : Asks [] (next >>= f) := by
  rintro ⟨rest, stop, ns⟩
  cases rest with
  | nil => exact ⟨[], rfl, List.nil_sublist _⟩
  | cons l rest =>
      obtain ⟨vs, hnames, hleft⟩ := hf l.token ⟨rest, stop, ns⟩
      refine ⟨vs, hnames, hleft.trans ?_⟩
      simp only [Cursor.variables, Cursor.tokens, List.map_cons,
        List.filterMap_cons, List.nil_append]
      cases l.token.variable? with
      | none => exact List.Sublist.refl _
      | some v => exact List.Sublist.refl _

theorem asks_mvar (name : String) : Asks [⟨.mvar, name⟩] (mvar name) :=
  fun _ => ⟨[⟨.mvar, name⟩], rfl, List.Sublist.refl _⟩

theorem asks_fvar (name : String) : Asks [⟨.fvar, name⟩] (fvar name) :=
  fun _ => ⟨[⟨.fvar, name⟩], rfl, List.Sublist.refl _⟩

theorem asks_eat (t : Token) : Asks [] (eat t) := by
  refine .peek? fun t? => ?_
  split
  · exact .next fun t => .pure true
  · exact .pure false

theorem asks_expect (t : Token) : Asks [] (expect t) := by
  refine (asks_eat t).bind fun took => ?_
  cases took with
  | true => exact .pure ()
  | false => exact .position fun pos => .failAt pos _

theorem asks_name : Asks [] name := by
  refine .position fun pos => .next fun t => ?_
  cases t with
  | ident word =>
      dsimp only
      split
      · exact .failAt pos _
      · exact .pure word
  | _ => exact .failAt pos _

theorem asks_names : Asks [] names := by
  rintro ⟨rest, stop, ns⟩
  refine ⟨[], rfl, ?_⟩
  have htokens := congrArg (List.filterMap Token.variable?)
    (leadingNames_tokens rest)
  rw [List.filterMap_append] at htokens
  change List.Sublist _ ((rest.map Lexeme.token).filterMap Token.variable?)
  rw [htokens]
  exact List.sublist_append_right _ _

theorem asks_atAtom : Asks [] atAtom := .peek? fun _ => .pure _

mutual

theorem asks_term (fuel : Nat) (scope : Scope) : Asks [] (term fuel scope) := by
  cases fuel with
  | zero => exact .get fun c => .failAt c.stop .ended
  | succ fuel =>
      rw [term]
      refine (asks_application fuel scope).bind fun left => ?_
      refine (asks_eat .arrow).bind fun took => ?_
      cases took with
      | true => exact (asks_term fuel (none :: scope)).bind fun right => .pure _
      | false => exact .pure left

theorem asks_application (fuel : Nat) (scope : Scope) :
    Asks [] (application fuel scope) := by
  cases fuel with
  | zero => exact .get fun c => .failAt c.stop .ended
  | succ fuel =>
      rw [application]
      refine asks_atAtom.bind fun begins => ?_
      cases begins with
      | true =>
          exact (asks_atom fuel scope).bind fun f => asks_arguments fuel scope f
      | false => exact .position fun pos => (Asks.failAt pos _).bind fun _ =>
          (asks_atom fuel scope).bind fun f => asks_arguments fuel scope f

theorem asks_arguments (fuel : Nat) (scope : Scope) (f : Term) :
    Asks [] (arguments fuel scope f) := by
  cases fuel with
  | zero => exact .get fun c => .failAt c.stop .ended
  | succ fuel =>
      rw [arguments]
      refine asks_atAtom.bind fun begins => ?_
      cases begins with
      | true =>
          exact (asks_atom fuel scope).bind fun a =>
            asks_arguments fuel scope (.app f a)
      | false => exact .pure f

theorem asks_atom (fuel : Nat) (scope : Scope) : Asks [] (atom fuel scope) := by
  cases fuel with
  | zero => exact .get fun c => .failAt c.stop .ended
  | succ fuel =>
      rw [atom]
      refine .position fun pos => .next fun t => ?_
      split
      · exact (asks_term fuel scope).bind fun t =>
          (asks_expect .rparen).bind fun _ => .pure t
      · exact asks_mvar _
      · exact asks_fvar _
      · exact .pure _
      · exact .pure _
      · exact .pure _
      · exact (asks_binders fuel scope _).bind fun bs =>
          (asks_term fuel _).bind fun body => .pure _
      · exact (asks_binders fuel scope _).bind fun bs =>
          (asks_term fuel _).bind fun body => .pure _
      · have hrest : ∀ n type, Asks [] (do
            expect .assign
            let value ← term fuel scope
            expect .semi
            let body ← term fuel (some n :: scope)
            return Term.letE ⟨n⟩ type value body) := fun n type =>
          (asks_expect _).bind fun _ => (asks_term fuel scope).bind fun value =>
            (asks_expect _).bind fun _ => (asks_term fuel _).bind fun body =>
              .pure _
        refine asks_name.bind fun n => (asks_eat _).bind fun took => ?_
        cases took with
        | true => exact (asks_term fuel scope).bind fun type => hrest n type
        | false => exact (Asks.pure _).bind fun type => hrest n type
      · refine asks_name.bind fun struct => .position fun pos => .next fun t => ?_
        split
        · exact (asks_atom fuel scope).bind fun value => .pure _
        · exact .failAt pos _
      · exact .pure _
      · exact .failAt pos _

theorem asks_binders (fuel : Nat) (scope : Scope) (separator : Token) :
    Asks [] (binders fuel scope separator) := by
  cases fuel with
  | zero => exact .get fun c => .failAt c.stop .ended
  | succ fuel =>
      have hrest : ∀ bs, Asks [] (do
          let more ← binders fuel (Binder.enter bs scope) separator
          return bs ++ more) := fun bs =>
        (asks_binders fuel _ separator).bind fun more => .pure _
      rw [binders]
      refine (asks_eat separator).bind fun took => ?_
      cases took with
      | true => exact .pure []
      | false =>
          refine .position fun pos => .next fun t => ?_
          dsimp only
          split
          · split
            · exact (Asks.failAt pos _).bind hrest
            · exact (Asks.pure _).bind hrest
          · exact (asks_group fuel scope _ _).bind hrest
          · refine (asks_eat .lbrace).bind fun took => ?_
            cases took with
            | true =>
                exact (asks_group fuel scope _ _).bind fun bs =>
                  (asks_expect _).bind fun _ => (Asks.pure bs).bind hrest
            | false => exact (asks_group fuel scope _ _).bind hrest
          · exact (asks_group fuel scope _ _).bind hrest
          · exact (Asks.failAt pos _).bind hrest

theorem asks_group (fuel : Nat) (scope : Scope) (info : BinderInfo)
    (close : Token) : Asks [] (group fuel scope info close) := by
  cases fuel with
  | zero => exact .get fun c => .failAt c.stop .ended
  | succ fuel =>
      have hrest : ∀ domain (bound : List String), Asks [] (do
          expect close
          if bound.isEmpty then
            failAt (← position) .namelessBinder
          return Binder.group info domain bound) := by
        intro domain bound
        refine (asks_expect close).bind fun _ => ?_
        dsimp only
        split
        · exact .position fun pos => (Asks.failAt pos _).bind fun _ => .pure _
        · exact .pure _
      rw [group]
      refine asks_names.bind fun words => (asks_eat .colon).bind fun took => ?_
      cases took with
      | true =>
          exact (asks_term fuel scope).bind fun domain =>
            (Asks.pure (domain, words)).bind fun x => hrest x.1 x.2
      | false =>
          dsimp only
          simp only [Bool.false_eq_true, if_false]
          split
          · split
            · exact .position fun pos =>
                (Asks.failAt pos _).bind fun x => hrest x.1 x.2
            · exact (Asks.pure _).bind fun x => hrest x.1 x.2
          · exact (Asks.pure _).bind fun x => hrest x.1 x.2

end

theorem asks_whole (fuel : Nat) : Asks [] (whole fuel) := by
  refine (asks_term fuel []).bind fun t => .peek? fun t? => ?_
  dsimp only
  split
  · exact .position fun pos => (Asks.failAt pos _).bind fun _ => .pure t
  · exact .pure t

end Reader

/-- The variables that a text is written with, from the left. A text that cannot
be cut into tokens has none. -/
def written (text : String) : List Variable :=
  match scan text with
  | .ok ls => (ls.map Lexeme.token).filterMap Token.variable?
  | .error _ => []

/-- To parse a text is to ask for variables that it is written with, in their
order. If the text is refused, for some of them. -/
theorem parse_asks (ns : Names) (text : String) :
    ∃ vs, (parse ns text).2 = ns.askAll vs ∧ List.Sublist vs (written text) := by
  unfold parse written
  cases scan text with
  | error e => exact ⟨[], rfl, List.Sublist.refl _⟩
  | ok ls =>
      obtain ⟨vs, hnames, hleft⟩ := Reader.asks_whole (4 * (ls.length + 1))
        ⟨ls, text.utf8ByteSize, ns⟩
      exact ⟨vs, hnames, (List.sublist_append_left vs _).trans hleft⟩

end TermIndex.Surface
