import TermIndex.Proofs.Readers
import TermIndex.Proofs.Phrases

/-!
# The grammar as rules

One rule for each production: what the parts of a construct give, the construct
is put together from. A rule takes one call off the number that may be nested.
-/

namespace TermIndex.Surface

/-- The terms that binders are in front of, from the outside. -/
def Quantifier.binds (q : Quantifier) (bs : List Binder) (body : Term) : Term :=
  bs.foldr (fun b t => q.bind ⟨b.name⟩ b.info b.domain t) body

theorem Quantifier.binds_append (q : Quantifier) (bs more : List Binder)
    (body : Term) : q.binds (bs ++ more) body = q.binds bs (q.binds more body) :=
  List.foldr_append

theorem Quantifier.binds_group (q : Quantifier) (info : BinderInfo)
    (domain : Term) (names : List String) (body : Term) :
    q.binds (Binder.group info domain names) body
      = q.bindGroup info domain 0 names body := by
  have hfrom : ∀ k, q.binds
      (names.mapIdx fun i x => ⟨x, info, domain.raise 0 (k + i)⟩) body
      = q.bindGroup info domain k names body := by
    induction names with
    | nil => exact fun _ => rfl
    | cons x xs ih =>
        intro k
        have hrest := ih (k + 1)
        simp only [Nat.add_assoc, Nat.add_comm 1] at hrest
        rw [List.mapIdx_cons, bindGroup, ← hrest]
        rfl
  simpa [Binder.group] using hfrom 0

theorem enter_group (info : BinderInfo) (domain : Term) (names : List String)
    (scope : Scope) :
    Binder.enter (Binder.group info domain names) scope
      = names.foldl (fun s x => some x :: s) scope := by
  have hnames : (Binder.group info domain names).map Binder.name = names :=
    List.ext_getElem (by simp [Binder.group]) (by simp [Binder.group])
  conv_rhs => rw [← hnames, List.foldl_map]
  rfl

theorem enter_append (bs more : List Binder) (scope : Scope) :
    Binder.enter (bs ++ more) scope = Binder.enter more (Binder.enter bs scope) :=
  List.foldl_append

namespace Reader

variable {fuel : Nat} {scope : Scope} {us vs ts : List Token}
  {ns ns₁ ns₂ ns' : Names} {t f a : Term}

/-! ## Terms -/

/-- A term ends where neither an argument nor an arrow follows. -/
def EndsTerm (ts : List Token) : Prop :=
  beginsAtom ts = false ∧ ts.head? ≠ some .arrow

theorem gives_arguments_nil (hts : beginsAtom ts = false) :
    Gives (arguments (fuel + 1) scope f) ts ns f ts ns := by
  rw [arguments]
  refine (gives_atAtom ts ns).bind ?_
  rw [hts]
  exact .pure f ts ns

theorem gives_arguments_cons (hus : beginsAtom us = true)
    (ha : Gives (atom fuel scope) us ns a vs ns₁)
    (hmore : Gives (arguments fuel scope (.app f a)) vs ns₁ t ts ns') :
    Gives (arguments (fuel + 1) scope f) us ns t ts ns' := by
  rw [arguments]
  refine (gives_atAtom us ns).bind ?_
  rw [hus]
  exact ha.bind hmore

theorem gives_application (hus : beginsAtom us = true)
    (hf : Gives (atom fuel scope) us ns f vs ns₁)
    (hargs : Gives (arguments fuel scope f) vs ns₁ t ts ns') :
    Gives (application (fuel + 1) scope) us ns t ts ns' := by
  rw [application]
  refine (gives_atAtom us ns).bind ?_
  rw [hus]
  exact hf.bind hargs

theorem gives_term (h : Gives (application fuel scope) us ns t ts ns')
    (hts : ts.head? ≠ some .arrow) :
    Gives (term (fuel + 1) scope) us ns t ts ns' := by
  rw [term]
  exact h.bind ((gives_eat_other hts ns').bind (.pure t ts ns'))

/-- Right of an arrow, there is one more binder, which cannot be seen. -/
theorem gives_arrow {left right : Term}
    (hleft : Gives (application fuel scope) us ns left (.arrow :: vs) ns₁)
    (hright : Gives (term fuel (none :: scope)) vs ns₁ right ts ns') :
    Gives (term (fuel + 1) scope) us ns (.pi "a" .default left right) ts ns' := by
  rw [term]
  refine hleft.bind ((gives_eat_self _ _ _).bind ?_)
  exact hright.bind (.pure _ ts ns')

/-- A single atom is a term if nothing follows that belongs to it. -/
theorem gives_term_atom (hfuel : 3 ≤ fuel) (hus : beginsAtom us = true)
    (hts : EndsTerm ts) (h : Gives (atom (fuel - 2) scope) us ns t ts ns') :
    Gives (term fuel scope) us ns t ts ns' := by
  obtain ⟨k, rfl⟩ := Nat.exists_eq_add_of_le' hfuel
  exact gives_term (gives_application hus h (gives_arguments_nil hts.1)) hts.2

/-! ## Atoms -/

theorem gives_var (v : Variable) (ts : List Token) (ns : Names) :
    Gives (atom (fuel + 1) scope) (v.token :: ts) ns (ns.translate v) ts
      (ns.ask v) := by
  rw [atom]
  refine .position fun pos => (gives_next _ _ _).bind ?_
  obtain ⟨_ | _, name⟩ := v
  · exact gives_mvar name ts ns
  · exact gives_fvar name ts ns

theorem gives_index (i : Nat) (ts : List Token) (ns : Names) :
    Gives (atom (fuel + 1) scope) (.bvar i :: ts) ns (.bvar i) ts ns := by
  rw [atom]
  exact .position fun pos => (gives_next _ _ _).bind (.pure _ ts ns)

theorem gives_nat (n : Nat) (ts : List Token) (ns : Names) :
    Gives (atom (fuel + 1) scope) (.nat n :: ts) ns (.lit (.nat n)) ts ns := by
  rw [atom]
  exact .position fun pos => (gives_next _ _ _).bind (.pure _ ts ns)

theorem gives_str (s : String) (ts : List Token) (ns : Names) :
    Gives (atom (fuel + 1) scope) (.str s :: ts) ns (.lit (.str s)) ts ns := by
  rw [atom]
  exact .position fun pos => (gives_next _ _ _).bind (.pure _ ts ns)

theorem gives_ident {word : String} (h : isKeyword word = false)
    (ts : List Token) (ns : Names) :
    Gives (atom (fuel + 1) scope) (.ident word :: ts) ns
      (identifier scope word) ts ns := by
  rw [atom]
  refine .position fun pos => (gives_next _ _ _).bind ?_
  split <;> simp_all [isKeyword, Gives.pure]

theorem gives_paren
    (h : Gives (term fuel scope) us ns t (.rparen :: ts) ns') :
    Gives (atom (fuel + 1) scope) (.lparen :: us) ns t ts ns' := by
  rw [atom]
  refine .position fun pos => (gives_next _ _ _).bind ?_
  exact h.bind ((gives_expect _ _ _).bind (.pure t ts ns'))

theorem gives_quantified (q : Quantifier) {bs : List Binder} {body : Term}
    (hbs : Gives (binders fuel scope q.separator) us ns bs vs ns₁)
    (hbody : Gives (term fuel (Binder.enter bs scope)) vs ns₁ body ts ns') :
    Gives (atom (fuel + 1) scope) (.ident q.keyword :: us) ns (q.binds bs body)
      ts ns' := by
  rw [atom]
  refine .position fun pos => (gives_next _ _ _).bind ?_
  cases q with
  | lam => exact hbs.bind (hbody.bind (.pure _ ts ns'))
  | pi => exact hbs.bind (hbody.bind (.pure _ ts ns'))

/-- What a type is read from: a colon and a term, or nothing. -/
inductive GivesType (fuel : Nat) (scope : Scope) :
    List Token → Names → Term → List Token → Names → Prop where
  | written {us ts : List Token} {ns ns' : Names} {d : Term}
      (h : Gives (term fuel scope) us ns d ts ns') :
      GivesType fuel scope (.colon :: us) ns d ts ns'
  | omitted {ts : List Token} {ns : Names} (h : ts.head? ≠ some .colon) :
      GivesType fuel scope ts ns (.sort 1) ts ns

theorem gives_letE {name : String} {type value body : Term}
    (hname : isKeyword name = false)
    (htype : GivesType fuel scope us ns type (.assign :: vs) ns₁) {ws : List Token}
    (hvalue : Gives (term fuel scope) vs ns₁ value (.semi :: ws) ns₂)
    (hbody : Gives (term fuel (some name :: scope)) ws ns₂ body ts ns') :
    Gives (atom (fuel + 1) scope) (.ident "let" :: .ident name :: us) ns
      (Term.letE ⟨name⟩ type value body) ts ns' := by
  have hrest : Gives (do
      expect .assign
      let value ← term fuel scope
      expect .semi
      let body ← term fuel (some name :: scope)
      return Term.letE ⟨name⟩ type value body) (.assign :: vs) ns₁
      (.letE ⟨name⟩ type value body) ts ns' := by
    refine (gives_expect _ _ _).bind (hvalue.bind ?_)
    exact (gives_expect _ _ _).bind (hbody.bind (.pure _ ts ns'))
  rw [atom]
  refine .position fun pos => (gives_next _ _ _).bind ?_
  refine (gives_name hname us ns).bind ?_
  cases htype with
  | written h => exact (gives_eat_self _ _ _).bind (h.bind hrest)
  | omitted h => exact (gives_eat_other h ns).bind hrest

/-- The number of a field is cut to its size. -/
theorem gives_proj {struct : String} {i j : Nat}
    (hstruct : isKeyword struct = false) (hi : i % (maxId + 1) = j)
    (h : Gives (atom fuel scope) us ns t ts ns') :
    Gives (atom (fuel + 1) scope) (.ident "proj" :: .ident struct :: .nat i :: us)
      ns (.proj ⟨struct⟩ j t) ts ns' := by
  rw [atom]
  refine .position fun pos => (gives_next _ _ _).bind ?_
  refine (gives_name hstruct _ ns).bind ?_
  refine .position fun pos => (gives_next _ _ _).bind (h.bind ?_)
  rw [hi]
  exact .pure _ ts ns'

/-! ## Binders -/

theorem gives_separator (q : Quantifier) (ts : List Token) (ns : Names) :
    Gives (binders (fuel + 1) scope q.separator) (q.separator :: ts) ns [] ts
      ns := by
  rw [binders]
  exact (gives_eat_self _ _ _).bind (.pure [] ts ns)

section

variable {q : Quantifier} {bs more : List Binder}

/-- No separator begins a binder. -/
theorem head?_ne_separator {t : Token} (ht : t ∉ [Token.fatArrow, .comma])
    (us : List Token) (q : Quantifier) :
    (t :: us).head? ≠ some q.separator := by
  intro h
  obtain rfl := Option.some.inj h
  cases q with
  | _ => simp [Quantifier.separator] at ht

theorem gives_bare {name : String} (hname : isKeyword name = false)
    (h : Gives (binders fuel (some name :: scope) q.separator) us ns bs ts ns') :
    Gives (binders (fuel + 1) scope q.separator) (.ident name :: us) ns
      (⟨name, .default, .sort 1⟩ :: bs) ts ns' := by
  rw [binders]
  refine (gives_eat_other (head?_ne_separator (by simp) us q) ns).bind ?_
  refine .position fun pos => (gives_next _ _ _).bind ?_
  simp only [hname, Bool.false_eq_true, if_false]
  exact (Gives.pure _ us ns).bind (h.bind (.pure _ ts ns'))

/-- The token that a group ends with. What is in double braces is a group in
single braces for the reader of groups. -/
def closing : BinderInfo → Token
  | .default => .rparen
  | .implicit | .strict => .rbrace
  | .inst => .rbracket

theorem closing_append (info : BinderInfo) (ts : List Token) :
    closing info :: ((closeTokens info).tail ++ ts) = closeTokens info ++ ts := by
  cases info with
  | _ => rfl

theorem gives_group {info : BinderInfo} {words : List String} {d : Term}
    (hne : words ≠ []) (hwords : ∀ w ∈ words, isKeyword w = false)
    (hinst : info = .inst → us.head? = some .colon) (hus : EndsNames us)
    (htype : GivesType fuel scope us ns d (closing info :: ts) ns') :
    Gives (group (fuel + 1) scope info (closing info)) (words.map .ident ++ us)
      ns (Binder.group info d words) ts ns' := by
  have hempty : words.isEmpty = false := List.isEmpty_eq_false_iff.mpr hne
  rw [group]
  refine (gives_names hwords hus ns).bind ?_
  cases htype with
  | written h =>
      refine (gives_eat_self _ _ _).bind (h.bind ?_)
      refine (Gives.pure _ _ _).bind ((gives_expect _ _ _).bind ?_)
      simp only [hempty, Bool.false_eq_true, if_false]
      exact .pure _ ts ns'
  | omitted h =>
      have hinfo : info ≠ .inst := fun hi => h (hinst hi)
      refine (gives_eat_other h ns).bind ?_
      simp only [hinfo, Bool.false_eq_true, if_false]
      refine (Gives.pure _ _ _).bind ((gives_expect _ _ _).bind ?_)
      simp only [hempty, Bool.false_eq_true, if_false]
      exact .pure _ ts ns

/-- Without a colon, the words of an instance group are a function and its
arguments. -/
theorem gives_anonymous {f : String} {as : List String}
    (hwords : ∀ w ∈ f :: as, isKeyword w = false) (ts : List Token) (ns : Names) :
    Gives (group (fuel + 1) scope .inst .rbracket)
      ((f :: as).map .ident ++ .rbracket :: ts) ns
      (Binder.group .inst ((scope.resolve f).mkApp (as.map scope.resolve))
        ["inst"]) ts ns := by
  have hend : EndsNames (.rbracket :: ts) := by
    rintro word ts' h
    cases h
  rw [group]
  refine (gives_names hwords hend ns).bind ?_
  refine (gives_eat_other (by simp) ns).bind ?_
  simp only [Bool.false_eq_true, if_false, if_true]
  refine (Gives.pure _ _ _).bind ((gives_expect _ _ _).bind ?_)
  exact .pure _ ts ns

/-- A group in its brackets. The reader of groups closes the inner of two
braces, and the outer one is closed here. -/
theorem gives_opened {info : BinderInfo} (hus : us.head? ≠ some .lbrace)
    (hgroup : Gives (group fuel scope info (closing info)) us ns bs
      ((closeTokens info).tail ++ vs) ns₁)
    (hmore : Gives (binders fuel (Binder.enter bs scope) q.separator) vs ns₁ more
      ts ns') :
    Gives (binders (fuel + 1) scope q.separator) (openTokens info ++ us) ns
      (bs ++ more) ts ns' := by
  have hrest : Gives (do
      let more ← binders fuel (Binder.enter bs scope) q.separator
      return bs ++ more) vs ns₁ (bs ++ more) ts ns' :=
    hmore.bind (.pure _ ts ns')
  rw [binders]
  cases info with
  | default | inst =>
      refine (gives_eat_other (head?_ne_separator (by simp) _ q) ns).bind ?_
      refine .position fun pos => (gives_next _ _ _).bind ?_
      exact hgroup.bind hrest
  | implicit =>
      refine (gives_eat_other (head?_ne_separator (by simp) _ q) ns).bind ?_
      refine .position fun pos => (gives_next _ _ _).bind ?_
      refine (gives_eat_other hus ns).bind ?_
      exact hgroup.bind hrest
  | strict =>
      refine (gives_eat_other (head?_ne_separator (by simp) _ q) ns).bind ?_
      refine .position fun pos => (gives_next _ _ _).bind ?_
      refine (gives_eat_self _ _ _).bind (hgroup.bind ?_)
      exact (gives_expect _ _ _).bind ((Gives.pure _ _ _).bind hrest)

end

end Reader

end TermIndex.Surface
