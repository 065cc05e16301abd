import TermIndex.Proofs.Parses

/-!
# Instance binders without a name

In square brackets the name may be left out: `[Add α]` is short for
`[inst : Add α]`. The words between the brackets are collected before it is known
whether they are names or the type. If they are the type, each is looked up
among the binders (`Scope.resolve`), while in a type that follows a colon they are
read as identifiers (`Reader.identifier`). The two differ at the words for sorts
and only there (`resolve_eq_identifier_iff`), so the short form stands for the long
one exactly if no word is one of them (`anonymous_agrees_iff`).
-/

namespace TermIndex.Surface

open Reader

/-! ## Words -/

/-- The words that are sorts wherever they stand for a term. -/
def sortWords : List String := ["Prop", "Type", "Sort"]

theorem resolve_ne_sort (σ : Scope) (word : String) (level : Nat) :
    σ.resolve word ≠ .sort level := by
  unfold Scope.resolve
  split
  · nofun
  · nofun

theorem resolve_eq_identifier_iff {σ : Scope} {word : String} :
    σ.resolve word = identifier σ word ↔ word ∉ sortWords := by
  unfold identifier
  split
  · next h => simp [h, sortWords, resolve_ne_sort]
  · next hprop =>
      split
      · next h => rcases h with rfl | rfl <;> simp [sortWords, resolve_ne_sort]
      · next h =>
          rw [not_or] at h
          simp [sortWords, hprop, h.1, h.2]

theorem mkApp_inj {f f' : Term} {as as' : List Term}
    (hlength : as.length = as'.length) :
    f.mkApp as = f'.mkApp as' ↔ f = f' ∧ as = as' := by
  induction as generalizing f f' as' with
  | nil =>
      obtain rfl := List.length_eq_zero_iff.mp hlength.symm
      simp [Term.mkApp]
  | cons a as ih =>
      obtain ⟨a', as', rfl⟩ := List.exists_cons_of_length_eq_add_one hlength.symm
      have hrest : (f.app a).mkApp as = (f'.app a').mkApp as'
          ↔ f.app a = f'.app a' ∧ as = as' := ih (Nat.succ.inj hlength)
      rw [List.cons.injEq, ← and_assoc, ← Term.app.injEq]
      exact hrest

/-- The first word applied to the others, each read in this way. -/
def applied (read : String → Term) (f : String) (as : List String) : Term :=
  (read f).mkApp (as.map read)

theorem applied_eq_iff {read read' : String → Term} {f : String}
    {as : List String} :
    applied read f as = applied read' f as ↔ ∀ w ∈ f :: as, read w = read' w := by
  rw [applied, applied, mkApp_inj (by simp), List.forall_mem_cons,
    List.map_inj_left]

/-! ## Readings -/

theorem reads_arguments_idents {σ : Scope} {as : List String}
    (has : ∀ w ∈ as, isKeyword w = false) {ts : List Token}
    (hts : beginsAtom ts = false) (ns : Names) (f : Term) :
    Reads (.arguments f (f.mkApp (as.map (identifier σ))))
      ⟨σ, as.map .ident ++ ts, ns⟩ ⟨σ, ts, ns⟩ := by
  induction as generalizing f with
  | nil => exact .done hts
  | cons a as ih =>
      obtain ⟨ha, has⟩ := List.forall_mem_cons.mp has
      exact .argument (.ident ha ..) (ih has (f.app (identifier σ a)))

/-- Words that are read as a term are a function and its arguments. -/
theorem reads_idents {σ : Scope} {f : String} {as : List String}
    (hwords : ∀ w ∈ f :: as, isKeyword w = false) {ts : List Token}
    (hts : EndsTerm ts) (ns : Names) :
    Reads (.term (applied (identifier σ) f as))
      ⟨σ, (f :: as).map .ident ++ ts, ns⟩ ⟨σ, ts, ns⟩ := by
  obtain ⟨hf, has⟩ := List.forall_mem_cons.mp hwords
  exact .alone (.application (.ident hf ..) (reads_arguments_idents has hts.1 ns _))
    hts.2

section

variable {q : Quantifier} {σ : Scope} {f : String} {as : List String}
  (hwords : ∀ w ∈ f :: as, isKeyword w = false) (ts : List Token) (ns : Names)

include hwords

theorem reads_anonymous :
    Reads (.binders q [⟨"inst", .inst, applied σ.resolve f as⟩])
      ⟨σ, .lbracket :: ((f :: as).map .ident ++ .rbracket :: q.separator :: ts),
        ns⟩ ⟨some "inst" :: σ, ts, ns⟩ := by
  have hgroup := Reads.anonymous hwords σ (q.separator :: ts) ns
  exact .grouped hgroup (.separator q _ ts ns)

theorem reads_named :
    Reads (.binders q [⟨"inst", .inst, applied (identifier σ) f as⟩])
      ⟨σ, .lbracket :: .ident "inst" :: .colon
        :: ((f :: as).map .ident ++ .rbracket :: q.separator :: ts), ns⟩
      ⟨some "inst" :: σ, ts, ns⟩ := by
  have hend : EndsTerm (.rbracket :: q.separator :: ts) := ⟨rfl, nofun⟩
  have htype := Reads.written (reads_idents (σ := σ) hwords hend ns)
  have hname : ∀ w ∈ ["inst"], isKeyword w = false :=
    List.forall_mem_singleton.mpr rfl
  have hgroup : Reads (.group .inst (Binder.group .inst _ ["inst"])) _ _ :=
    .group (List.cons_ne_nil "inst" []) hname (fun _ => rfl) htype
  exact .grouped hgroup (.separator q _ ts ns)

end

/-! ## Quantified terms -/

theorem keyword_inj {q q' : Quantifier} (h : q.keyword = q'.keyword) :
    q = q' := by
  cases q with
  | _ =>
    cases q' with
    | _ => simp_all [Quantifier.keyword]

theorem not_isKeyword_ne {q : Quantifier} {word : String}
    (h : isKeyword word = false) : word ≠ q.keyword := by
  rintro rfl
  cases q with
  | _ => cases h

variable {q : Quantifier} {σ : Scope} {ts : List Token} {ns ns' : Names}
  {t : Term} {s s' : State}

/-- Only a quantified term begins with this keyword. -/
theorem Reads.atom_quantified (h : Reads (.atom t) s s')
    (hs : s.tokens = .ident q.keyword :: ts) :
    ∃ bs body s₁ s₂, Reads (.binders q bs) ⟨s.stack, ts, s.names⟩ s₁
      ∧ Reads (.term body) s₁ s₂ ∧ t = q.binds bs body
      ∧ s' = s₂.cut s.stack.length := by
  cases h with
  | @quantified q' bs body σ ts' ns s₁ s₂ hbs hbody =>
      obtain ⟨hkey, rfl⟩ := List.cons.inj hs
      obtain rfl := keyword_inj (Token.ident.inj hkey)
      exact ⟨bs, body, s₁, s₂, hbs, hbody, rfl, rfl⟩
  | ident hword =>
      obtain ⟨hkey, -⟩ := List.cons.inj hs
      exact absurd (Token.ident.inj hkey) (not_isKeyword_ne hword)
  | var v =>
      obtain ⟨_ | _, name⟩ := v
      · cases hs
      · cases hs
  | letE | proj =>
      cases q with
      | _ => simp [Quantifier.keyword] at hs
  | _ => cases hs

/-- The body of a quantified term reaches as far as the term. -/
theorem Reads.term_quantified
    (h : Reads (.term t) ⟨σ, .ident q.keyword :: ts, ns⟩ s') :
    ∃ bs body s₁ s₂, Reads (.binders q bs) ⟨σ, ts, ns⟩ s₁
      ∧ Reads (.term body) s₁ s₂ ∧ t = q.binds bs body
      ∧ s' = s₂.cut σ.length := by
  -- Nothing that belongs to an application is left after the body.
  have happ : ∀ {f : Term} {s'' : State},
      Reads (.application f) ⟨σ, .ident q.keyword :: ts, ns⟩ s'' →
      EndsTerm s''.tokens ∧ ∃ bs body s₁ s₂,
        Reads (.binders q bs) ⟨σ, ts, ns⟩ s₁ ∧ Reads (.term body) s₁ s₂
        ∧ f = q.binds bs body ∧ s'' = s₂.cut σ.length := by
    intro f s'' h
    cases h with
    | application hf hargs =>
        obtain ⟨bs, body, s₁, s₂, hbs, hbody, rfl, rfl⟩ :=
          hf.atom_quantified rfl
        have hend : EndsTerm s₂.tokens := hbody.ends
        cases hargs with
        | done => exact ⟨hend, bs, body, s₁, s₂, hbs, hbody, rfl, rfl⟩
        | argument ha =>
            have hbegins := beginsAtom_of_reads ha
            cases hend.1.symm.trans hbegins
  cases h with
  | alone h _ => exact (happ h).2
  | arrow h _ => exact absurd rfl (happ h).1.2

/-- When it is known how the binders are read, the rest is the body. -/
theorem reads_quantified_iff {bs : List Binder} {us : List Token}
    (hbs : Reads (.binders q bs) ⟨σ, us, ns⟩ ⟨Binder.enter bs σ, ts, ns⟩) :
    Reads (.term t) ⟨σ, .ident q.keyword :: us, ns⟩ ⟨σ, [], ns'⟩
      ↔ ∃ body, Reads (.term body) ⟨Binder.enter bs σ, ts, ns⟩
          ⟨Binder.enter bs σ, [], ns'⟩ ∧ t = q.binds bs body := by
  constructor
  · intro h
    obtain ⟨bs', body, s₁, s₂, hbs', hbody, rfl, hs₂⟩ := h.term_quantified
    obtain ⟨rfl, rfl⟩ := hbs.binders_unique hbs'
    have hstack : s₂.stack = Binder.enter bs σ := hbody.restores
    obtain ⟨σ₂, ts₂, ns₂⟩ := s₂
    obtain rfl : σ₂ = Binder.enter bs σ := hstack
    obtain rfl : [] = ts₂ := congrArg State.tokens hs₂
    obtain rfl : ns' = ns₂ := congrArg State.names hs₂
    exact ⟨body, hbody, rfl⟩
  · rintro ⟨body, hbody, rfl⟩
    have h : Reads (.term (q.binds bs body)) _ _ :=
      .alone (.application (.quantified hbs hbody) (.done rfl)) nofun
    rwa [State.cut, drop_enter] at h

/-! ## Texts -/

/-- `fun [w₁ ... wₙ] => b`, or the same with `forall`. -/
def anonymousText (q : Quantifier) (words : List String) (body : String) : String :=
  q.keyword ++ " [" ++ " ".intercalate words ++ "]" ++ q.separatorText ++ body

/-- `fun [inst : w₁ ... wₙ] => b`, or the same with `forall`. -/
def namedText (q : Quantifier) (words : List String) (body : String) : String :=
  q.keyword ++ " [inst : " ++ " ".intercalate words ++ "]" ++ q.separatorText
    ++ body

section

variable (q : Quantifier) {words : List String} (hne : words ≠ [])
  (hwords : ∀ w ∈ words, IsWord w) (body : String)

theorem leads_separatorText :
    Leads (q.separatorText.toList ++ body.toList) [q.separator] body.toList := by
  cases q with
  | lam => exact (Leads.refl _).space.fatArrow.space
  | pi => exact .mark rfl rfl (Leads.refl _).space

include hne hwords

/-- The words and what closes the binder. -/
theorem leads_closed :
    Leads ((" ".intercalate words).toList
        ++ ']' :: (q.separatorText.toList ++ body.toList))
      (words.map .ident ++ [.rbracket, q.separator]) body.toList :=
  leads_words hne hwords (.cons (by decide +kernel) _)
    (.mark rfl rfl (leads_separatorText q body))

theorem leads_anonymous :
    Leads (anonymousText q words body).toList
      (.ident q.keyword :: .lbracket
        :: (words.map .ident ++ [.rbracket, q.separator])) body.toList := by
  have htext : (anonymousText q words body).toList = q.keyword.toList ++ ' ' :: '['
      :: ((" ".intercalate words).toList
        ++ ']' :: (q.separatorText.toList ++ body.toList)) := by
    simp [anonymousText]
  rw [htext]
  refine .word (isWord_keyword q) (.space _) (.space (.mark rfl rfl ?_))
  exact leads_closed q hne hwords body

theorem leads_named :
    Leads (namedText q words body).toList
      (.ident q.keyword :: .lbracket :: .ident "inst" :: .colon
        :: (words.map .ident ++ [.rbracket, q.separator])) body.toList := by
  have htext : (namedText q words body).toList = q.keyword.toList ++ ' ' :: '['
      :: ("inst".toList ++ ' ' :: ':' :: ' ' :: ((" ".intercalate words).toList
        ++ ']' :: (q.separatorText.toList ++ body.toList))) := by
    simp [namedText]
  have hinst : IsWord "inst" := by decide +kernel
  rw [htext]
  refine .word (isWord_keyword q) (.space _) (.space (.mark rfl rfl ?_))
  refine .word hinst (.space _) (.space (.colon ?_))
  exact leads_closed q hne hwords body

end

/-! ## Agreement -/

variable {f : String} {as : List String}

/-- A binder with this type, read between brackets, and then the body. -/
theorem parseUnder_instance_iff {text body : String} {d : Term} {us : List Token}
    (hfront : Leads text.toList (.ident q.keyword :: us) body.toList)
    (hbs : ∀ ts ns, Reads (.binders q [⟨"inst", .inst, d⟩]) ⟨σ, us ++ ts, ns⟩
      ⟨some "inst" :: σ, ts, ns⟩) :
    parseUnder σ ns text = (.ok t, ns')
      ↔ ∃ b, parseUnder (some "inst" :: σ) ns body = (.ok b, ns')
        ∧ t = q.bind "inst" .inst d b := by
  rw [parseUnder_leads hfront]
  constructor
  · rintro ⟨ts, hts, h⟩
    obtain ⟨b, hb, rfl⟩ := (reads_quantified_iff (hbs ts ns)).mp h
    exact ⟨b, parseUnder_iff_spells.mpr ⟨ts, hts, hb⟩, rfl⟩
  · rintro ⟨b, hb, rfl⟩
    obtain ⟨ts, hts, hb⟩ := parseUnder_iff_spells.mp hb
    exact ⟨ts, hts, (reads_quantified_iff (hbs ts ns)).mpr ⟨b, hb, rfl⟩⟩

theorem parseUnder_anonymous_iff (hwords : ∀ w ∈ f :: as, Nameable w)
    (body : String) :
    parseUnder σ ns (anonymousText q (f :: as) body) = (.ok t, ns')
      ↔ ∃ b, parseUnder (some "inst" :: σ) ns body = (.ok b, ns')
        ∧ t = q.bind "inst" .inst (applied σ.resolve f as) b := by
  refine parseUnder_instance_iff (leads_anonymous q (List.cons_ne_nil f as)
    (fun w hw => (hwords w hw).1) body) fun ts ns => ?_
  simpa using reads_anonymous (fun w hw => (hwords w hw).2) ts ns

theorem parseUnder_named_iff (hwords : ∀ w ∈ f :: as, Nameable w)
    (body : String) :
    parseUnder σ ns (namedText q (f :: as) body) = (.ok t, ns')
      ↔ ∃ b, parseUnder (some "inst" :: σ) ns body = (.ok b, ns')
        ∧ t = q.bind "inst" .inst (applied (identifier σ) f as) b := by
  refine parseUnder_instance_iff (leads_named q (List.cons_ne_nil f as)
    (fun w hw => (hwords w hw).1) body) fun ts ns => ?_
  simpa using reads_named (fun w hw => (hwords w hw).2) ts ns

theorem bind_domain_inj {x : Name} {info : BinderInfo} {d d' b b' : Term} :
    q.bind x info d b = q.bind x info d' b' ↔ d = d' ∧ b = b' := by
  cases q with
  | lam => simp [Quantifier.bind]
  | pi => simp [Quantifier.bind]

/-- **Instance binders with and without a name.** Below any binders, both forms
are parsed if the body is parsed below one more binder, with the same names known
afterwards, and otherwise neither is. In the short form the type is the words as
they are looked up among the binders, in the long one the words as identifiers.
So the two are parsed as one term exactly if no word is that of a sort. -/
theorem anonymous_agrees_iff (scope : Scope) (ns : Names) (q : Quantifier)
    (f : String) (as : List String) (body : String)
    (hwords : ∀ w ∈ f :: as, Nameable w) :
    (∀ t ns', parseUnder scope ns (anonymousText q (f :: as) body) = (.ok t, ns')
      ↔ ∃ b, parseUnder (some "inst" :: scope) ns body = (.ok b, ns')
        ∧ t = q.bind "inst" .inst (applied scope.resolve f as) b)
    ∧ (∀ t ns', parseUnder scope ns (namedText q (f :: as) body) = (.ok t, ns')
      ↔ ∃ b, parseUnder (some "inst" :: scope) ns body = (.ok b, ns')
        ∧ t = q.bind "inst" .inst (applied (identifier scope) f as) b)
    ∧ ∀ t t' ns₁ ns₂,
      parseUnder scope ns (anonymousText q (f :: as) body) = (.ok t, ns₁) →
      parseUnder scope ns (namedText q (f :: as) body) = (.ok t', ns₂) →
      ns₁ = ns₂ ∧ (t = t' ↔ ∀ w ∈ f :: as, w ∉ sortWords) := by
  refine ⟨fun t ns' => parseUnder_anonymous_iff hwords body,
    fun t ns' => parseUnder_named_iff hwords body, ?_⟩
  intro t t' ns₁ ns₂ h h'
  obtain ⟨b, hb, rfl⟩ := (parseUnder_anonymous_iff hwords body).mp h
  obtain ⟨b', hb', rfl⟩ := (parseUnder_named_iff hwords body).mp h'
  obtain ⟨hbody, rfl⟩ := Prod.mk.inj (hb.symm.trans hb')
  obtain rfl := Except.ok.inj hbody
  refine ⟨rfl, ?_⟩
  rw [bind_domain_inj, and_iff_left rfl, applied_eq_iff]
  exact forall₂_congr fun w _ => resolve_eq_identifier_iff

/-- Below a binder for `α`, with `α` and a variable in the body. -/
theorem anonymous_agrees_add :
    (∀ w ∈ ["Add", "α"], Nameable w)
      ∧ ∃ t ns', parseUnder [some "α"] .empty (anonymousText .lam ["Add", "α"] "f α ?m")
          = (.ok t, ns')
        ∧ parseUnder [some "α"] .empty (namedText .lam ["Add", "α"] "f α ?m")
          = (.ok t, ns') := by
  have hwords : ∀ w ∈ ["Add", "α"], Nameable w := by
    simp only [Nameable]
    decide +kernel
  obtain ⟨hanonymous, hnamed, hagree⟩ :=
    anonymous_agrees_iff [some "α"] .empty .lam "Add" ["α"] "f α ?m" hwords
  have hbody : parseUnder [some "inst", some "α"] .empty "f α ?m"
      = (.ok (.app (.app (.const "f") (.bvar 1)) (.mvar ⟨1048576⟩)),
        ⟨["m"], []⟩) := by decide +kernel
  have h := (hanonymous _ _).mpr ⟨_, hbody, rfl⟩
  have h' := (hnamed _ _).mpr ⟨_, hbody, rfl⟩
  obtain ⟨-, hiff⟩ := hagree _ _ _ _ h h'
  exact ⟨hwords, _, _, h, hiff.mpr (by decide) ▸ h'⟩

/-- A word for a sort is a constant in the short form. -/
theorem anonymous_disagrees_prop :
    (∀ w ∈ ["Prop"], Nameable w)
      ∧ anonymousText .lam ["Prop"] "x" = "fun [Prop] => x"
      ∧ namedText .lam ["Prop"] "x" = "fun [inst : Prop] => x"
      ∧ parse .empty "fun [Prop] => x"
        = (.ok (.lam "inst" .inst (.const "Prop") (.const "x")), .empty)
      ∧ parse .empty "fun [inst : Prop] => x"
        = (.ok (.lam "inst" .inst (.sort 0) (.const "x")), .empty)
      ∧ parse .empty "fun [Prop] => x" ≠ parse .empty "fun [inst : Prop] => x" := by
  have hanonymous : parse .empty "fun [Prop] => x"
      = (.ok (.lam "inst" .inst (.const "Prop") (.const "x")), .empty) := by
    decide +kernel
  have hnamed : parse .empty "fun [inst : Prop] => x"
      = (.ok (.lam "inst" .inst (.sort 0) (.const "x")), .empty) := by
    decide +kernel
  refine ⟨?_, by decide +kernel, by decide +kernel, hanonymous, hnamed, ?_⟩
  · simp only [Nameable]
    decide +kernel
  · rw [hanonymous, hnamed]
    decide

end TermIndex.Surface
