import TermIndex.Proofs.Grammar
import TermIndex.Proofs.Scopes

/-!
# Reading phrases

Each reader gives what its phrase stands for. The names that a reader leaves are
those that it was given and the variables of its phrase, in order. What a
variable stands for is settled when it is met first, so it may as well be looked
up in the names that are known at the end (`Names.Later`).

Four calls for each token are enough. A phrase in parentheses takes three of the
four for its first token: one as an atom, one as a term, and one as an
application.
-/

namespace TermIndex.Surface

/-! ## First and last tokens -/

namespace Phrase

theorem beginsAtom_tokens (p : Phrase) (ts : List Token) :
    Reader.beginsAtom (p.tokens ++ ts) = true := by
  cases p with
  | var v =>
      obtain ⟨_ | _, name⟩ := v
      · rfl
      · rfl
  | _ => rfl

theorem length_tokens_pos (p : Phrase) : 0 < p.tokens.length := by
  cases p with
  | _ => simp [tokens]

end Phrase

theorem endsTerm_rparen (ts : List Token) : Reader.EndsTerm (.rparen :: ts) :=
  ⟨rfl, nofun⟩

theorem endsTerm_closeTokens (info : BinderInfo) (ts : List Token) :
    Reader.EndsTerm (closeTokens info ++ ts)
      ∧ (closeTokens info ++ ts).head? ≠ some .colon := by
  cases info with
  | _ => exact ⟨⟨rfl, nofun⟩, nofun⟩

theorem head?_tokensType {type : Option Phrase} (h : type ≠ none)
    (ts : List Token) : (tokensType type ++ ts).head? = some .colon := by
  cases type with
  | none => exact absurd rfl h
  | some p => rfl

theorem endsNames_tokensType (type : Option Phrase) (info : BinderInfo)
    (ts : List Token) :
    Reader.EndsNames (tokensType type ++ (closeTokens info ++ ts)) := by
  rintro word ts' h
  cases type with
  | none =>
      cases info with
      | _ => cases h
  | some p => cases h

namespace Reader

mutual

theorem gives_atom (p : Phrase) (hp : p.Valid) {fuel : Nat} {scope : Scope}
    {ts : List Token} {ns ids : Names} (hfuel : 4 * p.tokens.length ≤ fuel)
    (hids : (ns.askAll p.variables).Later ids) :
    Gives (atom fuel scope) (p.tokens ++ ts) ns (p.translate ids scope) ts
      (ns.askAll p.variables) := by
  have hlength := p.length_tokens_pos
  obtain ⟨k, rfl⟩ := Nat.exists_eq_add_of_le' (show 4 ≤ fuel by omega)
  cases p with
  | ident word =>
      have hword : identifier scope word = scope.resolve word := by
        rw [identifier, if_neg hp.2.1, if_neg (not_or.mpr hp.2.2)]
      rw [Phrase.translate, ← hword]
      exact gives_ident hp.1.2 ts ns
  | var v =>
      rw [Phrase.translate, Names.translate_later hids]
      exact gives_var v ts ns
  | index i => exact gives_index i ts ns
  | nat n => exact gives_nat n ts ns
  | str s => exact gives_str s ts ns
  | sort w =>
      cases w with
      | _ => exact gives_ident rfl ts ns
  | app fn args =>
      simp only [Phrase.tokens, List.cons_append, List.append_assoc,
        List.nil_append, List.length_cons, List.length_append,
        List.length_nil] at hfuel ⊢
      rw [Phrase.variables, Names.askAll_append]
      refine gives_paren (gives_term (gives_application (fn.beginsAtom_tokens _)
        (gives_atom fn hp.1 (by omega) hids.first) ?_) nofun)
      exact gives_args args hp.2 (by omega) rfl hids.second
  | quantified q inside =>
      simp only [Phrase.tokens, List.cons_append, List.append_assoc,
        List.nil_append, List.length_cons, List.length_append,
        List.length_nil] at hfuel ⊢
      obtain ⟨bs, vs, ns₁, body, hbs, hbody, heq⟩ :=
        gives_telescope q inside hp k scope ts (by omega) hids
      rw [Phrase.translate, ← heq]
      refine gives_paren (gives_term_atom (by omega) rfl (endsTerm_rparen ts) ?_)
      exact gives_quantified q hbs (hbody k (Nat.le_refl k))
  | arrow left right =>
      simp only [Phrase.tokens, List.cons_append, List.append_assoc,
        List.nil_append, List.length_cons, List.length_append,
        List.length_nil] at hfuel ⊢
      rw [Phrase.variables, Names.askAll_append, Phrase.translate, Term.arrow,
        ← translate_hidden ids scope hp.2.2]
      have hlength := right.length_tokens_pos
      refine gives_paren (gives_arrow (gives_application
        (left.beginsAtom_tokens _)
        (gives_atom left hp.1 (by omega) hids.first)
        (gives_arguments_nil rfl)) ?_)
      refine gives_term_atom (by omega) (right.beginsAtom_tokens _)
        (endsTerm_rparen ts) ?_
      exact gives_atom right hp.2.1 (by omega) hids.second
  | letE name type value body =>
      simp only [Phrase.tokens, List.cons_append, List.append_assoc,
        List.nil_append, List.length_cons, List.length_append,
        List.length_nil] at hfuel ⊢
      have hpos := value.length_tokens_pos
      have hpos' := body.length_tokens_pos
      rw [Phrase.variables, Names.askAll_append, Names.askAll_append]
      refine gives_paren (gives_term_atom (by omega) rfl (endsTerm_rparen ts) ?_)
      refine gives_letE hp.1.2
        (gives_type type hp.2.1 (by omega) ⟨rfl, nofun⟩ nofun hids.first.first)
        (gives_term_atom (by omega) (value.beginsAtom_tokens _) ⟨rfl, nofun⟩
          (gives_atom value hp.2.2.1 (by omega) hids.first.second)) ?_
      refine gives_term_atom (by omega) (body.beginsAtom_tokens _)
        (endsTerm_rparen ts) ?_
      rw [← Names.askAll_append]
      exact gives_atom body hp.2.2.2 (by omega) hids.second
  | proj struct i value =>
      simp only [Phrase.tokens, List.cons_append, List.append_assoc,
        List.nil_append, List.length_cons, List.length_append,
        List.length_nil] at hfuel ⊢
      refine gives_paren (gives_term_atom (by omega) rfl (endsTerm_rparen ts) ?_)
      refine gives_proj hp.1.2 (Nat.mod_eq_of_lt (Nat.lt_succ_of_le hp.2.1)) ?_
      exact gives_atom value hp.2.2 (by omega) hids

theorem gives_args (ps : List Phrase) (hps : ValidArgs ps) {fuel : Nat}
    {scope : Scope} {f : Term} {ts : List Token} {ns ids : Names}
    (hfuel : 4 * (tokensArgs ps).length < fuel) (hts : beginsAtom ts = false)
    (hids : (ns.askAll (variablesArgs ps)).Later ids) :
    Gives (arguments fuel scope f) (tokensArgs ps ++ ts) ns
      (f.mkApp (translateArgs ids scope ps)) ts
      (ns.askAll (variablesArgs ps)) := by
  obtain ⟨k, rfl⟩ := Nat.exists_eq_add_of_le' (show 1 ≤ fuel by omega)
  cases ps with
  | nil => exact gives_arguments_nil hts
  | cons p ps =>
      have hlength := p.length_tokens_pos
      simp only [tokensArgs, List.append_assoc, List.length_append] at hfuel ⊢
      rw [variablesArgs, Names.askAll_append]
      refine gives_arguments_cons (p.beginsAtom_tokens _)
        (gives_atom p hps.1 (by omega) hids.first) ?_
      exact gives_args ps hps.2 (by omega) hts hids.second

theorem gives_type (type : Option Phrase) (htype : ValidType type) {fuel : Nat}
    {scope : Scope} {ts : List Token} {ns ids : Names}
    (hfuel : 4 * (tokensType type).length ≤ fuel) (hts : EndsTerm ts)
    (hcolon : ts.head? ≠ some .colon)
    (hids : (ns.askAll (variablesType type)).Later ids) :
    GivesType fuel scope (tokensType type ++ ts) ns
      (translateType ids scope type) ts (ns.askAll (variablesType type)) := by
  cases type with
  | none => exact .omitted hcolon
  | some p =>
      have hlength := p.length_tokens_pos
      simp only [tokensType, List.length_cons] at hfuel
      refine .written (gives_term_atom (by omega) (p.beginsAtom_tokens _) hts ?_)
      exact gives_atom p htype (by omega) hids

/-- A telescope is read in two steps, binders first. The body is read with as
many calls as the first binder. -/
theorem gives_telescope (q : Quantifier) (inside : Telescope)
    (hinside : inside.Valid) (fuel : Nat) (scope : Scope) (ts : List Token)
    {ns ids : Names} (hfuel : 4 * (inside.tokens q).length ≤ fuel)
    (hids : (ns.askAll inside.variables).Later ids) :
    ∃ bs vs ns₁ body,
      Gives (binders fuel scope q.separator) (inside.tokens q ++ .rparen :: ts)
        ns bs vs ns₁
      ∧ (∀ fuel', fuel ≤ fuel' →
        Gives (term fuel' (Binder.enter bs scope)) vs ns₁ body (.rparen :: ts)
          (ns.askAll inside.variables))
      ∧ q.binds bs body = inside.translate ids q scope := by
  cases inside with
  | body b =>
      have hlength := b.length_tokens_pos
      simp only [Telescope.tokens, List.length_cons] at hfuel
      obtain ⟨k, rfl⟩ := Nat.exists_eq_add_of_le' (show 1 ≤ fuel by omega)
      refine ⟨[], b.tokens ++ .rparen :: ts, ns, b.translate ids scope,
        gives_separator q _ ns, fun fuel' hfuel' => ?_, rfl⟩
      refine gives_term_atom (by omega) (b.beginsAtom_tokens _)
        (endsTerm_rparen ts) ?_
      exact gives_atom b hinside (by omega) hids
  | bare name inner =>
      simp only [Telescope.tokens, List.length_cons] at hfuel
      obtain ⟨k, rfl⟩ := Nat.exists_eq_add_of_le' (show 1 ≤ fuel by omega)
      obtain ⟨bs, vs, ns₁, body, hbs, hbody, heq⟩ :=
        gives_telescope q inner hinside.2 k (some name :: scope) ts (by omega)
          hids
      refine ⟨⟨name, .default, .sort 1⟩ :: bs, vs, ns₁, body,
        gives_bare hinside.1.2 hbs, fun fuel' hfuel' => ?_, ?_⟩
      · exact hbody fuel' (by omega)
      · rw [Telescope.translate, ← heq]
        rfl
  | group info names type inner =>
      obtain ⟨hne, hnames, hinst, htype, hinner⟩ := hinside
      have hclose := endsTerm_closeTokens info (inner.tokens q ++ .rparen :: ts)
      simp only [Telescope.tokens, List.append_assoc, List.length_append,
        List.length_map] at hfuel ⊢
      have hopen : 1 ≤ (openTokens info).length := by
        cases info with
        | _ => simp [openTokens]
      have hwords : 1 ≤ names.length := List.length_pos_of_ne_nil hne
      obtain ⟨k, rfl⟩ := Nat.exists_eq_add_of_le' (show 2 ≤ fuel by omega)
      obtain ⟨bs, vs, ns₁, body, hbs, hbody, heq⟩ :=
        gives_telescope q inner hinner (k + 1)
          (names.foldl (fun s x => some x :: s) scope) ts (by omega) hids.second
      rw [← enter_group info (translateType ids scope type)] at hbs hbody
      refine ⟨_, vs, ns₁, body, gives_opened ?_
        (gives_group hne (fun w hw => (hnames w hw).2)
          (fun hinfo => head?_tokensType (hinst hinfo) _)
          (endsNames_tokensType type info _) ?_) hbs, ?_, ?_⟩
      · obtain ⟨w, words, rfl⟩ := List.exists_cons_of_ne_nil hne
        simp
      · rw [closing_append]
        exact gives_type type htype (by omega) hclose.1 hclose.2 hids.first
      · intro fuel' hfuel'
        rw [Telescope.variables, Names.askAll_append, enter_append]
        exact hbody fuel' (by omega)
      · rw [Telescope.translate, ← heq, Quantifier.binds_append,
          Quantifier.binds_group]

end

theorem gives_whole (p : Phrase) (hp : p.Valid) (ns : Names) :
    Gives (whole (4 * (p.tokens.length + 1))) p.tokens ns
      (p.translate (ns.askAll p.variables) []) [] (ns.askAll p.variables) := by
  have hatom : Gives (atom (4 * (p.tokens.length + 1) - 2) []) (p.tokens ++ [])
      ns (p.translate (ns.askAll p.variables) []) [] (ns.askAll p.variables) :=
    gives_atom p hp (by omega) (.refl _)
  have hbegins := p.beginsAtom_tokens []
  rw [List.append_nil] at hatom hbegins
  unfold whole
  refine (gives_term_atom (by omega) hbegins ⟨rfl, by simp⟩ hatom).bind ?_
  exact (gives_peek? [] _).bind (.pure _ [] _)

end Reader

/-! ## Parsing -/

theorem Spells.parse {text : String} {ts : List Token} {ns ns' : Names}
    {t : Term} (htext : Spells text.toList ts)
    (h : Reader.Gives (Reader.whole (4 * (ts.length + 1))) ts ns t [] ns') :
    parse ns text = (.ok t, ns') := by
  obtain ⟨ls, hls, rfl⟩ := spells_iff.mp htext 0
  obtain ⟨c, hc, -, rfl⟩ := h ⟨ls, text.utf8ByteSize, ns⟩ rfl rfl
  rw [List.length_map] at hc
  have hscan : scan text = .ok ls := hls
  unfold Surface.parse
  rw [hscan]
  dsimp only
  rw [Reader.outcome] at hc
  rw [hc]

theorem Phrase.spells (p : Phrase) (hp : p.Valid) :
    Spells p.render.toList p.tokens := by
  simpa using spells_render p hp .nil (Leads.refl [])

/-- **The grammar.** The text of a phrase is read as what the phrase stands
for, whatever names are known before. -/
theorem parse_render (ns : Names) (p : Phrase) (hp : p.Valid) :
    parse ns p.render
      = (.ok (p.translate (ns.askAll p.variables) []),
          ns.askAll p.variables) :=
  (p.spells hp).parse (Reader.gives_whole p hp ns)

/-- A phrase in which a name is bound twice, and read in the type of its own
group, where it still stands for the outer binder. -/
def shadowing : Phrase :=
  .quantified .lam
    (.bare "x"
      (.group .strict ["x", "y"] (some (.app (.ident "P") [.ident "x"]))
        (.body (.arrow (.ident "x") (.app (.ident "y") [.var ⟨.mvar, "m"⟩])))))

theorem parse_render_shadowing :
    shadowing.Valid
      ∧ parse .empty "(fun x {{x y : (P x)}} => (x -> (y ?m)))"
        = (.ok (.lam "x" .default (.sort 1)
            (.lam "x" .strict (.app (.const "P") (.bvar 0))
              (.lam "y" .strict (.app (.const "P") (.bvar 1))
                (.pi "a" .default (.bvar 1)
                  (.app (.bvar 1) (.mvar ⟨1048576⟩)))))), ⟨["m"], []⟩) := by
  have hvalid : shadowing.Valid := by
    simp only [shadowing, Phrase.Valid, ValidArgs, ValidType, Telescope.Valid,
      Phrase.IndexFree, IndexFreeArgs, Nameable, ← List.all_eq_true]
    decide +kernel
  exact ⟨hvalid, parse_render .empty shadowing hvalid⟩

end TermIndex.Surface
