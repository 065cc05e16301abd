import TermIndex.Surface.Parser
import TermIndex.Proofs.VariableNumbers

/-!
# What readers do

A reader that succeeds does not depend on where its tokens stand. So what it
does is said on the tokens and the names alone: `Gives r ts ns a ts' ns'` means
that from these tokens and names the reader gives `a` and leaves those. There is
one rule for sequencing (`Gives.bind`) and one for each primitive reader, and
with them a reader is run without unfolding the monad.
-/

namespace TermIndex.Surface

/-- The tokens that are left. -/
def Cursor.tokens (c : Cursor) : List Token := c.rest.map Lexeme.token

namespace Reader

variable {α β : Type}

/-- What a reader comes to at a cursor, and where it leaves the cursor. -/
def outcome (r : Reader α) (c : Cursor) : Except SyntaxError α × Cursor :=
  r.run.run c

theorem outcome_bind (r : Reader α) (f : α → Reader β) (c : Cursor) :
    outcome (r >>= f) c
      = match outcome r c with
        | (.ok a, c') => outcome (f a) c'
        | (.error e, c') => (.error e, c') := by
  unfold outcome
  rw [ExceptT.run_bind, StateT.run_bind]
  rcases r.run.run c with ⟨_ | _, c'⟩
  · rfl
  · rfl

theorem outcome_bind_ok {r : Reader α} {f : α → Reader β} {c c' : Cursor}
    {a : α} (h : outcome r c = (.ok a, c')) :
    outcome (r >>= f) c = outcome (f a) c' := by
  rw [outcome_bind, h]

/-! ## Success -/

/-- With these tokens and names before it, whatever the positions, the reader
gives `a` and leaves those tokens and names. -/
def Gives (r : Reader α) (ts : List Token) (ns : Names) (a : α)
    (ts' : List Token) (ns' : Names) : Prop :=
  ∀ c : Cursor, c.tokens = ts → c.names = ns →
    ∃ c', outcome r c = (.ok a, c') ∧ c'.tokens = ts' ∧ c'.names = ns'

variable {r : Reader α} {f : α → Reader β} {a : α} {b : β}
  {ts ts' ts'' : List Token} {ns ns' ns'' : Names} {t : Token}

theorem Gives.bind (hr : Gives r ts ns a ts' ns')
    (hf : Gives (f a) ts' ns' b ts'' ns'') :
    Gives (r >>= f) ts ns b ts'' ns'' := by
  intro c hts hns
  obtain ⟨c', hc', hts', hns'⟩ := hr c hts hns
  rw [outcome_bind_ok hc']
  exact hf c' hts' hns'

theorem Gives.pure (a : α) (ts : List Token) (ns : Names) :
    Gives (Pure.pure a) ts ns a ts ns :=
  fun c hts hns => ⟨c, rfl, hts, hns⟩

/-- A position is taken for a message only. -/
theorem Gives.position {f : Nat → Reader β}
    (hf : ∀ pos, Gives (f pos) ts ns b ts' ns') :
    Gives (position >>= f) ts ns b ts' ns' :=
  fun c hts hns => hf c.pos c hts hns

theorem gives_next (t : Token) (ts : List Token) (ns : Names) :
    Gives next (t :: ts) ns t ts ns := by
  rintro ⟨rest, stop, names⟩ hts rfl
  obtain ⟨l, rest, rfl, rfl, rfl⟩ := List.map_eq_cons_iff.mp hts
  exact ⟨⟨rest, stop, names⟩, rfl, rfl, rfl⟩

theorem gives_peek? (ts : List Token) (ns : Names) :
    Gives peek? ts ns ts.head? ts ns := by
  rintro c rfl rfl
  refine ⟨c, ?_, rfl, rfl⟩
  rw [Cursor.tokens, List.head?_map]
  rfl

theorem gives_eat_self (t : Token) (ts : List Token) (ns : Names) :
    Gives (eat t) (t :: ts) ns true ts ns := by
  refine (gives_peek? (t :: ts) ns).bind ?_
  rw [if_pos (List.head?_cons ..)]
  exact (gives_next t ts ns).bind (.pure true ts ns)

theorem gives_eat_other (h : ts.head? ≠ some t) (ns : Names) :
    Gives (eat t) ts ns false ts ns := by
  refine (gives_peek? ts ns).bind ?_
  rw [if_neg h]
  exact .pure false ts ns

theorem gives_expect (t : Token) (ts : List Token) (ns : Names) :
    Gives (expect t) (t :: ts) ns () ts ns :=
  (gives_eat_self t ts ns).bind (.pure () ts ns)

theorem gives_name {word : String} (h : isKeyword word = false)
    (ts : List Token) (ns : Names) :
    Gives name (.ident word :: ts) ns word ts ns := by
  refine .position fun pos => (gives_next _ ts ns).bind ?_
  simp only [h, Bool.false_eq_true, if_false]
  exact .pure word ts ns

/-- The words end where no identifier follows that could be a name. -/
def EndsNames (ts : List Token) : Prop :=
  ∀ word ts', ts = .ident word :: ts' → isKeyword word = true

theorem leadingNames_append {words : List String}
    (hwords : ∀ w ∈ words, isKeyword w = false) :
    ∀ {ls : List Lexeme} {ts : List Token}, EndsNames ts →
      ls.map Lexeme.token = words.map .ident ++ ts →
      (leadingNames ls).1 = words
        ∧ (leadingNames ls).2.map Lexeme.token = ts := by
  induction words with
  | nil =>
      intro ls ts hts hls
      rcases ls with _ | ⟨⟨pos, t⟩, ls⟩
      · exact ⟨rfl, hls⟩
      · cases t with
        | ident word =>
            have hword := hts word _ hls.symm
            rw [leadingNames, if_pos hword]
            exact ⟨rfl, hls⟩
        | _ => exact ⟨rfl, hls⟩
  | cons w words ih =>
      intro ls ts hts hls
      obtain ⟨hw, hwords⟩ := List.forall_mem_cons.mp hwords
      obtain ⟨⟨pos, t⟩, ls', rfl, rfl, hls'⟩ := List.map_eq_cons_iff.mp hls
      obtain ⟨hfst, hsnd⟩ := ih hwords hts hls'
      simp only [leadingNames, hw, Bool.false_eq_true, if_false]
      exact ⟨congrArg (w :: ·) hfst, hsnd⟩

theorem gives_names {words : List String}
    (hwords : ∀ w ∈ words, isKeyword w = false) (hts : EndsNames ts)
    (ns : Names) :
    Gives names (words.map .ident ++ ts) ns words ts ns := by
  rintro ⟨rest, stop, _⟩ hrest rfl
  obtain ⟨hfst, hsnd⟩ := leadingNames_append hwords hts hrest
  exact ⟨⟨(leadingNames rest).2, stop, _⟩, by rw [← hfst]; rfl, hsnd, rfl⟩

/-- Whether a term begins with the first of these tokens. -/
def beginsAtom (ts : List Token) : Bool := (ts.head?.map Token.startsAtom).getD false

theorem gives_atAtom (ts : List Token) (ns : Names) :
    Gives atAtom ts ns (beginsAtom ts) ts ns :=
  (gives_peek? ts ns).bind (.pure _ ts ns)

theorem gives_mvar (name : String) (ts : List Token) (ns : Names) :
    Gives (mvar name) ts ns (.mvar (ns.mvar name).1) ts (ns.ask ⟨.mvar, name⟩) := by
  rintro ⟨rest, stop, _⟩ rfl rfl
  exact ⟨_, rfl, rfl, rfl⟩

theorem gives_fvar (name : String) (ts : List Token) (ns : Names) :
    Gives (fvar name) ts ns (.fvar (ns.fvar name).1) ts (ns.ask ⟨.fvar, name⟩) := by
  rintro ⟨rest, stop, _⟩ rfl rfl
  exact ⟨_, rfl, rfl, rfl⟩

end Reader

end TermIndex.Surface
