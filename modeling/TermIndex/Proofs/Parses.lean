import TermIndex.Proofs.Outcomes
import TermIndex.Proofs.Productions

/-!
# The readers and the productions

The readers do what the productions say, and no more: a reader that succeeds has
read its item (`sound`), and what the productions read, the readers give, if four
calls may nest for each token (`Reads.given`). So a text is parsed as a term if
and only if its tokens are read as that term from the first to the last
(`parseUnder_eq_ok_iff`).

The readers take the scope from outside and hand it on. The stack of a state is
what the scope of the reader is when it gets there, since a term leaves the stack
as it was.
-/

namespace TermIndex.Surface

/-- What a reader is given: its scope, and the cursor without positions. -/
def Cursor.state (c : Cursor) (scope : Scope) : State :=
  ⟨scope, c.tokens, c.names⟩

theorem Cursor.Skips.state {c c' : Cursor} {ts : List Token} (h : c.Skips ts c')
    (scope : Scope) : c.state scope = ⟨scope, ts ++ c'.tokens, c'.names⟩ := by
  rw [Cursor.state, h.1, h.2]

namespace Reader

/-! ## From the readers to the productions -/

/-- Readers that may nest so many calls read by the productions. -/
structure Sound (fuel : Nat) : Prop where
  term : ∀ {scope c t c'}, outcome (term fuel scope) c = (.ok t, c') →
    Reads (.term t) (c.state scope) (c'.state scope)
  application : ∀ {scope c t c'},
    outcome (application fuel scope) c = (.ok t, c') →
      Reads (.application t) (c.state scope) (c'.state scope)
  arguments : ∀ {scope f c t c'},
    outcome (arguments fuel scope f) c = (.ok t, c') →
      Reads (.arguments f t) (c.state scope) (c'.state scope)
  atom : ∀ {scope c t c'}, outcome (atom fuel scope) c = (.ok t, c') →
    Reads (.atom t) (c.state scope) (c'.state scope)
  binders : ∀ q {scope c bs c'},
    outcome (binders fuel scope q.separator) c = (.ok bs, c') →
      Reads (.binders q bs) (c.state scope) (c'.state (Binder.enter bs scope))
  group : ∀ info {scope c bs c'},
    outcome (group fuel scope info (closing info)) c = (.ok bs, c') →
      Reads (.group info bs) (c.state scope) (c'.state (Binder.enter bs scope))

section

variable {fuel : Nat} {scope : Scope} {c c₁ c' : Cursor} {t : Term}

theorem reads_of_term (ih : Sound fuel)
    (h : outcome (term (fuel + 1) scope) c = (.ok t, c')) :
    Reads (.term t) (c.state scope) (c'.state scope) := by
  rw [term] at h
  obtain ⟨left, c₁, hleft, h⟩ := ok_of_bind h
  have hleft := ih.application hleft
  obtain ⟨took, c₂, heat, h⟩ := ok_of_bind h
  rcases ok_of_eat heat with ⟨rfl, hskip⟩ | ⟨rfl, hend, rfl⟩
  · obtain ⟨right, c₃, hright, h⟩ := ok_of_bind h
    obtain ⟨rfl, rfl⟩ := ok_of_pure h
    rw [hskip.state scope] at hleft
    exact .arrow hleft (ih.term hright)
  · obtain ⟨rfl, rfl⟩ := ok_of_pure h
    exact .alone hleft hend

theorem reads_of_application (ih : Sound fuel)
    (h : outcome (application (fuel + 1) scope) c = (.ok t, c')) :
    Reads (.application t) (c.state scope) (c'.state scope) := by
  rw [application] at h
  obtain ⟨begins, c₁, hbegins, h⟩ := ok_of_bind h
  obtain ⟨-, rfl⟩ := ok_of_atAtom hbegins
  cases begins with
  | false => cases h
  | true =>
      obtain ⟨f, c₂, hf, h⟩ := ok_of_bind h
      exact .application (ih.atom hf) (ih.arguments h)

theorem reads_of_arguments (ih : Sound fuel) {f : Term}
    (h : outcome (arguments (fuel + 1) scope f) c = (.ok t, c')) :
    Reads (.arguments f t) (c.state scope) (c'.state scope) := by
  rw [arguments] at h
  obtain ⟨begins, c₁, hbegins, h⟩ := ok_of_bind h
  obtain ⟨hend, rfl⟩ := ok_of_atAtom hbegins
  cases begins with
  | false =>
      obtain ⟨rfl, rfl⟩ := ok_of_pure h
      exact .done hend.symm
  | true =>
      obtain ⟨a, c₂, ha, h⟩ := ok_of_bind h
      exact .argument (ih.atom ha) (ih.arguments h)

/-- What follows the type of a `let`, whether that was written or not. -/
theorem reads_of_assigned (ih : Sound fuel) {x : String} {type : Term}
    (hx : isKeyword x = false) {ts : List Token} {ns : Names}
    (htype : Reads (.type type) ⟨scope, ts, ns⟩ (c₁.state scope))
    (h : outcome (do
      expect .assign
      let value ← term fuel scope
      expect .semi
      let body ← term fuel (some x :: scope)
      return Term.letE ⟨x⟩ type value body) c₁ = (.ok t, c')) :
    Reads (.atom t) ⟨scope, .ident "let" :: .ident x :: ts, ns⟩
      (c'.state scope) := by
  obtain ⟨u, c₂, hassign, h⟩ := ok_of_bind h
  obtain ⟨value, c₃, hvalue, h⟩ := ok_of_bind h
  obtain ⟨u', c₄, hsemi, h⟩ := ok_of_bind h
  obtain ⟨body, c₅, hbody, h⟩ := ok_of_bind h
  obtain ⟨rfl, rfl⟩ := ok_of_pure h
  have hvalue := ih.term hvalue
  rw [(ok_of_expect hassign).state scope] at htype
  rw [(ok_of_expect hsemi).state scope] at hvalue
  exact .letE hx htype hvalue (ih.term hbody)

theorem reads_of_letE (ih : Sound fuel) (hkey : c.Skips [.ident "let"] c₁)
    (h : outcome (do
      let n ← name
      let type ← if ← eat .colon then term fuel scope else pure (.sort 1)
      expect .assign
      let value ← term fuel scope
      expect .semi
      let body ← term fuel (some n :: scope)
      return Term.letE ⟨n⟩ type value body) c₁ = (.ok t, c')) :
    Reads (.atom t) (c.state scope) (c'.state scope) := by
  obtain ⟨n, c₂, hname, h⟩ := ok_of_bind h
  obtain ⟨hn, hname⟩ := ok_of_name hname
  rw [hkey.state, hname.1, ← hname.2]
  obtain ⟨took, c₃, heat, h⟩ := ok_of_bind h
  rcases ok_of_eat heat with ⟨rfl, hcolon⟩ | ⟨rfl, hcolon, rfl⟩
  · obtain ⟨type, c₄, htype, h⟩ := ok_of_bind h
    refine reads_of_assigned ih hn ?_ h
    rw [hcolon.1, ← hcolon.2]
    exact .written (ih.term htype)
  · obtain ⟨type, c₄, htype, h⟩ := ok_of_bind h
    obtain ⟨rfl, rfl⟩ := ok_of_pure htype
    exact reads_of_assigned ih hn (.omitted hcolon) h

theorem reads_of_proj (ih : Sound fuel) (hkey : c.Skips [.ident "proj"] c₁)
    (h : outcome (do
      let struct ← name
      let fieldPos ← position
      match ← next with
      | .nat n => do
        let value ← atom fuel scope
        return Term.proj ⟨struct⟩ (n % (maxId + 1)) value
      | _ => failAt fieldPos .missingField) c₁ = (.ok t, c')) :
    Reads (.atom t) (c.state scope) (c'.state scope) := by
  obtain ⟨struct, c₂, hname, h⟩ := ok_of_bind h
  obtain ⟨hstruct, hname⟩ := ok_of_name hname
  obtain ⟨field, c₃, hnext, h⟩ := ok_of_bind (ok_of_position h)
  have hfield := ok_of_next hnext
  split at h
  · next n =>
      obtain ⟨value, c₄, hvalue, h⟩ := ok_of_bind h
      obtain ⟨rfl, rfl⟩ := ok_of_pure h
      rw [hkey.state, hname.1, ← hname.2, hfield.1, ← hfield.2]
      exact .proj n hstruct (ih.atom hvalue)
  · cases h

theorem reads_of_quantified (ih : Sound fuel) (q : Quantifier)
    {bs : List Binder} {body : Term} {c₂ : Cursor}
    (hkey : c.Skips [.ident q.keyword] c₁)
    (hbs : outcome (binders fuel scope q.separator) c₁ = (.ok bs, c₂))
    (hbody : outcome (term fuel (Binder.enter bs scope)) c₂ = (.ok body, c')) :
    Reads (.atom (q.binds bs body)) (c.state scope) (c'.state scope) := by
  have hreads := Reads.quantified (ih.binders q hbs) (ih.term hbody)
  rw [State.cut, Cursor.state, drop_enter] at hreads
  rw [hkey.state]
  exact hreads

theorem reads_of_atom (ih : Sound fuel)
    (h : outcome (atom (fuel + 1) scope) c = (.ok t, c')) :
    Reads (.atom t) (c.state scope) (c'.state scope) := by
  rw [atom] at h
  obtain ⟨found, c₁, hnext, h⟩ := ok_of_bind (ok_of_position h)
  have hskip := ok_of_next hnext
  split at h
  · obtain ⟨t', c₂, ht, h⟩ := ok_of_bind h
    obtain ⟨u, c₃, hclose, h⟩ := ok_of_bind h
    obtain ⟨rfl, rfl⟩ := ok_of_pure h
    have ht := ih.term ht
    rw [(ok_of_expect hclose).state scope] at ht
    rw [hskip.state]
    exact .paren ht
  · next name =>
      cases h
      rw [hskip.state]
      exact .var ⟨.mvar, name⟩ ..
  · next name =>
      cases h
      rw [hskip.state]
      exact .var ⟨.fvar, name⟩ ..
  · next i =>
      obtain ⟨rfl, rfl⟩ := ok_of_pure h
      rw [hskip.state]
      exact .index ..
  · next n =>
      obtain ⟨rfl, rfl⟩ := ok_of_pure h
      rw [hskip.state]
      exact .nat ..
  · next s =>
      obtain ⟨rfl, rfl⟩ := ok_of_pure h
      rw [hskip.state]
      exact .str ..
  · obtain ⟨bs, c₂, hbs, h⟩ := ok_of_bind h
    obtain ⟨body, c₃, hbody, h⟩ := ok_of_bind h
    obtain ⟨rfl, rfl⟩ := ok_of_pure h
    exact reads_of_quantified ih .lam hskip hbs hbody
  · obtain ⟨bs, c₂, hbs, h⟩ := ok_of_bind h
    obtain ⟨body, c₃, hbody, h⟩ := ok_of_bind h
    obtain ⟨rfl, rfl⟩ := ok_of_pure h
    exact reads_of_quantified ih .pi hskip hbs hbody
  · exact reads_of_letE ih hskip h
  · exact reads_of_proj ih hskip h
  · next word hfun hforall hlet hproj =>
      obtain ⟨rfl, rfl⟩ := ok_of_pure h
      have hword : isKeyword word = false := by
        simp_all [isKeyword]
      rw [hskip.state]
      exact .ident hword ..
  · cases h

/-- The binders that come after a part of them is read. -/
theorem reads_of_more (ih : Sound fuel) (q : Quantifier) {bs₁ bs : List Binder}
    (h : outcome (do
      let more ← binders fuel (Binder.enter bs₁ scope) q.separator
      return bs₁ ++ more) c = (.ok bs, c')) :
    ∃ more, bs = bs₁ ++ more
      ∧ Reads (.binders q more) (c.state (Binder.enter bs₁ scope))
        (c'.state (Binder.enter bs scope)) := by
  obtain ⟨more, c₁, hmore, h⟩ := ok_of_bind h
  obtain ⟨rfl, rfl⟩ := ok_of_pure h
  rw [enter_append]
  exact ⟨more, rfl, ih.binders q hmore⟩

/-- A group, from the brackets that open it to those that close it, and the
binders that come after it. -/
theorem reads_of_grouped (ih : Sound fuel) (q : Quantifier) (info : BinderInfo)
    {bs₁ bs : List Binder} {c₂ c₃ : Cursor} (hopen : c.Skips (openTokens info) c₁)
    (hbs₁ : outcome (group fuel scope info (closing info)) c₁ = (.ok bs₁, c₂))
    (hclose : c₂.Skips (closeTokens info).tail c₃)
    (h : outcome (do
      let more ← binders fuel (Binder.enter bs₁ scope) q.separator
      return bs₁ ++ more) c₃ = (.ok bs, c')) :
    Reads (.binders q bs) (c.state scope)
      (c'.state (Binder.enter bs scope)) := by
  obtain ⟨more, hbs, hmore⟩ := reads_of_more ih q h
  have hgroup := ih.group info hbs₁
  rw [hclose.state] at hgroup
  rw [hbs] at hmore ⊢
  rw [hopen.state]
  exact .grouped hgroup hmore

theorem reads_of_binders (ih : Sound fuel) (q : Quantifier) {bs : List Binder}
    (h : outcome (binders (fuel + 1) scope q.separator) c = (.ok bs, c')) :
    Reads (.binders q bs) (c.state scope)
      (c'.state (Binder.enter bs scope)) := by
  rw [binders] at h
  obtain ⟨took, c₁, heat, h⟩ := ok_of_bind h
  rcases ok_of_eat heat with ⟨rfl, hskip⟩ | ⟨rfl, -, rfl⟩
  · obtain ⟨rfl, rfl⟩ := ok_of_pure h
    rw [hskip.state]
    exact .separator ..
  · obtain ⟨found, c₂, hnext, h⟩ := ok_of_bind (ok_of_position h)
    have hfound := ok_of_next hnext
    have hnone : ∀ {c₃ : Cursor}, c₃.Skips [] c₃ := ⟨rfl, rfl⟩
    dsimp only at h
    split at h
    · next word =>
        split at h
        · cases h
        · next hword =>
            obtain ⟨bs₁, c₃, hbs₁, h⟩ := ok_of_bind h
            obtain ⟨rfl, rfl⟩ := ok_of_pure hbs₁
            obtain ⟨more, rfl, hmore⟩ := reads_of_more ih q h
            rw [hfound.state]
            exact .bare (Bool.eq_false_iff.mpr hword) hmore
    · obtain ⟨bs₁, c₃, hbs₁, h⟩ := ok_of_bind h
      exact reads_of_grouped ih q .default hfound hbs₁ hnone h
    · obtain ⟨took, c₃, heat, h⟩ := ok_of_bind h
      rcases ok_of_eat heat with ⟨rfl, hbrace⟩ | ⟨rfl, -, rfl⟩
      · obtain ⟨bs₁, c₄, hbs₁, h⟩ := ok_of_bind h
        obtain ⟨u, c₅, hclose, h⟩ := ok_of_bind h
        obtain ⟨bs₂, c₆, hbs₂, h⟩ := ok_of_bind h
        obtain ⟨rfl, rfl⟩ := ok_of_pure hbs₂
        have hopen : c.Skips [.lbrace, .lbrace] c₃ :=
          ⟨hfound.1.trans (congrArg (Token.lbrace :: ·) hbrace.1),
            hbrace.2.trans hfound.2⟩
        exact reads_of_grouped ih q .strict hopen hbs₁ (ok_of_expect hclose) h
      · obtain ⟨bs₁, c₄, hbs₁, h⟩ := ok_of_bind h
        exact reads_of_grouped ih q .implicit hfound hbs₁ hnone h
    · obtain ⟨bs₁, c₃, hbs₁, h⟩ := ok_of_bind h
      exact reads_of_grouped ih q .inst hfound hbs₁ hnone h
    · cases h

/-- What closes a group is passed, and the group has names. -/
theorem ok_of_closed {info : BinderInfo} {domain : Term} {names : List String}
    {bs : List Binder} (h : outcome (do
      expect (closing info)
      if names.isEmpty then
        failAt (← position) .namelessBinder
      return Binder.group info domain names) c = (.ok bs, c')) :
    c.Skips [closing info] c' ∧ names ≠ []
      ∧ bs = Binder.group info domain names := by
  obtain ⟨u, c₁, hclose, h⟩ := ok_of_bind h
  dsimp only at h
  split at h
  · cases h
  · next hnames =>
      obtain ⟨rfl, rfl⟩ := ok_of_pure h
      exact ⟨ok_of_expect hclose, by simpa using hnames, rfl⟩

theorem reads_of_group (ih : Sound fuel) (info : BinderInfo) {bs : List Binder}
    (h : outcome (group (fuel + 1) scope info (closing info)) c
      = (.ok bs, c')) :
    Reads (.group info bs) (c.state scope)
      (c'.state (Binder.enter bs scope)) := by
  rw [group] at h
  obtain ⟨words, c₁, hnames, h⟩ := ok_of_bind h
  obtain ⟨hwords, hskip⟩ := ok_of_names hnames
  obtain ⟨took, c₂, heat, h⟩ := ok_of_bind h
  rw [hskip.state]
  rcases ok_of_eat heat with ⟨rfl, hcolon⟩ | ⟨rfl, hcolon, rfl⟩
  · obtain ⟨domain, c₃, hdomain, h⟩ := ok_of_bind h
    obtain ⟨x, c₄, hx, h⟩ := ok_of_bind h
    obtain ⟨rfl, rfl⟩ := ok_of_pure hx
    obtain ⟨hclose, hne, rfl⟩ := ok_of_closed h
    have hdomain := Reads.written (ih.term hdomain)
    rw [hclose.state scope] at hdomain
    rw [hcolon.1, ← hcolon.2, Cursor.state, enter_group]
    rw [hcolon.2] at hdomain ⊢
    exact .group hne hwords (fun _ => rfl) hdomain
  · simp only [Bool.false_eq_true, if_false] at h
    split at h
    · next hinst =>
        subst hinst
        split at h
        · cases h
        · next f as _ _ =>
            obtain ⟨x, c₃, hx, h⟩ := ok_of_bind h
            obtain ⟨rfl, rfl⟩ := ok_of_pure hx
            obtain ⟨hclose, -, rfl⟩ := ok_of_closed h
            rw [hclose.1, ← hclose.2]
            exact .anonymous hwords ..
    · next hinst =>
        obtain ⟨x, c₃, hx, h⟩ := ok_of_bind h
        obtain ⟨rfl, rfl⟩ := ok_of_pure hx
        obtain ⟨hclose, hne, rfl⟩ := ok_of_closed h
        have hleft : ⟨scope, closing info :: c'.tokens, c'.names⟩
            = c₃.state scope := (hclose.state scope).symm
        rw [Cursor.state, enter_group]
        refine .group hne hwords (fun h => absurd h hinst) ?_
        rw [hleft]
        exact .omitted hcolon

end

theorem sound (fuel : Nat) : Sound fuel := by
  induction fuel with
  | zero => exact ⟨nofun, nofun, nofun, nofun, nofun, nofun⟩
  | succ fuel ih =>
      exact ⟨reads_of_term ih, reads_of_application ih, reads_of_arguments ih,
        reads_of_atom ih, fun q => reads_of_binders ih q,
        fun info => reads_of_group ih info⟩

/-! ## From the productions to the readers -/

/-- The reader of an item gives it, with so many calls. -/
def GivesItem (fuel : Nat) (s s' : State) : Item → Prop
  | .term t => Gives (term fuel s.stack) s.tokens s.names t s'.tokens s'.names
  | .application t =>
    Gives (application fuel s.stack) s.tokens s.names t s'.tokens s'.names
  | .arguments f t =>
    Gives (arguments fuel s.stack f) s.tokens s.names t s'.tokens s'.names
  | .atom t => Gives (atom fuel s.stack) s.tokens s.names t s'.tokens s'.names
  | .type d => GivesType fuel s.stack s.tokens s.names d s'.tokens s'.names
  | .binders q bs =>
    Gives (binders fuel s.stack q.separator) s.tokens s.names bs s'.tokens
      s'.names
  | .group info bs =>
    Gives (group fuel s.stack info (closing info)) s.tokens s.names bs s'.tokens
      s'.names

end Reader

/-- The calls that an item needs apart from four for each token. -/
def Item.calls : Item → Nat
  | .type _ => 0
  | .atom _ | .group _ _ => 1
  | .application _ | .arguments _ _ => 2
  | .term _ => 3
  | .binders _ _ => 4

open Reader

theorem beginsAtom_of_reads {t : Term} {s s' : State}
    (h : Reads (.atom t) s s') : beginsAtom s.tokens = true := by
  cases h with
  | var v =>
      obtain ⟨_ | _, name⟩ := v
      · rfl
      · rfl
  | _ => rfl

/-- A group has a word in front. -/
theorem head?_of_group {info : BinderInfo} {bs : List Binder} {s s' : State}
    (h : Reads (.group info bs) s s') : s.tokens.head? ≠ some .lbrace := by
  cases h with
  | group hne =>
      obtain ⟨w, words, rfl⟩ := List.exists_cons_of_ne_nil hne
      simp
  | anonymous => simp

/-- **What the productions read, the readers give.** -/
theorem Reads.given {i : Item} {s s' : State} (h : Reads i s s') {fuel : Nat}
    (hfuel : 4 * s.tokens.length + i.calls ≤ fuel) : GivesItem fuel s s' i := by
  induction h generalizing fuel with
  | alone happ hend ih =>
      simp only [Item.calls] at *
      obtain ⟨k, rfl⟩ := Nat.exists_eq_add_of_le' (show 1 ≤ fuel by omega)
      exact gives_term (ih (by omega)) hend
  | @arrow left right s s' σ ts ns hleft hright ihleft ihright =>
      obtain rfl : σ = s.stack := hleft.restores
      have htook := hleft.takes.2
      simp only [Item.calls, Item.least, List.length_cons] at *
      obtain ⟨k, rfl⟩ := Nat.exists_eq_add_of_le' (show 1 ≤ fuel by omega)
      exact gives_arrow (ihleft (by omega)) (ihright (by omega))
  | @application f t s s₁ s' hf hargs ihf ihargs =>
      have hstack : s₁.stack = s.stack := hf.restores
      have htook := hf.takes.2
      simp only [Item.calls, Item.least] at *
      obtain ⟨k, rfl⟩ := Nat.exists_eq_add_of_le' (show 1 ≤ fuel by omega)
      simp only [GivesItem, hstack] at ihargs
      exact gives_application (beginsAtom_of_reads hf) (ihf (by omega))
        (ihargs (by omega))
  | done hend =>
      simp only [Item.calls] at *
      obtain ⟨k, rfl⟩ := Nat.exists_eq_add_of_le' (show 1 ≤ fuel by omega)
      exact gives_arguments_nil hend
  | @argument f a t s s₁ s' ha hmore iha ihmore =>
      have hstack : s₁.stack = s.stack := ha.restores
      have htook := ha.takes.2
      simp only [Item.calls, Item.least] at *
      obtain ⟨k, rfl⟩ := Nat.exists_eq_add_of_le' (show 1 ≤ fuel by omega)
      simp only [GivesItem, hstack] at ihmore
      exact gives_arguments_cons (beginsAtom_of_reads ha) (iha (by omega))
        (ihmore (by omega))
  | paren ht ih =>
      simp only [Item.calls, List.length_cons] at *
      obtain ⟨k, rfl⟩ := Nat.exists_eq_add_of_le' (show 1 ≤ fuel by omega)
      exact gives_paren (ih (by omega))
  | var v σ ts ns =>
      obtain ⟨k, rfl⟩ := Nat.exists_eq_add_of_le' (Nat.le_of_add_left_le hfuel)
      exact gives_var v ts ns
  | index i σ ts ns =>
      obtain ⟨k, rfl⟩ := Nat.exists_eq_add_of_le' (Nat.le_of_add_left_le hfuel)
      exact gives_index i ts ns
  | nat n σ ts ns =>
      obtain ⟨k, rfl⟩ := Nat.exists_eq_add_of_le' (Nat.le_of_add_left_le hfuel)
      exact gives_nat n ts ns
  | str x σ ts ns =>
      obtain ⟨k, rfl⟩ := Nat.exists_eq_add_of_le' (Nat.le_of_add_left_le hfuel)
      exact gives_str x ts ns
  | ident hword σ ts ns =>
      obtain ⟨k, rfl⟩ := Nat.exists_eq_add_of_le' (Nat.le_of_add_left_le hfuel)
      exact gives_ident hword ts ns
  | @quantified q bs body σ ts ns s₁ s' hbs hbody ihbs ihbody =>
      have hstack : s₁.stack = Binder.enter bs σ := hbs.restores
      have htook := hbs.takes.2
      simp only [Item.calls, Item.least, List.length_cons] at *
      obtain ⟨k, rfl⟩ := Nat.exists_eq_add_of_le' (show 1 ≤ fuel by omega)
      simp only [GivesItem, hstack] at ihbody
      exact gives_quantified q (ihbs (by omega)) (ihbody (by omega))
  | @letE x type value body σ σ₁ σ₂ ts ts₁ ts₂ ns ns₁ ns₂ s' hx htype hvalue
      hbody ihtype ihvalue ihbody =>
      obtain rfl : σ₁ = σ := htype.restores
      obtain rfl : σ₂ = σ₁ := hvalue.restores
      have htook := htype.takes.2
      have htook' := hvalue.takes.2
      simp only [Item.calls, Item.least, List.length_cons] at *
      obtain ⟨k, rfl⟩ := Nat.exists_eq_add_of_le' (show 1 ≤ fuel by omega)
      exact gives_letE hx (ihtype (by omega)) (ihvalue (by omega))
        (ihbody (by omega))
  | proj i hstruct hvalue ih =>
      simp only [Item.calls, List.length_cons] at *
      obtain ⟨k, rfl⟩ := Nat.exists_eq_add_of_le' (show 1 ≤ fuel by omega)
      exact gives_proj hstruct rfl (ih (by omega))
  | written hd ih =>
      simp only [Item.calls, List.length_cons] at *
      exact .written (ih (by omega))
  | omitted hend => exact .omitted hend
  | separator q σ ts ns =>
      obtain ⟨k, rfl⟩ := Nat.exists_eq_add_of_le' (Nat.le_of_add_left_le hfuel)
      exact gives_separator q ts ns
  | bare hx hmore ih =>
      simp only [Item.calls, List.length_cons] at *
      obtain ⟨k, rfl⟩ := Nat.exists_eq_add_of_le' (show 1 ≤ fuel by omega)
      exact gives_bare hx (ih (by omega))
  | @grouped q info bs more σ σ₁ ts ts₁ ns ns₁ s' hgroup hmore ihgroup ihmore =>
      obtain rfl : σ₁ = Binder.enter bs σ := hgroup.restores
      have htook := hgroup.takes.2
      have hopen : 1 ≤ (openTokens info).length := by
        cases info with
        | _ => simp [openTokens]
      simp only [Item.calls, Item.least, List.length_append] at *
      obtain ⟨k, rfl⟩ := Nat.exists_eq_add_of_le' (show 1 ≤ fuel by omega)
      exact gives_opened (head?_of_group hgroup) (ihgroup (by omega))
        (ihmore (by omega))
  | @group info words d σ σ' ts ts' ns ns' hne hwords hinst htype ih =>
      have hpos := List.length_pos_of_ne_nil hne
      simp only [Item.calls, List.length_append, List.length_map] at *
      obtain ⟨k, rfl⟩ := Nat.exists_eq_add_of_le' (show 1 ≤ fuel by omega)
      refine gives_group hne hwords hinst ?_ (ih (by omega))
      rintro word ts'' rfl
      generalize hs : (⟨σ, .ident word :: ts'', ns⟩ : State) = s at htype
      cases htype with
      | written => cases hs
      | omitted =>
          cases info with
          | _ => cases hs
  | anonymous hwords σ ts ns =>
      obtain ⟨k, rfl⟩ := Nat.exists_eq_add_of_le' (Nat.le_of_add_left_le hfuel)
      exact gives_anonymous hwords ts ns

/-! ## Whole texts -/

/-- A term and nothing after it, below binders of these names. -/
def Reader.wholeUnder (scope : Scope) (fuel : Nat) : Reader Term := do
  let t ← term fuel scope
  if (← peek?).isSome then
    failAt (← position) .trailing
  return t

/-- The term written in `text` below binders of these names, and the variable
names known afterwards. -/
def parseUnder (scope : Scope) (names : Names) (text : String) :
    Except SyntaxError Term × Names :=
  match scan text with
  | .error e => (.error e, names)
  | .ok lexemes =>
    let (result, c) := outcome (wholeUnder scope (4 * (lexemes.length + 1)))
      ⟨lexemes, text.utf8ByteSize, names⟩
    (result, c.names)

theorem parseUnder_nil : parseUnder [] = parse := rfl

variable {scope : Scope} {ns ns' : Names} {text : String} {t : Term}

theorem Reader.reads_of_whole {fuel : Nat} {c c' : Cursor}
    (h : outcome (wholeUnder scope fuel) c = (.ok t, c')) :
    Reads (.term t) (c.state scope) ⟨scope, [], c'.names⟩ := by
  obtain ⟨t', c₁, ht, h⟩ := ok_of_bind h
  obtain ⟨t?, c₂, hpeek, h⟩ := ok_of_bind h
  obtain ⟨rfl, rfl⟩ := ok_of_peek? hpeek
  dsimp only at h
  split at h
  · cases h
  · next hnone =>
      obtain ⟨rfl, rfl⟩ := ok_of_pure h
      have hreads := (sound fuel).term ht
      rw [Cursor.state, Cursor.state] at hreads
      rwa [show c'.tokens = [] by simpa using hnone] at hreads

theorem Reader.gives_wholeUnder {ts : List Token}
    (h : Reads (.term t) ⟨scope, ts, ns⟩ ⟨scope, [], ns'⟩) :
    Gives (wholeUnder scope (4 * (ts.length + 1))) ts ns t [] ns' := by
  have hterm : Gives (term (4 * (ts.length + 1)) scope) ts ns t [] ns' :=
    h.given (by simp only [Item.calls]; omega)
  exact hterm.bind ((gives_peek? [] ns').bind (.pure t [] ns'))

/-- **What a text is parsed as.** It is parsed as the term that all its tokens are
read as. -/
theorem parseUnder_eq_ok_iff :
    parseUnder scope ns text = (.ok t, ns')
      ↔ ∃ ls, scan text = .ok ls
        ∧ Reads (.term t) ⟨scope, ls.map Lexeme.token, ns⟩ ⟨scope, [], ns'⟩ := by
  unfold parseUnder
  cases hscan : scan text with
  | error e => simp
  | ok ls =>
      dsimp only
      constructor
      · intro h
        rcases hc : outcome (wholeUnder scope (4 * (ls.length + 1)))
          ⟨ls, text.utf8ByteSize, ns⟩ with ⟨result, c⟩
        rw [hc] at h
        obtain ⟨rfl, rfl⟩ := Prod.mk.inj h
        exact ⟨ls, rfl, reads_of_whole hc⟩
      · rintro ⟨_, hls, h⟩
        obtain rfl := Except.ok.inj hls
        obtain ⟨c, hc, -, rfl⟩ := gives_wholeUnder h
          ⟨ls, text.utf8ByteSize, ns⟩ rfl rfl
        rw [List.length_map] at hc
        rw [hc]

/-- The same, when the tokens of the front of the text are known. -/
theorem parseUnder_leads {us : List Token} {rest : List Char}
    (hfront : Leads text.toList us rest) :
    parseUnder scope ns text = (.ok t, ns')
      ↔ ∃ ts, Spells rest ts
        ∧ Reads (.term t) ⟨scope, us ++ ts, ns⟩ ⟨scope, [], ns'⟩ := by
  obtain ⟨before, pos, hbefore, rfl⟩ := hfront 0
  rw [parseUnder_eq_ok_iff, scan, hbefore.scanFrom_eq]
  constructor
  · rintro ⟨ls, hls, h⟩
    cases hrest : scanFrom pos rest with
    | error e =>
        rw [hrest] at hls
        cases hls
    | ok after =>
        rw [hrest] at hls
        cases hls
        obtain ⟨stop, hafter⟩ := scans_of_scanFrom hrest
        exact ⟨after.map Lexeme.token, hafter.move, by rwa [← List.map_append]⟩
  · rintro ⟨ts, hts, h⟩
    obtain ⟨after, hafter, rfl⟩ := spells_iff.mp hts pos
    refine ⟨before ++ after, ?_, by rwa [List.map_append]⟩
    rw [hafter]
    rfl

/-- A text is parsed by its tokens. -/
theorem parseUnder_iff_spells :
    parseUnder scope ns text = (.ok t, ns')
      ↔ ∃ ts, Spells text.toList ts
        ∧ Reads (.term t) ⟨scope, ts, ns⟩ ⟨scope, [], ns'⟩ :=
  parseUnder_leads (.refl _)

/-! ## Only one result -/

theorem Reader.Gives.unique {α : Type} {r : Reader α} {a b : α}
    {ts ts₁ ts₂ : List Token} {ns ns₁ ns₂ : Names} (h : Gives r ts ns a ts₁ ns₁)
    (h' : Gives r ts ns b ts₂ ns₂) : a = b ∧ ts₁ = ts₂ ∧ ns₁ = ns₂ := by
  let c : Cursor := ⟨ts.map (Lexeme.mk 0), 0, ns⟩
  have hts : c.tokens = ts := by
    simp [c, Cursor.tokens, Function.comp_def]
  obtain ⟨c₁, hc₁, rfl, rfl⟩ := h c hts rfl
  obtain ⟨c₂, hc₂, rfl, rfl⟩ := h' c hts rfl
  obtain ⟨hab, rfl⟩ := Prod.mk.inj (hc₁.symm.trans hc₂)
  exact ⟨Except.ok.inj hab, rfl, rfl⟩

/-- The binders up to a separator can be read in one way only. -/
theorem Reads.binders_unique {q : Quantifier} {bs bs' : List Binder}
    {s s₁ s₂ : State} (h : Reads (.binders q bs) s s₁)
    (h' : Reads (.binders q bs') s s₂) : bs = bs' ∧ s₁ = s₂ := by
  have hgives : GivesItem (4 * s.tokens.length + 4) s s₁ (.binders q bs) :=
    h.given (Nat.le_refl _)
  have hgives' : GivesItem (4 * s.tokens.length + 4) s s₂ (.binders q bs') :=
    h'.given (Nat.le_refl _)
  obtain ⟨rfl, htokens, hnames⟩ := Gives.unique hgives hgives'
  have hstack := h.restores.trans h'.restores.symm
  obtain ⟨σ₁, ts₁, ns₁⟩ := s₁
  obtain ⟨σ₂, ts₂, ns₂⟩ := s₂
  exact ⟨rfl, by rw [State.mk.injEq]; exact ⟨hstack, htokens, hnames⟩⟩

end TermIndex.Surface
