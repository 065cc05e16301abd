import TermIndex.Proofs.Parses

/-!
# Terms that were read

Whatever text is parsed, if the result is a term then it was read from a phrase:
one that has the variables, the numerals and the strings of the text, in the same
order and with the numerals in the same places (`parse_ok`). The texts may differ
in parentheses, and in how groups are written. So what is true of all terms that
are read can be shown by induction on phrases, without a look at the readers.

What is read from a phrase (`Phrase.read`) differs from what it stands for in
two points: the number of a field is cut to its size, and right of an arrow an
explicit index counts the binder of the arrow.
-/

namespace TermIndex.Surface

/-! ## Reading phrases -/

mutual

/-- The term that the readers make of a phrase. -/
def Phrase.read (ns : Names) (scope : Scope) : Phrase → Term
  | .ident word => scope.resolve word
  | .var v => ns.translate v
  | .index i => .bvar i
  | .nat n => .lit (.nat n)
  | .str s => .lit (.str s)
  | .sort w => .sort w.level
  | .app fn args => (fn.read ns scope).mkApp (readArgs ns scope args)
  | .quantified q inside => inside.read ns q scope
  | .arrow left right =>
    .pi "a" .default (left.read ns scope) (right.read ns (none :: scope))
  | .letE name type value body =>
    .letE ⟨name⟩ (readType ns scope type) (value.read ns scope)
      (body.read ns (some name :: scope))
  | .proj struct i value =>
    .proj ⟨struct⟩ (i % (maxId + 1)) (value.read ns scope)

def readArgs (ns : Names) (scope : Scope) : List Phrase → List Term
  | [] => []
  | p :: ps => p.read ns scope :: readArgs ns scope ps

def readType (ns : Names) (scope : Scope) : Option Phrase → Term
  | none => .sort 1
  | some p => p.read ns scope

def Telescope.read (ns : Names) (q : Quantifier) (scope : Scope) :
    Telescope → Term
  | .body b => b.read ns scope
  | .bare name inner =>
    q.bind ⟨name⟩ .default (.sort 1) (inner.read ns q (some name :: scope))
  | .group info names type inner =>
    q.bindGroup info (readType ns scope type) 0 names
      (inner.read ns q (names.foldl (fun s x => some x :: s) scope))

end

theorem readArgs_idents (ns : Names) (scope : Scope) (words : List String) :
    readArgs ns scope (words.map .ident) = words.map scope.resolve := by
  induction words with
  | nil => rfl
  | cons w ws ih => exact congrArg (scope.resolve w :: ·) ih

/-! ## Leaves -/

/-- The token is a variable, an index or a literal, or the number of a field. -/
def Token.isLeaf : Token → Bool
  | .mvar _ | .fvar _ | .bvar _ | .nat _ | .str _ => true
  | _ => false

/-- Variables are leaves. -/
theorem variables_leaves (ts : List Token) :
    (ts.filter Token.isLeaf).filterMap Token.variable?
      = ts.filterMap Token.variable? := by
  induction ts with
  | nil => rfl
  | cons t ts ih =>
      cases t with
      | mvar name => exact congrArg (Variable.mk .mvar name :: ·) ih
      | fvar name => exact congrArg (Variable.mk .fvar name :: ·) ih
      | _ => exact ih

def Phrase.leaves (p : Phrase) : List Token := p.tokens.filter Token.isLeaf

def leavesArgs (ps : List Phrase) : List Token :=
  (tokensArgs ps).filter Token.isLeaf

def leavesType (type : Option Phrase) : List Token :=
  (tokensType type).filter Token.isLeaf

def Telescope.leaves (q : Quantifier) (inside : Telescope) : List Token :=
  (inside.tokens q).filter Token.isLeaf

section

variable (p p' : Phrase) (ps : List Phrase) (type : Option Phrase)
  (q : Quantifier) (inside : Telescope)

theorem leaves_app : (Phrase.app p ps).leaves = p.leaves ++ leavesArgs ps := by
  simp [Phrase.leaves, Phrase.tokens, leavesArgs, Token.isLeaf]

theorem leaves_arrow : (Phrase.arrow p p').leaves = p.leaves ++ p'.leaves := by
  simp [Phrase.leaves, Phrase.tokens, Token.isLeaf]

theorem leaves_quantified :
    (Phrase.quantified q inside).leaves = inside.leaves q := by
  simp [Phrase.leaves, Phrase.tokens, Telescope.leaves, Token.isLeaf]

theorem leaves_letE (name : String) :
    (Phrase.letE name type p p').leaves
      = leavesType type ++ (p.leaves ++ p'.leaves) := by
  simp [Phrase.leaves, Phrase.tokens, leavesType, Token.isLeaf]

theorem leaves_proj (struct : String) (i : Nat) :
    (Phrase.proj struct i p).leaves = .nat i :: p.leaves := by
  simp [Phrase.leaves, Phrase.tokens, Token.isLeaf, List.filter_cons]

theorem leavesArgs_cons : leavesArgs (p :: ps) = p.leaves ++ leavesArgs ps := by
  simp [Phrase.leaves, leavesArgs, tokensArgs]

theorem leavesArgs_idents (words : List String) :
    leavesArgs (words.map .ident) = [] := by
  induction words with
  | nil => rfl
  | cons w ws ih =>
      rw [List.map_cons, leavesArgs_cons, ih]
      rfl

theorem leavesType_some : leavesType (some p) = p.leaves := by
  simp [Phrase.leaves, leavesType, tokensType, Token.isLeaf]

theorem leaves_body : (Telescope.body p).leaves q = p.leaves := by
  cases q with
  | _ =>
    simp [Phrase.leaves, Telescope.leaves, Telescope.tokens,
      Quantifier.separator, Token.isLeaf]

theorem leaves_bare (name : String) :
    (Telescope.bare name inside).leaves q = inside.leaves q := by
  simp [Telescope.leaves, Telescope.tokens, Token.isLeaf]

theorem leaves_names (names : List String) :
    (names.map Token.ident).filter Token.isLeaf = [] := by
  simp [List.filter_eq_nil_iff, Token.isLeaf]

theorem leaves_group (info : BinderInfo) (names : List String) :
    (Telescope.group info names type inside).leaves q
      = leavesType type ++ inside.leaves q := by
  have hopen : (openTokens info).filter Token.isLeaf = [] := by
    cases info with
    | _ => rfl
  have hclose : (closeTokens info).filter Token.isLeaf = [] := by
    cases info with
    | _ => rfl
  simp [Telescope.leaves, Telescope.tokens, leavesType, hopen, hclose,
    leaves_names]

end

/-! ## Numerals -/

/-- A numeral with its place: a literal, an explicit index, or the number of a
field. -/
inductive Numeral where
  | literal (n : Nat)
  | index (i : Nat)
  | field (i : Nat)
deriving DecidableEq

/-- The numerals among some tokens, from the left. The number of a field stands
after the keyword and the name of a structure. -/
def numerals : List Token → List Numeral
  | .ident "proj" :: .ident _ :: .nat i :: ts => .field i :: numerals ts
  | .nat n :: ts => .literal n :: numerals ts
  | .bvar i :: ts => .index i :: numerals ts
  | _ :: ts => numerals ts
  | [] => []

mutual

def Phrase.numerals : Phrase → List Numeral
  | .index i => [.index i]
  | .nat n => [.literal n]
  | .app fn args => fn.numerals ++ numeralsArgs args
  | .quantified _ inside => inside.numerals
  | .arrow left right => left.numerals ++ right.numerals
  | .letE _ type value body =>
    numeralsType type ++ (value.numerals ++ body.numerals)
  | .proj _ i value => .field i :: value.numerals
  | .ident _ | .var _ | .str _ | .sort _ => []

def numeralsArgs : List Phrase → List Numeral
  | [] => []
  | p :: ps => p.numerals ++ numeralsArgs ps

def numeralsType : Option Phrase → List Numeral
  | none => []
  | some p => p.numerals

def Telescope.numerals : Telescope → List Numeral
  | .body b => b.numerals
  | .bare _ inner => inner.numerals
  | .group _ _ type inner => numeralsType type ++ inner.numerals

end

theorem numeralsArgs_idents (words : List String) :
    numeralsArgs (words.map .ident) = [] := by
  induction words with
  | nil => rfl
  | cons w ws ih => exact ih

theorem numerals_ident {word : String} (h : isKeyword word = false)
    (ts : List Token) : numerals (.ident word :: ts) = numerals ts := by
  have hne : word ≠ "proj" := by
    rintro rfl
    cases h
  rw [numerals]
  all_goals simp_all

/-- Tokens that are no leaves, whatever follows them. -/
def Plain (us : List Token) : Prop :=
  us.filter Token.isLeaf = [] ∧ ∀ ts, numerals (us ++ ts) = numerals ts

theorem plain_ident {word : String} (h : isKeyword word = false) :
    Plain [.ident word] :=
  ⟨rfl, numerals_ident h⟩

theorem plain_idents {words : List String}
    (h : ∀ w ∈ words, isKeyword w = false) : Plain (words.map .ident) := by
  refine ⟨leaves_names words, fun ts => ?_⟩
  induction words with
  | nil => rfl
  | cons w ws ih =>
      obtain ⟨hw, hws⟩ := List.forall_mem_cons.mp h
      rw [List.map_cons, List.cons_append, numerals_ident hw, ih hws]

theorem plain_openTokens (info : BinderInfo) : Plain (openTokens info) := by
  cases info with
  | _ => exact ⟨rfl, fun _ => rfl⟩

theorem plain_closeTokens (info : BinderInfo) :
    Plain (closeTokens info).tail := by
  cases info with
  | _ => exact ⟨rfl, fun _ => rfl⟩

theorem plain_closing (info : BinderInfo) : Plain [Reader.closing info] := by
  cases info with
  | _ => exact ⟨rfl, fun _ => rfl⟩

theorem plain_separator (q : Quantifier) : Plain [q.separator] := by
  cases q with
  | _ => exact ⟨rfl, fun _ => rfl⟩

theorem plain_keyword (q : Quantifier) : Plain [.ident q.keyword] := by
  cases q with
  | _ => exact ⟨rfl, fun _ => rfl⟩

/-! ## Between two places -/

/-- From `ts` to `ts'` there are these leaves and numerals, and the variables
among the leaves were asked for. -/
structure Passes (ls : List Token) (nums : List Numeral) (ts : List Token)
    (ns : Names) (ts' : List Token) (ns' : Names) : Prop where
  leaves : ts.filter Token.isLeaf = ls ++ ts'.filter Token.isLeaf
  numerals : numerals ts = nums ++ numerals ts'
  names : ns' = ns.askAll (ls.filterMap Token.variable?)

namespace Passes

variable {ls ls' ts ts₁ ts' : List Token} {nums nums' : List Numeral}
  {ns ns₁ ns' ids : Names}

theorem refl (ts : List Token) (ns : Names) : Passes [] [] ts ns ts ns :=
  ⟨rfl, rfl, rfl⟩

theorem trans (h : Passes ls nums ts ns ts₁ ns₁)
    (h' : Passes ls' nums' ts₁ ns₁ ts' ns') :
    Passes (ls ++ ls') (nums ++ nums') ts ns ts' ns' := by
  refine ⟨?_, ?_, ?_⟩
  · rw [h.leaves, h'.leaves, List.append_assoc]
  · rw [h.numerals, h'.numerals, List.append_assoc]
  · rw [h'.names, h.names, List.filterMap_append, Names.askAll_append]

theorem after (h : Passes ls nums ts ns ts' ns') (us : List Token)
    (hus : Plain us) : Passes ls nums (us ++ ts) ns ts' ns' := by
  refine ⟨?_, ?_, h.names⟩
  · rw [List.filter_append, hus.1, h.leaves]
    rfl
  · rw [hus.2, h.numerals]

theorem before (us : List Token) (hus : Plain us)
    (h : Passes ls nums ts ns (us ++ ts') ns') :
    Passes ls nums ts ns ts' ns' := by
  refine ⟨?_, ?_, h.names⟩
  · rw [h.leaves, List.filter_append, hus.1]
    rfl
  · rw [h.numerals, hus.2]

theorem later (h : Passes ls nums ts ns ts' ns') (hids : ns'.Later ids) :
    ns.Later ids := by
  rw [h.names] at hids
  exact hids.askAll

end Passes

/-! ## Phrases that were read -/

open Reader

theorem exists_identifier (scope : Scope) (word : String) :
    ∃ p : Phrase, p.leaves = [] ∧ p.numerals = []
      ∧ ∀ ns, identifier scope word = p.read ns scope := by
  unfold identifier
  split
  · exact ⟨.sort .prop, rfl, rfl, fun _ => rfl⟩
  · split
    · exact ⟨.sort .type, rfl, rfl, fun _ => rfl⟩
    · exact ⟨.ident word, rfl, rfl, fun _ => rfl⟩

/-- The term is what is read from a phrase between the two states. -/
def ReadTerm (t : Term) (s s' : State) : Prop :=
  ∃ p : Phrase, Passes p.leaves p.numerals s.tokens s.names s'.tokens s'.names
    ∧ ∀ ids, s'.names.Later ids → t = p.read ids s.stack

/-- What is known of an item that was read. Binders are a telescope with any
body, and a group has names and a type. -/
def ReadItem (s s' : State) : Item → Prop
  | .term t | .application t | .atom t => ReadTerm t s s'
  | .arguments f t =>
    ∃ ps : List Phrase,
      Passes (leavesArgs ps) (numeralsArgs ps) s.tokens s.names s'.tokens
        s'.names
      ∧ ∀ ids, s'.names.Later ids → t = f.mkApp (readArgs ids s.stack ps)
  | .type d =>
    ∃ type : Option Phrase,
      Passes (leavesType type) (numeralsType type) s.tokens s.names s'.tokens
        s'.names
      ∧ ∀ ids, s'.names.Later ids → d = readType ids s.stack type
  | .binders q bs =>
    ∃ ls nums, Passes ls nums s.tokens s.names s'.tokens s'.names
      ∧ ∀ b : Phrase, ∃ inside : Telescope, inside.leaves q = ls ++ b.leaves
        ∧ inside.numerals = nums ++ b.numerals
        ∧ ∀ ids, s'.names.Later ids → inside.read ids q s.stack
          = q.binds bs (b.read ids (Binder.enter bs s.stack))
  | .group info bs =>
    ∃ names type,
      Passes (leavesType type) (numeralsType type) s.tokens s.names s'.tokens
        s'.names
      ∧ ∀ ids, s'.names.Later ids →
        bs = Binder.group info (readType ids s.stack type) names

theorem readTerm_var (v : Variable) (σ : Scope) (ts : List Token) (ns : Names) :
    ReadTerm (ns.translate v) ⟨σ, v.token :: ts, ns⟩ ⟨σ, ts, ns.ask v⟩ := by
  refine ⟨.var v, ?_, fun ids hids => (Names.translate_later hids).symm⟩
  obtain ⟨_ | _, name⟩ := v
  · exact ⟨rfl, rfl, rfl⟩
  · exact ⟨rfl, rfl, rfl⟩

theorem Reads.readItem {i : Item} {s s' : State} (h : Reads i s s') :
    ReadItem s s' i := by
  induction h with
  | alone _ _ ih => exact ih
  | @arrow left right s s' σ ts ns hleft hright ihleft ihright =>
      obtain rfl : σ = s.stack := hleft.restores
      obtain ⟨p, hp, hpread⟩ := ihleft
      obtain ⟨p', hp', hpread'⟩ := ihright
      have hright := hp'.after [.arrow] ⟨rfl, fun _ => rfl⟩
      refine ⟨.arrow p p', ?_, fun ids hids => ?_⟩
      · rw [leaves_arrow]
        exact hp.trans hright
      · rw [hpread ids (hright.later hids), hpread' ids hids]
        rfl
  | @application f t s s₁ s' hf hargs ihf ihargs =>
      have hstack : s₁.stack = s.stack := hf.restores
      obtain ⟨p, hp, hpread⟩ := ihf
      obtain ⟨ps, hps, hpsread⟩ := ihargs
      refine ⟨.app p ps, ?_, fun ids hids => ?_⟩
      · rw [leaves_app]
        exact hp.trans hps
      · rw [hpsread ids hids, hpread ids (hps.later hids), hstack]
        rfl
  | done _ => exact ⟨[], .refl _ _, fun _ _ => rfl⟩
  | @argument f a t s s₁ s' ha hmore iha ihmore =>
      have hstack : s₁.stack = s.stack := ha.restores
      obtain ⟨p, hp, hpread⟩ := iha
      obtain ⟨ps, hps, hpsread⟩ := ihmore
      refine ⟨p :: ps, ?_, fun ids hids => ?_⟩
      · rw [leavesArgs_cons]
        exact hp.trans hps
      · rw [hpsread ids hids, hpread ids (hps.later hids), hstack]
        rfl
  | paren _ ih =>
      obtain ⟨p, hp, hpread⟩ := ih
      have hinside := hp.before [.rparen] ⟨rfl, fun _ => rfl⟩
      exact ⟨p, hinside.after [.lparen] ⟨rfl, fun _ => rfl⟩, hpread⟩
  | var v σ ts ns => exact readTerm_var v σ ts ns
  | index i => exact ⟨.index i, ⟨rfl, rfl, rfl⟩, fun _ _ => rfl⟩
  | nat n => exact ⟨.nat n, ⟨rfl, rfl, rfl⟩, fun _ _ => rfl⟩
  | str x => exact ⟨.str x, ⟨rfl, rfl, rfl⟩, fun _ _ => rfl⟩
  | @ident word hword σ ts ns =>
      obtain ⟨p, hleaves, hnumerals, hread⟩ := exists_identifier σ word
      refine ⟨p, ?_, fun ids _ => hread ids⟩
      rw [hleaves, hnumerals]
      exact (Passes.refl ts ns).after _ (plain_ident hword)
  | @quantified q bs body σ ts ns s₁ s' hbs hbody ihbs ihbody =>
      have hstack : s₁.stack = Binder.enter bs σ := hbs.restores
      obtain ⟨ls, nums, hls, hinside⟩ := ihbs
      obtain ⟨b, hb, hbread⟩ := ihbody
      obtain ⟨inside, hleaves, hnumerals, hread⟩ := hinside b
      refine ⟨.quantified q inside, ?_, fun ids hids => ?_⟩
      · rw [leaves_quantified, hleaves, Phrase.numerals, hnumerals]
        exact (hls.trans hb).after _ (plain_keyword q)
      · rw [hbread ids hids, hstack]
        exact (hread ids (hb.later hids)).symm
  | @letE x type value body σ σ₁ σ₂ ts ts₁ ts₂ ns ns₁ ns₂ s' hx htype hvalue
      hbody ihtype ihvalue ihbody =>
      obtain rfl : σ₁ = σ := htype.restores
      obtain rfl : σ₂ = σ₁ := hvalue.restores
      obtain ⟨d, hd, hdread⟩ := ihtype
      obtain ⟨p, hp, hpread⟩ := ihvalue
      obtain ⟨p', hp', hpread'⟩ := ihbody
      have hvalue := hp.after [.assign] ⟨rfl, fun _ => rfl⟩
      have hbody := hp'.after [.semi] ⟨rfl, fun _ => rfl⟩
      have hinside := hd.trans (hvalue.trans hbody)
      have hname := hinside.after _ (plain_ident hx)
      refine ⟨.letE x d p p', ?_, fun ids hids => ?_⟩
      · rw [leaves_letE]
        exact hname.after [.ident "let"] ⟨rfl, fun _ => rfl⟩
      · rw [hpread' ids hids, hpread ids (hbody.later hids),
          hdread ids ((hvalue.trans hbody).later hids)]
        rfl
  | @proj struct i value σ ts ns s' hstruct hvalue ih =>
      obtain ⟨p, hp, hpread⟩ := ih
      refine ⟨.proj struct i p, ?_, fun ids hids => ?_⟩
      · rw [leaves_proj]
        refine ⟨?_, ?_, hp.names⟩
        · exact congrArg (Token.nat i :: ·) hp.leaves
        · exact congrArg (Numeral.field i :: ·) hp.numerals
      · rw [hpread ids hids]
        rfl
  | written _ ih =>
      obtain ⟨p, hp, hpread⟩ := ih
      refine ⟨some p, ?_, hpread⟩
      rw [leavesType_some]
      exact hp.after [.colon] ⟨rfl, fun _ => rfl⟩
  | omitted _ => exact ⟨none, .refl _ _, fun _ _ => rfl⟩
  | separator q σ ts ns =>
      exact ⟨[], [], (Passes.refl ts ns).after _ (plain_separator q),
        fun b => ⟨.body b, leaves_body b q, rfl, fun _ _ => rfl⟩⟩
  | @bare q x more σ ts ns s' hx hmore ih =>
      obtain ⟨ls, nums, hls, hinside⟩ := ih
      refine ⟨ls, nums, hls.after _ (plain_ident hx),
        fun b => ?_⟩
      obtain ⟨inner, hleaves, hnumerals, hread⟩ := hinside b
      refine ⟨.bare x inner, (leaves_bare q inner x).trans hleaves, hnumerals,
        fun ids hids => ?_⟩
      rw [Telescope.read, hread ids hids]
      rfl
  | @grouped q info bs more σ σ₁ ts ts₁ ns ns₁ s' hgroup hmore ihgroup ihmore =>
      obtain rfl : σ₁ = Binder.enter bs σ := hgroup.restores
      obtain ⟨names, type, hd, hbs⟩ := ihgroup
      obtain ⟨ls, nums, hls, hinside⟩ := ihmore
      have hgroup := (hd.before _ (plain_closeTokens info)).after _
        (plain_openTokens info)
      refine ⟨_, _, hgroup.trans hls, fun b => ?_⟩
      obtain ⟨inner, hleaves, hnumerals, hread⟩ := hinside b
      refine ⟨.group info names type inner, ?_, ?_, fun ids hids => ?_⟩
      · rw [leaves_group, hleaves, List.append_assoc]
      · rw [Telescope.numerals, hnumerals, List.append_assoc]
      · obtain rfl := hbs ids (hls.later hids)
        rw [Telescope.read, Quantifier.binds_append, Quantifier.binds_group,
          enter_append, ← hread ids hids, enter_group]
  | @group info words d σ σ' ts ts' ns ns' hne hwords hinst htype ih =>
      obtain ⟨type, hd, hdread⟩ := ih
      refine ⟨words, type, ?_, fun ids hids => ?_⟩
      · exact (hd.before [_] (plain_closing info)).after _
          (plain_idents hwords)
      · rw [hdread ids hids]
  | @anonymous f as hwords σ ts ns =>
      refine ⟨["inst"], some (.app (.ident f) (as.map .ident)), ?_,
        fun ids _ => ?_⟩
      · rw [leavesType_some, leaves_app, leavesArgs_idents, numeralsType,
          Phrase.numerals, numeralsArgs_idents]
        have hclose := (Passes.refl ts ns).after [.rbracket] ⟨rfl, fun _ => rfl⟩
        exact hclose.after _ (plain_idents hwords)
      · rw [readType, Phrase.read, readArgs_idents]
        rfl

/-- **A term that is read was read from a phrase** that has the leaves of the
text, and its numerals in their places. The names known afterwards are those from
before and the variables among the leaves, and what the variables stand for can be
looked up there. -/
theorem parse_ok {ns : Names} {text : String} {t : Term}
    (h : (parse ns text).1 = .ok t) :
    ∃ (ls : List Lexeme) (p : Phrase), scan text = .ok ls
      ∧ p.leaves = (ls.map Lexeme.token).filter Token.isLeaf
      ∧ p.numerals = numerals (ls.map Lexeme.token)
      ∧ (parse ns text).2 = ns.askAll (p.leaves.filterMap Token.variable?)
      ∧ t = p.read (parse ns text).2 [] := by
  have hparse : parse ns text = (.ok t, (parse ns text).2) := Prod.ext h rfl
  obtain ⟨ls, hscan, hreads⟩ := parseUnder_eq_ok_iff.mp hparse
  obtain ⟨p, hp, hread⟩ := hreads.readItem
  refine ⟨ls, p, hscan, ?_, ?_, hp.names, hread _ (.refl _)⟩
  · simpa using hp.leaves.symm
  · simpa [numerals] using hp.numerals.symm

end TermIndex.Surface
