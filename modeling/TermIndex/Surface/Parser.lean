import TermIndex.Term.Loose
import TermIndex.Surface.Lexer
import TermIndex.Surface.Names

/-!
# Reading terms

    f a b                 application
    ?m  $x  #0            metavariable, free variable, explicit de Bruijn index
    42  "str"             literals
    Prop  Type  Sort      sorts
    fun (x : T) => b      lambda; also {x : T}, [inst : C], {{x : T}}, and λ
    forall (x : T), b     dependent arrow; also ∀
    A -> B                non-dependent arrow; also →
    let x : T := v; b     let binding
    proj S i e            projection of field i of structure S

Names of enclosing binders become de Bruijn indices; every other identifier is a
constant. A domain that is left out is a sort.

The readers below take a number of calls they may nest. `parse` gives them enough:
between two tokens at most three readers enter one another, so four calls for each
token, and four more, are never used up.
-/

namespace TermIndex.Surface

/-! ## Reader state -/

/-- The tokens that are left, the length of the text in bytes, and the variable names
met so far. -/
structure Cursor where
  rest : List Lexeme
  stop : Nat
  names : Names

/-- A reader moves the cursor and gives a result or an error. The names that it met
before an error stay known. -/
abbrev Reader := ExceptT SyntaxError (StateM Cursor)

def Cursor.pos (c : Cursor) : Nat :=
  match c.rest with
  | l :: _ => l.pos
  | [] => c.stop

namespace Reader

def position : Reader Nat := return (← get).pos

def failAt {α : Type} (pos : Nat) (reason : Reason) : Reader α := throw ⟨pos, reason⟩

def peek? : Reader (Option Token) := return (← get).rest.head?.map Lexeme.token

def next : Reader Token := do
  let c ← get
  match c.rest with
  | l :: rest => do
    set { c with rest }
    return l.token
  | [] => failAt c.stop .ended

def eat (token : Token) : Reader Bool := do
  if (← peek?) = some token then
    let _ ← next
    return true
  return false

/-- Takes the next token, which must be this one. -/
def expect (token : Token) : Reader Unit := do
  unless ← eat token do
    failAt (← position) (.missing token)

/-- Takes an identifier that is no keyword. -/
def name : Reader String := do
  let pos ← position
  match ← next with
  | .ident word =>
    if isKeyword word then failAt pos (.missingName (.ident word)) else return word
  | found => failAt pos (.missingName found)

/-- The identifiers at the front, up to the first keyword or other token, and what
follows them. -/
def leadingNames : List Lexeme → List String × List Lexeme
  | ⟨pos, .ident word⟩ :: rest =>
    if isKeyword word then ([], ⟨pos, .ident word⟩ :: rest)
    else
      let (words, rest) := leadingNames rest
      (word :: words, rest)
  | rest => ([], rest)

def names : Reader (List String) := do
  let c ← get
  let (words, rest) := leadingNames c.rest
  set { c with rest }
  return words

def atAtom : Reader Bool := return ((← peek?).map Token.startsAtom).getD false

def mvar (name : String) : Reader Term := do
  let c ← get
  let (m, names) := c.names.mvar name
  set { c with names }
  return .mvar m

def fvar (name : String) : Reader Term := do
  let c ← get
  let (x, names) := c.names.fvar name
  set { c with names }
  return .fvar x

end Reader

/-! ## Scopes and binders -/

/-- The names of the enclosing binders, innermost first. The binder of an arrow has
no name. -/
abbrev Scope := List (Option String)

namespace Scope

/-- The innermost binder called `word`, or else the constant of that name. -/
def resolve (scope : Scope) (word : String) : Term :=
  match scope.idxOf? (some word) with
  | some i => .bvar i
  | none => .const ⟨word⟩

end Scope

structure Binder where
  name : String
  info : BinderInfo
  domain : Term

namespace Binder

/-- The binders of one group: each has the domain of the group, moved under the names
before it. -/
def group (info : BinderInfo) (domain : Term) (names : List String) : List Binder :=
  names.mapIdx fun k name => ⟨name, info, domain.raise 0 k⟩

/-- The scope inside a telescope, given the scope outside it. -/
def enter (bs : List Binder) (scope : Scope) : Scope :=
  bs.foldl (fun s b => some b.name :: s) scope

def lams (bs : List Binder) (body : Term) : Term :=
  bs.foldr (fun b t => .lam ⟨b.name⟩ b.info b.domain t) body

def pis (bs : List Binder) (body : Term) : Term :=
  bs.foldr (fun b t => .pi ⟨b.name⟩ b.info b.domain t) body

end Binder

/-! ## Grammar -/

namespace Reader

/-- An identifier on its own: a sort, a bound variable or a constant. -/
def identifier (scope : Scope) (word : String) : Term :=
  if word = "Prop" then .sort 0
  else if word = "Type" ∨ word = "Sort" then .sort 1
  else scope.resolve word

mutual

/-- A term, in which an arrow may follow an application. -/
def term (fuel : Nat) (scope : Scope) : Reader Term :=
  match fuel with
  | 0 => do failAt (← get).stop .ended
  | fuel + 1 => do
    let left ← application fuel scope
    if ← eat .arrow then
      let right ← term fuel (none :: scope)
      return .pi "a" .default left right
    return left

def application (fuel : Nat) (scope : Scope) : Reader Term :=
  match fuel with
  | 0 => do failAt (← get).stop .ended
  | fuel + 1 => do
    unless ← atAtom do
      failAt (← position) .missingTerm
    let f ← atom fuel scope
    arguments fuel scope f

def arguments (fuel : Nat) (scope : Scope) (f : Term) : Reader Term :=
  match fuel with
  | 0 => do failAt (← get).stop .ended
  | fuel + 1 => do
    if ← atAtom then
      let a ← atom fuel scope
      arguments fuel scope (.app f a)
    else
      return f

/-- A term in parentheses, a variable, a literal, an identifier, or a construct opened
by a keyword. -/
def atom (fuel : Nat) (scope : Scope) : Reader Term :=
  match fuel with
  | 0 => do failAt (← get).stop .ended
  | fuel + 1 => do
    let pos ← position
    match ← next with
    | .lparen => do
      let t ← term fuel scope
      expect .rparen
      return t
    | .mvar name => mvar name
    | .fvar name => fvar name
    | .bvar i => return .bvar i
    | .nat n => return .lit (.nat n)
    | .str s => return .lit (.str s)
    | .ident "fun" => do
      let bs ← binders fuel scope .fatArrow
      let body ← term fuel (Binder.enter bs scope)
      return Binder.lams bs body
    | .ident "forall" => do
      let bs ← binders fuel scope .comma
      let body ← term fuel (Binder.enter bs scope)
      return Binder.pis bs body
    | .ident "let" => do
      let n ← name
      let type ← if ← eat .colon then term fuel scope else pure (.sort 1)
      expect .assign
      let value ← term fuel scope
      expect .semi
      let body ← term fuel (some n :: scope)
      return .letE ⟨n⟩ type value body
    | .ident "proj" => do
      let struct ← name
      let fieldPos ← position
      match ← next with
      | .nat n => do
        let value ← atom fuel scope
        return .proj ⟨struct⟩ (n % (maxId + 1)) value
      | _ => failAt fieldPos .missingField
    | .ident word => return identifier scope word
    | found => failAt pos (.unexpected found)

/-- The binders up to and including `separator`. -/
def binders (fuel : Nat) (scope : Scope) (separator : Token) : Reader (List Binder) :=
  match fuel with
  | 0 => do failAt (← get).stop .ended
  | fuel + 1 => do
    if ← eat separator then
      return []
    let pos ← position
    let bs ← match ← next with
      | .ident word =>
        if isKeyword word then failAt pos (.unexpectedInBinder (.ident word))
        else pure [⟨word, .default, .sort 1⟩]
      | .lparen => group fuel scope .default .rparen
      | .lbrace => do
        if ← eat .lbrace then
          let bs ← group fuel scope .strict .rbrace
          expect .rbrace
          pure bs
        else group fuel scope .implicit .rbrace
      | .lbracket => group fuel scope .inst .rbracket
      | found => failAt pos (.unexpectedInBinder found)
    let more ← binders fuel (Binder.enter bs scope) separator
    return bs ++ more

/-- The names of a group and their domain, up to and including the closing token. An
instance binder may give its domain alone, as words. -/
def group (fuel : Nat) (scope : Scope) (info : BinderInfo) (close : Token) :
    Reader (List Binder) :=
  match fuel with
  | 0 => do failAt (← get).stop .ended
  | fuel + 1 => do
    let words ← names
    let (domain, bound) ←
      if ← eat .colon then do
        let domain ← term fuel scope
        pure (domain, words)
      else if info = .inst then
        match words with
        | [] => do failAt (← position) .emptyInstance
        | f :: as => pure ((scope.resolve f).mkApp (as.map scope.resolve), ["inst"])
      else pure (.sort 1, words)
    expect close
    if bound.isEmpty then
      failAt (← position) .namelessBinder
    return Binder.group info domain bound

end

def whole (fuel : Nat) : Reader Term := do
  let t ← term fuel []
  if (← peek?).isSome then
    failAt (← position) .trailing
  return t

end Reader

/-- The term written in `text`, and the variable names known afterwards. -/
def parse (names : Names) (text : String) : Except SyntaxError Term × Names :=
  match scan text with
  | .error e => (.error e, names)
  | .ok lexemes =>
    let start : Cursor := ⟨lexemes, text.utf8ByteSize, names⟩
    let (result, c) := ((Reader.whole (4 * (lexemes.length + 1))).run).run start
    (result, c.names)

end TermIndex.Surface
