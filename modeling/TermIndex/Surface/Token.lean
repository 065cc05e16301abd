import TermIndex.Text.Quoted

/-!
# Tokens of the surface syntax

The words and marks that the text of a term is made of, and the reasons for which a
text can be refused.
-/

namespace TermIndex.Surface

inductive Token where
  | lparen
  | rparen
  | lbrace
  | rbrace
  | lbracket
  | rbracket
  | colon
  | assign
  | semi
  | comma
  | fatArrow
  | arrow
  | mvar (name : String)
  | fvar (name : String)
  | bvar (index : Nat)
  | nat (n : Nat)
  | str (s : String)
  | ident (word : String)
deriving DecidableEq

/-- A token with the byte offset at which it starts. -/
structure Lexeme where
  pos : Nat
  token : Token
deriving DecidableEq

namespace Token

def describe : Token → String
  | .lparen => "LParen"
  | .rparen => "RParen"
  | .lbrace => "LBrace"
  | .rbrace => "RBrace"
  | .lbracket => "LBracket"
  | .rbracket => "RBracket"
  | .colon => "Colon"
  | .assign => "Assign"
  | .semi => "Semi"
  | .comma => "Comma"
  | .fatArrow => "FatArrow"
  | .arrow => "Arrow"
  | .mvar name => "MVar(" ++ Quoted.quote name ++ ")"
  | .fvar name => "FVar(" ++ Quoted.quote name ++ ")"
  | .bvar i => "BVar(" ++ toString i ++ ")"
  | .nat n => "Nat(" ++ toString n ++ ")"
  | .str s => "Str(" ++ Quoted.quote s ++ ")"
  | .ident word => "Ident(" ++ Quoted.quote word ++ ")"

/-- Whether a term can begin with this token. -/
def startsAtom : Token → Bool
  | .lparen | .mvar _ | .fvar _ | .bvar _ | .nat _ | .str _ | .ident _ => true
  | _ => false

end Token

/-- The words that open a construct of their own and cannot name anything. -/
def isKeyword (word : String) : Bool :=
  word == "fun" || word == "forall" || word == "let" || word == "proj"

/-! ## Errors -/

inductive Reason where
  | brokenFatArrow
  | brokenArrow
  | missingVariableName
  | missingIndex
  | openString
  | badNumber (word : String)
  | badCharacter (c : Char)
  | trailing
  | ended
  | missing (token : Token)
  | missingName (found : Token)
  | missingTerm
  | missingField
  | unexpected (found : Token)
  | unexpectedInBinder (found : Token)
  | emptyInstance
  | namelessBinder
  /-- A reason in the caller's own words. -/
  | stated (text : String)
deriving DecidableEq

namespace Reason

def message : Reason → String
  | .brokenFatArrow => "expected '=>'"
  | .brokenArrow => "expected '->'"
  | .missingVariableName => "expected a variable name"
  | .missingIndex => "expected a de Bruijn index"
  | .openString => "unterminated string"
  | .badNumber word => "bad number '" ++ word ++ "'"
  | .badCharacter c => "unexpected character '" ++ c.toString ++ "'"
  | .trailing => "unexpected trailing input"
  | .ended => "unexpected end of input"
  | .missing token => "expected " ++ token.describe
  | .missingName found => "expected a name, got " ++ found.describe
  | .missingTerm => "expected an expression"
  | .missingField => "expected a field index"
  | .unexpected found => "unexpected " ++ found.describe
  | .unexpectedInBinder found => "unexpected " ++ found.describe ++ " in binder"
  | .emptyInstance => "empty instance binder"
  | .namelessBinder => "binder without a name"
  | .stated text => text

end Reason

/-- A refusal, with the byte offset at which it was found. -/
structure SyntaxError where
  pos : Nat
  reason : Reason
deriving DecidableEq

namespace SyntaxError

def message (e : SyntaxError) : String :=
  "parse error at " ++ toString e.pos ++ ": " ++ e.reason.message

end SyntaxError

end TermIndex.Surface
