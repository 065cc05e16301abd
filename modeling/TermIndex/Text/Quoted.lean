import TermIndex.Text.Extender
import TermIndex.Text.Unprintable

/-!
# Quoted text

A text in double quotes, in which the quote, the backslash and the common control
characters are written with a backslash, and every other character that could not
be read back from the page - an unprintable one, or one drawn onto its neighbour -
as its code point in braces. A single quote stands for itself.
-/

namespace TermIndex.Quoted

/-- The hexadecimal digits of `n`, in lower case and without leading zeros. -/
def hexDigits (n : Nat) : List Char := Nat.toDigits 16 n

/-- How one character is written between the quotes. -/
def escape (c : Char) : List Char :=
  match c with
  | '"' => ['\\', '"']
  | '\\' => ['\\', '\\']
  | '\n' => ['\\', 'n']
  | '\r' => ['\\', 'r']
  | '\t' => ['\\', 't']
  | '\x00' => ['\\', '0']
  | c =>
    if CharClass.extender.contains c || CharClass.unprintable.contains c then
      ['\\', 'u', '\x7b'] ++ hexDigits c.toNat ++ ['\x7d']
    else [c]

/-- The text with every character escaped, in double quotes. -/
def quote (s : String) : String :=
  String.ofList (['"'] ++ s.toList.flatMap escape ++ ['"'])

/-- A list of texts, each quoted, in square brackets. -/
def quoteList (texts : List String) : String :=
  "[" ++ ", ".intercalate (texts.map quote) ++ "]"

end TermIndex.Quoted
