import TermIndex.Text.Alphabetic
import TermIndex.Text.Blank
import TermIndex.Text.Numeric
import TermIndex.Surface.Numeral
import TermIndex.Surface.Token

/-!
# Reading tokens

`scan` cuts a text into tokens. `read` reads one token from a text that does not begin
with a blank, and says how many bytes it took and what is left; `read_shrinks` is the
fact that at least one character was taken, on which `scanFrom` recurses.
-/

namespace TermIndex.Surface

/-! ## Words -/

/-- Whether an identifier can begin with this character. -/
def isWordStart (c : Char) : Bool := CharClass.alphabetic.contains c || c == '_'

/-- Whether a word that has begun goes on with this character. -/
def isWordChar (c : Char) : Bool :=
  CharClass.alphabetic.contains c || CharClass.numeric.contains c || c == '_' || c == '.'
    || c == '\''

def width : List Char → Nat
  | [] => 0
  | c :: s => c.utf8Size + width s

/-- The tokens that are a single character whatever follows it. -/
def mark? (c : Char) : Option Token :=
  match c with
  | '(' => some .lparen
  | ')' => some .rparen
  | '{' => some .lbrace
  | '}' => some .rbrace
  | '[' => some .lbracket
  | ']' => some .rbracket
  | ';' => some .semi
  | ',' => some .comma
  | '→' => some .arrow
  | 'λ' => some (.ident "fun")
  | '∀' => some (.ident "forall")
  | _ => none

/-! ## One token -/

/-- A token that was read, the number of bytes it took, and the text after it. -/
structure Read where
  token : Token
  width : Nat
  rest : List Char

/-- A word of any length, made into a token by `make?`. The character or word `front`
before it was taken already. -/
def readWord (front s : List Char) (make? : List Char → Except Reason Token) :
    Except Reason Read := do
  let word := front ++ s.takeWhile isWordChar
  return ⟨← make? word, width word, s.dropWhile isWordChar⟩

def readVariable (make : String → Token) (s : List Char) : Except Reason Read := do
  let r ← readWord [] s fun word =>
    if word.isEmpty then .error .missingVariableName else .ok (make (String.ofList word))
  return { r with width := r.width + 1 }

def readIndex (s : List Char) : Except Reason Read := do
  let r ← readWord [] s fun word =>
    match numeral? maxId word with
    | some i => .ok (.bvar i)
    | none => .error .missingIndex
  return { r with width := r.width + 1 }

def readNumber (c : Char) (s : List Char) : Except Reason Read :=
  readWord [c] s fun word =>
    match numeral? maxLiteral word with
    | some n => .ok (.nat n)
    | none => .error (.badNumber (String.ofList word))

/-- An identifier or keyword whose first character is `c`. -/
def readIdent (c : Char) (s : List Char) : Except Reason Read :=
  readWord [c] s fun word => .ok (.ident (String.ofList word))

/-- A string up to the next double quote. There are no escapes. -/
def readString (s : List Char) : Except Reason Read :=
  let body := s.takeWhile (· ≠ '"')
  match s.dropWhile (· ≠ '"') with
  | _ :: rest => .ok ⟨.str (String.ofList body), width body + 2, rest⟩
  | [] => .error .openString

/-- The second character of the mark `=>` or `->`. -/
def readTip (token : Token) (broken : Reason) : List Char → Except Reason Read
  | '>' :: rest => .ok ⟨token, 2, rest⟩
  | _ => .error broken

/-- A colon, or the mark `:=`. -/
def readColon : List Char → Read
  | '=' :: rest => ⟨.assign, 2, rest⟩
  | s => ⟨.colon, 1, s⟩

/-- The token that begins with the character `c`, which is no blank, and goes on in
`s`. -/
def read (c : Char) (s : List Char) : Except Reason Read :=
  match mark? c with
  | some token => .ok ⟨token, c.utf8Size, s⟩
  | none =>
    if c = ':' then .ok (readColon s)
    else if c = '=' then readTip .fatArrow .brokenFatArrow s
    else if c = '-' then readTip .arrow .brokenArrow s
    else if c = '?' then readVariable .mvar s
    else if c = '$' then readVariable .fvar s
    else if c = '#' then readIndex s
    else if c = '"' then readString s
    else if c.isDigit then readNumber c s
    else if isWordStart c then readIdent c s
    else .error (.badCharacter c)

/-! ## Progress -/

theorem readWord_rest {front s : List Char} {make? : List Char → Except Reason Token}
    {r : Read} (h : readWord front s make? = .ok r) : r.rest = s.dropWhile isWordChar := by
  unfold readWord at h
  cases hm : make? (front ++ s.takeWhile isWordChar) with
  | error e => simp [hm, bind, Except.bind] at h
  | ok t =>
    simp only [hm, bind, Except.bind, pure, Except.pure, Except.ok.injEq] at h
    rw [← h]

theorem readWord_shrinks {front s : List Char} {make? : List Char → Except Reason Token}
    {r : Read} (h : readWord front s make? = .ok r) : r.rest.length ≤ s.length := by
  rw [readWord_rest h]
  exact (List.dropWhile_suffix _).length_le

theorem readVariable_shrinks {make : String → Token} {s : List Char} {r : Read}
    (h : readVariable make s = .ok r) : r.rest.length ≤ s.length := by
  unfold readVariable at h
  generalize hw : readWord [] s _ = w at h
  cases w with
  | error e => simp [bind, Except.bind] at h
  | ok r' =>
    simp only [bind, Except.bind, pure, Except.pure, Except.ok.injEq] at h
    have := readWord_shrinks hw
    simpa [← h] using this

theorem readIndex_shrinks {s : List Char} {r : Read} (h : readIndex s = .ok r) :
    r.rest.length ≤ s.length := by
  unfold readIndex at h
  generalize hw : readWord [] s _ = w at h
  cases w with
  | error e => simp [bind, Except.bind] at h
  | ok r' =>
    simp only [bind, Except.bind, pure, Except.pure, Except.ok.injEq] at h
    have := readWord_shrinks hw
    simpa [← h] using this

theorem readString_shrinks {s : List Char} {r : Read} (h : readString s = .ok r) :
    r.rest.length ≤ s.length := by
  have shorter := (List.dropWhile_suffix (l := s) fun x => decide (x ≠ '"')).length_le
  unfold readString at h
  split at h
  · next rest hs =>
    simp only [Except.ok.injEq] at h
    simp only [hs, List.length_cons] at shorter
    simp only [← h]
    omega
  · simp at h

theorem readTip_shrinks {token : Token} {broken : Reason} {s : List Char} {r : Read}
    (h : readTip token broken s = .ok r) : r.rest.length ≤ s.length := by
  unfold readTip at h
  split at h
  · simp only [Except.ok.injEq] at h
    simp [← h]
  · simp at h

theorem readColon_shrinks (s : List Char) : (readColon s).rest.length ≤ s.length := by
  unfold readColon
  split <;> simp

/-- Reading a token takes at least its first character. -/
theorem read_shrinks {c : Char} {s : List Char} {r : Read} (h : read c s = .ok r) :
    r.rest.length ≤ s.length := by
  unfold read at h
  split at h
  · simp only [Except.ok.injEq] at h
    simp [← h]
  · split at h
    · simp only [Except.ok.injEq] at h
      simp [← h, readColon_shrinks]
    split at h
    · exact readTip_shrinks h
    split at h
    · exact readTip_shrinks h
    split at h
    · exact readVariable_shrinks h
    split at h
    · exact readVariable_shrinks h
    split at h
    · exact readIndex_shrinks h
    split at h
    · exact readString_shrinks h
    split at h
    · exact readWord_shrinks h
    split at h
    · exact readWord_shrinks h
    · simp at h

/-! ## All tokens -/

/-- The tokens of a text that starts at byte `pos`. -/
def scanFrom (pos : Nat) : List Char → Except SyntaxError (List Lexeme)
  | [] => .ok []
  | c :: s =>
    if CharClass.blank.contains c then scanFrom (pos + c.utf8Size) s
    else match _taken : read c s with
      | .error reason => .error ⟨pos, reason⟩
      | .ok r => do
        let rest ← scanFrom (pos + r.width) r.rest
        return ⟨pos, r.token⟩ :: rest
termination_by s => s.length
decreasing_by
  · simp
  · have := read_shrinks _taken
    simp only [List.length_cons]
    omega

def scan (text : String) : Except SyntaxError (List Lexeme) := scanFrom 0 text.toList

end TermIndex.Surface
