import TermIndex.Proofs.Scanning

/-!
# Spelling tokens

`Leads s ts s'` says that a text is read as these tokens, up to a place where
`s'` is left, and `Spells text ts` says so of a whole text. There is one lemma
for each kind of token, about a text that begins with its spelling, so that the
tokens of a text are found from the left as the text is put together.

A word goes on as long as it can. So what follows a word, a numeral or a
variable must not go on with it (`Ends`); all other tokens end by themselves. A
word is an identifier unless it begins with a digit or with the sign that is
read as `fun` (`IsWord`).
-/

namespace TermIndex

/-! ## Classes of characters -/

namespace CharClass

theorem exists_of_covers {n : Nat} : ∀ {ranges : List (Nat × Nat)},
    covers n ranges = true → ∃ r ∈ ranges, r.1 ≤ n ∧ n ≤ r.2
  | [], h => by cases h
  | (first, last) :: rest, h => by
      rw [covers] at h
      split at h
      · cases h
      split at h
      · exact ⟨_, List.mem_cons_self .., by omega, by omega⟩
      · obtain ⟨r, hr, hn⟩ := exists_of_covers h
        exact ⟨r, List.mem_cons_of_mem _ hr, hn⟩

/-- No letter is blank. There are few blank characters, and each is looked up
among the letters. -/
theorem not_blank_of_alphabetic {c : Char}
    (h : alphabetic.contains c = true) : blank.contains c = false := by
  have hblank : ∀ r ∈ blank.ranges, ∀ i < r.2 - r.1 + 1,
      covers (r.1 + i) alphabetic.ranges = false := by decide +kernel
  refine Bool.eq_false_iff.mpr fun hc => ?_
  obtain ⟨r, hr, hfirst, hlast⟩ := exists_of_covers hc
  have hcover := hblank r hr (c.toNat - r.1) (by omega)
  rw [Nat.add_sub_cancel' hfirst] at hcover
  rw [contains, hcover] at h
  cases h

end CharClass

namespace Surface

theorem not_blank_of_isWordStart {c : Char} (h : isWordStart c = true) :
    CharClass.blank.contains c = false := by
  rcases Bool.or_eq_true_iff.mp h with hc | hc
  · exact CharClass.not_blank_of_alphabetic hc
  · obtain rfl := beq_iff_eq.mp hc
    decide

/-- A digit is one of ten characters. -/
theorem exists_of_isDigit {c : Char} (h : c.isDigit = true) :
    ∃ i < 10, c = Char.ofNat (48 + i) := by
  have hrange : 48 ≤ c.toNat ∧ c.toNat ≤ 57 := by
    simpa [Char.isDigit, UInt32.le_iff_toNat_le] using h
  refine ⟨c.toNat - 48, by omega, ?_⟩
  rw [Nat.add_sub_cancel' hrange.1, Char.ofNat_toNat]

theorem isWordChar_of_isDigit {c : Char} (h : c.isDigit = true) :
    isWordChar c = true := by
  have hdigits : ∀ i < 10, isWordChar (Char.ofNat (48 + i)) = true := by
    decide +kernel
  obtain ⟨i, hi, rfl⟩ := exists_of_isDigit h
  exact hdigits i hi

theorem not_blank_of_isDigit {c : Char} (h : c.isDigit = true) :
    CharClass.blank.contains c = false := by
  have hdigits : ∀ i < 10,
      CharClass.blank.contains (Char.ofNat (48 + i)) = false := by decide
  obtain ⟨i, hi, rfl⟩ := exists_of_isDigit h
  exact hdigits i hi

/-- A digit begins no identifier. -/
theorem not_isDigit_of_isWordStart {c : Char} (h : isWordStart c = true) :
    c.isDigit = false := by
  have hdigits : ∀ i < 10, isWordStart (Char.ofNat (48 + i)) = false := by
    decide +kernel
  refine Bool.eq_false_iff.mpr fun hc => ?_
  obtain ⟨i, hi, rfl⟩ := exists_of_isDigit hc
  rw [hdigits i hi] at h
  cases h

/-- Of the characters that begin another token, only one is a letter. It stands
for the keyword `fun`. -/
theorem read_of_isWordStart {c : Char} (h : isWordStart c = true)
    (hlambda : c ≠ 'λ') (s : List Char) : read c s = readIdent c s := by
  have hothers : ['(', ')', '{', '}', '[', ']', ';', ',', '→', '∀', ':', '=',
      '-', '?', '$', '#', '"'].all (fun d => !isWordStart d) = true := by
    decide +kernel
  have hne : ∀ d ∈ ['(', ')', '{', '}', '[', ']', ';', ',', '→', '∀', ':', '=',
      '-', '?', '$', '#', '"'], c ≠ d := by
    rintro d hd rfl
    have hc := List.all_eq_true.mp hothers c hd
    rw [h] at hc
    cases hc
  have hmark : mark? c = none := by
    unfold mark?
    split <;> simp_all
  have hdigit := not_isDigit_of_isWordStart h
  simp_all [read]

theorem read_of_isDigit {c : Char} (h : c.isDigit = true) (s : List Char) :
    read c s = readNumber c s := by
  obtain ⟨i, hi, rfl⟩ := exists_of_isDigit h
  match i, hi with
  | 0, _ | 1, _ | 2, _ | 3, _ | 4, _ | 5, _ | 6, _ | 7, _ | 8, _ | 9, _ => rfl

/-! ## Words -/

/-- The text does not go on with a word. -/
def Ends (s : List Char) : Prop :=
  ∀ c s', s = c :: s' → isWordChar c = false

theorem Ends.cons {c : Char} (h : isWordChar c = false) (s : List Char) :
    Ends (c :: s) := by
  rintro d s' heq
  rwa [← (List.cons.inj heq).1]

theorem Ends.nil : Ends [] := nofun

section

variable {w s : List Char} (hw : ∀ c ∈ w, isWordChar c = true) (hs : Ends s)

include hw hs

theorem takeWhile_word : (w ++ s).takeWhile isWordChar = w := by
  rw [List.takeWhile_append_of_pos hw]
  cases s with
  | nil => rw [List.takeWhile_nil, List.append_nil]
  | cons c s =>
      rw [List.takeWhile_cons_of_neg (by simp [hs c s rfl]), List.append_nil]

theorem dropWhile_word : (w ++ s).dropWhile isWordChar = s := by
  rw [List.dropWhile_append_of_pos hw]
  cases s with
  | nil => rfl
  | cons c s => rw [List.dropWhile_cons_of_neg (by simp [hs c s rfl])]

theorem readWord_eq {front : List Char}
    {make? : List Char → Except Reason Token} {t : Token}
    (hmake : make? (front ++ w) = .ok t) :
    readWord front (w ++ s) make? = .ok ⟨t, width (front ++ w), s⟩ := by
  rw [readWord, takeWhile_word hw hs, dropWhile_word hw hs, hmake]
  rfl

end

/-- An identifier or keyword, as it is written. -/
def IsWord (word : String) : Prop :=
  ∃ c s, word.toList = c :: s ∧ isWordStart c = true ∧ c ≠ 'λ'
    ∧ ∀ d ∈ s, isWordChar d = true

theorem isWord_iff {word : String} {c : Char} {s : List Char}
    (h : word.toList = c :: s) :
    IsWord word ↔ isWordStart c = true ∧ c ≠ 'λ'
      ∧ s.all isWordChar = true := by
  rw [List.all_eq_true]
  constructor
  · rintro ⟨c', s', h', hword⟩
    obtain ⟨rfl, rfl⟩ := List.cons.inj (h.symm.trans h')
    exact hword
  · exact fun hword => ⟨c, s, h, hword⟩

instance (word : String) : Decidable (IsWord word) :=
  match h : word.toList with
  | [] => isFalse (by
      rintro ⟨c, s, hcons, -⟩
      rw [h] at hcons
      cases hcons)
  | _ :: _ => decidable_of_iff _ (isWord_iff h).symm

/-! ## Numerals -/

/-- A numeral, as it is written: digits, and at least one. -/
def IsNumeral (w : List Char) : Prop := w ≠ [] ∧ ∀ c ∈ w, c.isDigit = true

instance (w : List Char) : Decidable (IsNumeral w) :=
  decidable_of_iff (w ≠ [] ∧ w.all Char.isDigit = true) (by simp [IsNumeral])

theorem isNumeral_toDigits (n : Nat) : IsNumeral (Nat.toDigits 10 n) :=
  ⟨Nat.toDigits_ne_nil,
    fun _ hc => Nat.isDigit_of_mem_toDigits (by decide) (by decide) hc⟩

theorem digitsValue_toDigits (n : Nat) : digitsValue (Nat.toDigits 10 n) = n :=
  Nat.ofDigitChars_toDigits (by decide) (by decide)

section

variable {w s : List Char} (hw : IsNumeral w) (hs : Ends s)

include hw

theorem IsNumeral.isWordChar : ∀ c ∈ w, isWordChar c = true :=
  fun c hc => isWordChar_of_isDigit (hw.2 c hc)

/-- The value of a numeral is checked against the bound. -/
theorem numeral?_of_isNumeral (bound : Nat) :
    numeral? bound w
      = if digitsValue w ≤ bound then some (digitsValue w) else none := by
  obtain ⟨hne, hdigits⟩ := hw
  obtain ⟨d, ds, rfl⟩ := List.exists_cons_of_ne_nil hne
  have hall : (d :: ds).all Char.isDigit = true := List.all_eq_true.mpr hdigits
  have hplus : d ≠ '+' := by
    rintro rfl
    cases hdigits _ (List.mem_cons_self ..)
  simp [numeral?, hplus, hall]

include hs

theorem read_index :
    read '#' (w ++ s)
      = if digitsValue w ≤ maxId
        then .ok ⟨.bvar (digitsValue w), width w + 1, s⟩
        else .error .missingIndex := by
  change readIndex _ = _
  rw [readIndex, readWord, takeWhile_word hw.isWordChar hs,
    dropWhile_word hw.isWordChar hs, List.nil_append, numeral?_of_isNumeral hw]
  by_cases hsmall : digitsValue w ≤ maxId
  · simp only [if_pos hsmall]
    rfl
  · simp only [if_neg hsmall]
    rfl

theorem read_numeral :
    ∃ d ds, w = d :: ds ∧ CharClass.blank.contains d = false
      ∧ read d (ds ++ s)
        = if digitsValue w ≤ maxLiteral
          then .ok ⟨.nat (digitsValue w), width w, s⟩
          else .error (.badNumber (String.ofList w)) := by
  have hnumeral := numeral?_of_isNumeral hw maxLiteral
  obtain ⟨d, ds, rfl⟩ := List.exists_cons_of_ne_nil hw.1
  obtain ⟨hd, hds⟩ := List.forall_mem_cons.mp hw.2
  have hword : ∀ c ∈ ds, isWordChar c = true :=
    fun c hc => isWordChar_of_isDigit (hds c hc)
  refine ⟨d, ds, rfl, not_blank_of_isDigit hd, ?_⟩
  rw [read_of_isDigit hd, readNumber, readWord, takeWhile_word hword hs,
    dropWhile_word hword hs, List.singleton_append, hnumeral]
  by_cases hsmall : digitsValue (d :: ds) ≤ maxLiteral
  · simp only [if_pos hsmall]
    rfl
  · simp only [if_neg hsmall]
    rfl

end

theorem numeral?_toDigits {bound n : Nat} (h : n ≤ bound) :
    numeral? bound (Nat.toDigits 10 n) = some n := by
  rw [numeral?_of_isNumeral (isNumeral_toDigits n), digitsValue_toDigits,
    if_pos h]

/-- A word is read as an identifier, as far as it goes. -/
theorem read_word {w : String} (hw : IsWord w) {s : List Char} (hs : Ends s) :
    ∃ c cs n, w.toList = c :: cs ∧ CharClass.blank.contains c = false
      ∧ read c (cs ++ s) = .ok ⟨.ident w, n, s⟩ := by
  obtain ⟨c, cs, hword, hc, hlambda, hcs⟩ := hw
  refine ⟨c, cs, width ([c] ++ cs), hword, not_blank_of_isWordStart hc, ?_⟩
  rw [read_of_isWordStart hc hlambda, readIdent]
  refine readWord_eq hcs hs ?_
  rw [List.singleton_append, ← hword, String.ofList_toList]

/-! ## Spelling -/

/-- Wherever it begins, the text is read as these tokens, up to the place where
`s'` is left. -/
def Leads (s : List Char) (ts : List Token) (s' : List Char) : Prop :=
  ∀ pos, ∃ ls pos', Scans pos s ls pos' s' ∧ ls.map Lexeme.token = ts

/-- Wherever it begins, the text is read as these tokens. -/
abbrev Spells (text : List Char) (ts : List Token) : Prop := Leads text ts []

theorem spells_iff {text : List Char} {ts : List Token} :
    Spells text ts
      ↔ ∀ pos, ∃ ls, scanFrom pos text = .ok ls ∧ ls.map Lexeme.token = ts := by
  simp only [Leads, scanFrom_eq_ok_iff, exists_and_right]

namespace Leads

variable {s s' rest : List Char} {ts : List Token} {t : Token} {c : Char}

theorem refl (s : List Char) : Leads s [] s := fun pos => ⟨[], pos, .here pos s, rfl⟩

theorem blank (hc : CharClass.blank.contains c = true) (h : Leads s ts s') :
    Leads (c :: s) ts s' := by
  intro pos
  obtain ⟨ls, pos', hls, rfl⟩ := h (pos + c.utf8Size)
  exact ⟨ls, pos', .blank hc hls, rfl⟩

theorem token {w : Nat} (hc : CharClass.blank.contains c = false)
    (hread : read c s = .ok ⟨t, w, rest⟩) (h : Leads rest ts s') :
    Leads (c :: s) (t :: ts) s' := by
  intro pos
  obtain ⟨ls, pos', hls, rfl⟩ := h (pos + w)
  exact ⟨⟨pos, t⟩ :: ls, pos', .token hc hread hls, rfl⟩

theorem space (h : Leads s ts s') : Leads (' ' :: s) ts s' := h.blank rfl

theorem mark (hmark : mark? c = some t)
    (hc : CharClass.blank.contains c = false) (h : Leads s ts s') :
    Leads (c :: s) (t :: ts) s' :=
  h.token hc (by rw [read, hmark])

theorem fatArrow (h : Leads s ts s') : Leads ('=' :: '>' :: s) (.fatArrow :: ts) s' :=
  h.token rfl rfl

theorem arrow (h : Leads s ts s') : Leads ('-' :: '>' :: s) (.arrow :: ts) s' :=
  h.token rfl rfl

theorem assign (h : Leads s ts s') : Leads (':' :: '=' :: s) (.assign :: ts) s' :=
  h.token rfl rfl

/-- A colon that is followed by a blank. -/
theorem colon (h : Leads s ts s') : Leads (':' :: ' ' :: s) (.colon :: ts) s' :=
  h.space.token rfl rfl

theorem word {w : String} (hw : IsWord w) (hs : Ends s) (h : Leads s ts s') :
    Leads (w.toList ++ s) (.ident w :: ts) s' := by
  obtain ⟨c, cs, n, hword, hc, hread⟩ := read_word hw hs
  rw [hword]
  exact h.token hc hread

/-- A metavariable or free variable, with the sign in front that says which. -/
theorem named {sign : Char} {make : String → Token} {w : String}
    (hread : ∀ s, read sign s = readVariable make s)
    (hsign : CharClass.blank.contains sign = false) (hne : w ≠ "")
    (hw : ∀ c ∈ w.toList, isWordChar c = true) (hs : Ends s)
    (h : Leads s ts s') : Leads (sign :: (w.toList ++ s)) (make w :: ts) s' := by
  have hempty : w.toList.isEmpty = false := by
    simpa [List.isEmpty_eq_false_iff] using hne
  refine h.token (w := width w.toList + 1) hsign ?_
  rw [hread, readVariable, readWord_eq hw hs (t := make w) (by simp [hempty])]
  rfl

theorem mvar {w : String} (hne : w ≠ "")
    (hw : ∀ c ∈ w.toList, isWordChar c = true) (hs : Ends s)
    (h : Leads s ts s') : Leads ('?' :: (w.toList ++ s)) (.mvar w :: ts) s' :=
  named (fun _ => rfl) rfl hne hw hs h

theorem fvar {w : String} (hne : w ≠ "")
    (hw : ∀ c ∈ w.toList, isWordChar c = true) (hs : Ends s)
    (h : Leads s ts s') : Leads ('$' :: (w.toList ++ s)) (.fvar w :: ts) s' :=
  named (fun _ => rfl) rfl hne hw hs h

theorem index {i : Nat} (hi : i ≤ maxId) (hs : Ends s) (h : Leads s ts s') :
    Leads ('#' :: (Nat.toDigits 10 i ++ s)) (.bvar i :: ts) s' := by
  have hread := read_index (isNumeral_toDigits i) hs
  rw [digitsValue_toDigits, if_pos hi] at hread
  exact h.token rfl hread

theorem nat {n : Nat} (hn : n ≤ maxLiteral) (hs : Ends s) (h : Leads s ts s') :
    Leads (Nat.toDigits 10 n ++ s) (.nat n :: ts) s' := by
  obtain ⟨d, ds, hw, hd, hread⟩ := read_numeral (isNumeral_toDigits n) hs
  rw [digitsValue_toDigits, if_pos hn] at hread
  rw [hw]
  exact h.token hd hread

theorem str {w : String} (hw : '"' ∉ w.toList) (h : Leads s ts s') :
    Leads ('"' :: (w.toList ++ '"' :: s)) (.str w :: ts) s' := by
  have hplain : ∀ c ∈ w.toList, decide (c ≠ '"') = true := by
    intro c hc
    simp only [ne_eq, decide_not, Bool.not_eq_true', decide_eq_false_iff_not]
    rintro rfl
    exact hw hc
  have hfront : (w.toList ++ '"' :: s).takeWhile (· ≠ '"') = w.toList := by
    rw [List.takeWhile_append_of_pos hplain,
      List.takeWhile_cons_of_neg (by simp), List.append_nil]
  have hback : (w.toList ++ '"' :: s).dropWhile (· ≠ '"') = '"' :: s := by
    rw [List.dropWhile_append_of_pos hplain,
      List.dropWhile_cons_of_neg (by simp)]
  refine h.token (w := width w.toList + 2) rfl ?_
  change readString _ = _
  rw [readString, hfront, hback, String.ofList_toList]

end Leads

end Surface

end TermIndex
