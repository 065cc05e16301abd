import TermIndex.Surface.Lexer

/-!
# Scanning up to a place

`Scans pos s ls pos' s'` means that from byte `pos`, where `s` is left of the
text, the tokens `ls` are read, and then the scanner is at byte `pos'` with `s'`
left. What is left is part of the judgment, because a word goes on as far as it
can. A text is cut into tokens if and only if it is scanned up to its end
(`scanFrom_eq_ok_iff`), and the tokens do not depend on where it begins
(`Scans.move`).

Every token has a place, up to which the text is scanned, and at which it is read
(`Scans.exists_place`). If no token can be read at a place, that is the error of
the whole text (`Scans.fails`).
-/

namespace TermIndex.Surface

/-! ## Steps of the scanner -/

section

variable {c : Char} {s : List Char} {pos : Nat}

theorem scanFrom_blank (hc : CharClass.blank.contains c = true) :
    scanFrom pos (c :: s) = scanFrom (pos + c.utf8Size) s := by
  rw [scanFrom, if_pos hc]

theorem scanFrom_token {r : Read} (hc : CharClass.blank.contains c = false)
    (hread : read c s = .ok r) :
    scanFrom pos (c :: s)
      = (scanFrom (pos + r.width) r.rest).map (⟨pos, r.token⟩ :: ·) := by
  rw [scanFrom, if_neg (by simp [hc])]
  split
  · next reason herror =>
      rw [hread] at herror
      cases herror
  · next r' hok =>
      rw [hread] at hok
      obtain rfl := Except.ok.inj hok
      cases scanFrom (pos + r.width) r.rest with
      | error e => rfl
      | ok ls => rfl

theorem scanFrom_error {reason : Reason}
    (hc : CharClass.blank.contains c = false)
    (hread : read c s = .error reason) :
    scanFrom pos (c :: s) = .error ⟨pos, reason⟩ := by
  rw [scanFrom, if_neg (by simp [hc])]
  split
  · next reason' herror =>
      rw [hread] at herror
      obtain rfl := Except.error.inj herror
      rfl
  · next r hok =>
      rw [hread] at hok
      cases hok

end

/-! ## Judgments -/

inductive Scans :
    Nat → List Char → List Lexeme → Nat → List Char → Prop where
  | here (pos : Nat) (s : List Char) : Scans pos s [] pos s
  | blank {c : Char} {pos pos' : Nat} {s s' : List Char} {ls : List Lexeme}
      (hc : CharClass.blank.contains c = true)
      (h : Scans (pos + c.utf8Size) s ls pos' s') : Scans pos (c :: s) ls pos' s'
  | token {c : Char} {pos pos' : Nat} {s s' : List Char} {ls : List Lexeme}
      {r : Read} (hc : CharClass.blank.contains c = false)
      (hread : read c s = .ok r) (h : Scans (pos + r.width) r.rest ls pos' s') :
      Scans pos (c :: s) (⟨pos, r.token⟩ :: ls) pos' s'

namespace Scans

variable {pos pos' : Nat} {s s' : List Char} {ls : List Lexeme}

/-- What was scanned does not depend on what comes after. -/
theorem scanFrom_eq (h : Scans pos s ls pos' s') :
    scanFrom pos s = (scanFrom pos' s').map (ls ++ ·) := by
  induction h with
  | here pos s =>
      cases scanFrom pos s with
      | _ => rfl
  | blank hc _ ih => rw [scanFrom_blank hc, ih]
  | @token c pos pos' s s' ls r hc hread _ ih =>
      rw [scanFrom_token hc hread, ih]
      cases scanFrom pos' s' with
      | _ => rfl

/-- The same tokens are read wherever the text begins. -/
theorem move (h : Scans pos s ls pos' s') (q : Nat) :
    ∃ ls' q', Scans q s ls' q' s' ∧ ls'.map Lexeme.token = ls.map Lexeme.token := by
  induction h generalizing q with
  | here pos s => exact ⟨[], q, .here q s, rfl⟩
  | blank hc _ ih =>
      obtain ⟨ls', q', h', hls⟩ := ih _
      exact ⟨ls', q', .blank hc h', hls⟩
  | @token c pos pos' s s' ls r hc hread _ ih =>
      obtain ⟨ls', q', h', hls⟩ := ih (q + r.width)
      exact ⟨_, q', .token hc hread h', congrArg (r.token :: ·) hls⟩

end Scans

theorem scans_of_scanFrom {pos : Nat} {s : List Char} {ls : List Lexeme}
    (h : scanFrom pos s = .ok ls) : ∃ pos', Scans pos s ls pos' [] := by
  induction pos, s using scanFrom.induct generalizing ls with
  | case1 pos =>
      rw [scanFrom] at h
      cases h
      exact ⟨pos, .here pos []⟩
  | case2 pos c s hc ih =>
      rw [scanFrom_blank hc] at h
      obtain ⟨pos', h'⟩ := ih h
      exact ⟨pos', .blank hc h'⟩
  | case3 pos c s hc reason hread =>
      rw [scanFrom_error (Bool.eq_false_iff.mpr hc) hread] at h
      cases h
  | case4 pos c s hc r hread ih =>
      have hc := Bool.eq_false_iff.mpr hc
      rw [scanFrom_token hc hread] at h
      cases hrest : scanFrom (pos + r.width) r.rest with
      | error e =>
          rw [hrest] at h
          cases h
      | ok ls' =>
          rw [hrest] at h
          cases h
          obtain ⟨pos', h'⟩ := ih hrest
          exact ⟨pos', .token hc hread h'⟩

theorem scanFrom_eq_ok_iff {pos : Nat} {s : List Char} {ls : List Lexeme} :
    scanFrom pos s = .ok ls ↔ ∃ pos', Scans pos s ls pos' [] := by
  refine ⟨scans_of_scanFrom, ?_⟩
  rintro ⟨pos', h⟩
  rw [h.scanFrom_eq, scanFrom]
  exact congrArg Except.ok (List.append_nil ls)

/-! ## Places -/

namespace Scans

variable {pos pos' : Nat} {s s' : List Char} {ls : List Lexeme} {c : Char}

/-- Every token has a place. -/
theorem exists_place (h : Scans pos s ls pos' s') {l : Lexeme} (hl : l ∈ ls) :
    ∃ before c rest r, Scans pos s before l.pos (c :: rest)
      ∧ CharClass.blank.contains c = false ∧ read c rest = .ok r
      ∧ r.token = l.token := by
  induction h with
  | here => cases hl
  | blank hc _ ih =>
      obtain ⟨before, c', rest, r, h', hc', hread, htoken⟩ := ih hl
      exact ⟨before, c', rest, r, .blank hc h', hc', hread, htoken⟩
  | @token c pos pos' s s' ls r hc hread _ ih =>
      rcases List.mem_cons.mp hl with rfl | hl
      · exact ⟨[], c, s, r, .here pos _, hc, hread, rfl⟩
      · obtain ⟨before, c', rest, r', h', hc', hread', htoken⟩ := ih hl
        exact ⟨_, c', rest, r', .token hc hread h', hc', hread', htoken⟩

/-- What is read at a place is a token of the text. -/
theorem mem_of_place {before : List Lexeme} {rest : List Char} {p : Nat} {r : Read}
    (hscan : scanFrom pos s = .ok ls) (h : Scans pos s before p (c :: rest))
    (hc : CharClass.blank.contains c = false) (hread : read c rest = .ok r) :
    ⟨p, r.token⟩ ∈ ls := by
  rw [h.scanFrom_eq, scanFrom_token hc hread] at hscan
  cases hafter : scanFrom (p + r.width) r.rest with
  | error e =>
      rw [hafter] at hscan
      cases hscan
  | ok after =>
      rw [hafter] at hscan
      cases hscan
      exact List.mem_append_right _ (List.mem_cons_self ..)

/-- No text goes on behind a place where no token can be read. -/
theorem fails {rest : List Char} {reason : Reason}
    (h : Scans pos s ls pos' (c :: rest))
    (hc : CharClass.blank.contains c = false)
    (hread : read c rest = .error reason) :
    scanFrom pos s = .error ⟨pos', reason⟩ := by
  rw [h.scanFrom_eq, scanFrom_error hc hread]
  rfl

end Scans

end TermIndex.Surface
