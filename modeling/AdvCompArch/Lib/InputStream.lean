import AdvCompArch.Lib.DecimalText
import Mathlib.Algebra.Order.Ring.Int

/-! # Input streams

    A stream over the text of a file, as the standard library has it: after an operation
    that fails, or that comes to the end of the file, the stream is not good, and every
    later operation fails.

    * `readInt_numeral`, `readReal_numeral`: a numeral after blanks is read.
    * `getline_eq`: a line is read. -/

open DecimalText List

structure InStream where
  rest : List Char
  good : Bool
  deriving DecidableEq

namespace InStream

/-- A file is opened and `seekg` goes to an offset. -/
def seekg (text : List Char) (offset : ℤ) : InStream :=
  if offset < 0 then ⟨text, false⟩ else ⟨text.drop offset.toNat, true⟩

/-- `tellg` in a file of this size; it fails with `-1`. -/
def tellg (size : ℕ) (s : InStream) : ℤ := if s.good then size - s.rest.length else -1

/-- The text after the end of the line. -/
def afterLine (text : List Char) : InStream :=
  match text.dropWhile (· ≠ '\n') with
  | [] => ⟨[], false⟩
  | _ :: rest => ⟨rest, true⟩

/-- `getline` into a string that is `line` before. -/
def getline (line : List Char) (s : InStream) : List Char × InStream :=
  if s.good then (s.rest.takeWhile (· ≠ '\n'), afterLine s.rest) else (line, s)

/-- `>>` into a string. -/
def readWord (word : List Char) (s : InStream) : List Char × InStream :=
  let rest := s.rest.dropWhile isSpace
  if s.good then
    if rest = [] then (word, ⟨[], false⟩)
    else
      let rest' := rest.dropWhile (!isSpace ·)
      (rest.takeWhile (!isSpace ·), ⟨rest', rest' ≠ []⟩)
  else (word, s)

/-- `>>` into an integer of 64 bits. -/
def readInt (v : ℤ) (s : InStream) : ℤ × InStream :=
  if s.good then
    if s.rest.dropWhile isSpace = [] then (v, ⟨[], false⟩)
    else
      match scanInt s.rest with
      | none => (0, ⟨s.rest.dropWhile isSpace, false⟩)
      | some (z, rest) =>
        if z < -2 ^ 63 then (-2 ^ 63, ⟨rest, false⟩)
        else if 2 ^ 63 ≤ z then (2 ^ 63 - 1, ⟨rest, false⟩)
        else (z, ⟨rest, rest ≠ []⟩)
  else (v, s)

/-- `>>` into a `double`, without the number.  It also fails for a number that is too large. -/
def readReal (too_large : List Char → Bool) (s : InStream) : InStream :=
  if s.good then
    match scanReal s.rest with
    | none => ⟨s.rest.dropWhile isSpace, false⟩
    | some rest =>
      let t := s.rest.dropWhile isSpace
      if too_large (t.take (t.length - rest.length)) then ⟨rest, false⟩
      else ⟨rest, rest ≠ []⟩
  else s

/-- The integers of 64 bits. -/
def InRange (z : ℤ) : Prop := -2 ^ 63 ≤ z ∧ z < 2 ^ 63

instance (z : ℤ) : Decidable (InRange z) := inferInstanceAs (Decidable (_ ∧ _))

variable {blanks line rest text : List Char} {v : ℤ} {s : InStream}

/-- The text is at its end or goes on with a blank. -/
def Blank (text : List Char) : Prop := ∀ c ∈ text.head?, isSpace c = true

theorem Blank.noDigit (h : Blank rest) : NoDigit rest := by
  intro c hc
  by_contra hdigit
  have := isSpace_of_isDigit (by simpa using hdigit)
  rw [h c hc] at this
  cases this

theorem Blank.ends (h : Blank rest) : RealNumeral.Ends rest := by
  intro c hc
  have hspace := h c hc
  refine ⟨h.noDigit c hc, ?_, ?_, ?_⟩ <;> intro heq <;> simp [heq, isSpace] at hspace

theorem dropWhile_blanks (hblanks : ∀ c ∈ blanks, isSpace c = true) {c : Char} {t : List Char}
    (hc : isSpace c = false) : (blanks ++ c :: t).dropWhile isSpace = c :: t := by
  apply dropWhile_append_of_all hblanks
  intro d hd
  cases hd
  exact hc

theorem dropWhile_numeral (x : Numeral) (hblanks : ∀ c ∈ blanks, isSpace c = true) :
    (blanks ++ (x.text ++ rest)).dropWhile isSpace = x.text ++ rest := by
  obtain ⟨c, t, ht, hc, -⟩ := x.exists_cons
  rw [ht, cons_append, dropWhile_blanks hblanks hc]

/-- **A numeral is read.** -/
theorem readInt_numeral (x : Numeral) (hx : InRange x.value)
    (hblanks : ∀ c ∈ blanks, isSpace c = true) (hrest : Blank rest) :
    readInt v ⟨blanks ++ (x.text ++ rest), true⟩ = (x.value, ⟨rest, rest ≠ []⟩) := by
  obtain ⟨c, t, ht, -⟩ := x.exists_cons
  have hne : ¬(blanks ++ (x.text ++ rest)).dropWhile isSpace = [] := by
    rw [dropWhile_numeral x hblanks, ht]
    simp
  simp only [readInt, if_true, if_neg hne, x.scanInt_text hrest.noDigit hblanks]
  have hlow : ¬x.value < -2 ^ 63 := not_lt.mpr hx.1
  have hhigh : ¬2 ^ 63 ≤ x.value := not_le.mpr hx.2
  simp only [hlow, hhigh, if_false]

theorem readInt_blanks (hblanks : ∀ c ∈ blanks, isSpace c = true) :
    readInt v ⟨blanks, true⟩ = (v, ⟨[], false⟩) := by
  have hnil : (blanks ++ []).dropWhile isSpace = [] := dropWhile_append_of_all hblanks (by simp)
  rw [append_nil] at hnil
  simp only [readInt, if_true, hnil]

theorem readInt_of_not_good (h : s.good = false) : readInt v s = (v, s) := by
  simp [readInt, h]

theorem readInt_not_number {c : Char} {t : List Char}
    (ht : text.dropWhile isSpace = c :: t) (hdigit : c.isDigit = false) (hsign : c ≠ '+' ∧ c ≠ '-') :
    (readInt v ⟨text, true⟩).2.good = false := by
  have hne : ¬text.dropWhile isSpace = [] := by simp [ht]
  have hscan : scanInt text = none := by
    rw [scanInt, ht]
    unfold scanSigned
    split
    · rename_i h
      exact absurd (cons.inj h).1 hsign.2
    · rename_i h
      exact absurd (cons.inj h).1 hsign.1
    · simp [scanNat, hdigit]
  simp only [readInt, if_true, if_neg hne, hscan]

theorem readReal_numeral {too_large : List Char → Bool} (x : RealNumeral)
    (hblanks : ∀ c ∈ blanks, isSpace c = true) (hx : too_large x.text = false)
    (hrest : Blank rest) :
    readReal too_large ⟨blanks ++ (x.text ++ rest), true⟩ = ⟨rest, rest ≠ []⟩ := by
  obtain ⟨c, t, ht, hc, -⟩ := x.exists_cons
  have hdrop : (blanks ++ (x.text ++ rest)).dropWhile isSpace = x.text ++ rest := by
    rw [ht, cons_append, dropWhile_blanks hblanks hc]
  have htake : (x.text ++ rest).take ((x.text ++ rest).length - rest.length) = x.text := by
    apply take_left'
    rw [length_append, Nat.add_sub_cancel]
  simp only [readReal, if_true, x.scanReal_text hrest.ends hblanks, hdrop, htake, hx]
  rfl

theorem getline_eq {line' : List Char} (hline : '\n' ∉ line) :
    getline line' ⟨line ++ '\n' :: rest, true⟩ = (line, ⟨rest, true⟩) := by
  have hall : ∀ c ∈ line, decide (c ≠ '\n') = true := by
    intro c hc
    exact decide_eq_true fun h => hline (h ▸ hc)
  have htake : (line ++ '\n' :: rest).takeWhile (· ≠ '\n') = line :=
    takeWhile_append_of_all hall (by simp)
  have hdrop : (line ++ '\n' :: rest).dropWhile (· ≠ '\n') = '\n' :: rest :=
    dropWhile_append_of_all hall (by simp)
  simp only [getline, if_true, htake, afterLine, hdrop]

theorem readWord_eq {word word' : List Char} (hword : word ≠ [])
    (hnonspace : ∀ c ∈ word, isSpace c = false) (hblanks : ∀ c ∈ blanks, isSpace c = true)
    (hrest : Blank rest) :
    readWord word' ⟨blanks ++ (word ++ rest), true⟩ = (word, ⟨rest, rest ≠ []⟩) := by
  obtain ⟨c, t, rfl⟩ := exists_cons_of_ne_nil hword
  have hall : ∀ d ∈ c :: t, (!isSpace d) = true := by
    intro d hd
    simp [hnonspace d hd]
  have hhead : ∀ d ∈ rest.head?, (!isSpace d) = false := by
    intro d hd
    simp [hrest d hd]
  have hdrop : (blanks ++ (c :: t ++ rest)).dropWhile isSpace = c :: t ++ rest := by
    rw [cons_append]
    exact dropWhile_blanks hblanks (hnonspace c mem_cons_self)
  have hne : ¬c :: t ++ rest = [] := by simp
  simp only [readWord, hdrop, if_true, if_neg hne, takeWhile_append_of_all hall hhead,
    dropWhile_append_of_all hall hhead]

theorem afterLine_cases (text : List Char) :
    (afterLine text = ⟨[], false⟩ ∧ text.takeWhile (· ≠ '\n') = text) ∨
      ∃ rest, afterLine text = ⟨rest, true⟩ ∧ text = text.takeWhile (· ≠ '\n') ++ '\n' :: rest := by
  induction text with
  | nil => exact .inl ⟨rfl, rfl⟩
  | cons c text ih =>
    by_cases hc : c = '\n'
    · subst hc
      exact .inr ⟨text, by simp [afterLine], by simp⟩
    · have hnext : afterLine (c :: text) = afterLine text := by simp [afterLine, hc]
      have htake : (c :: text).takeWhile (· ≠ '\n') = c :: text.takeWhile (· ≠ '\n') := by simp [hc]
      rw [hnext, htake]
      obtain ⟨hend, hall⟩ | ⟨rest, hend, hsplit⟩ := ih
      · exact .inl ⟨hend, by rw [hall]⟩
      · exact .inr ⟨rest, hend, by rw [cons_append, ← hsplit]⟩

/-! ### Reading takes from the text -/

theorem length_afterLine_le (text : List Char) : (afterLine text).rest.length ≤ text.length := by
  rw [afterLine]
  have hle := length_dropWhile_le (fun c => decide (c ≠ '\n')) text
  generalize text.dropWhile (fun c => decide (c ≠ '\n')) = t at hle ⊢
  cases t with
  | nil => exact Nat.zero_le _
  | cons c t => exact (Nat.le_succ _).trans hle

theorem length_readInt_le : (readInt v s).2.rest.length ≤ s.rest.length ∧
    ((readInt v s).2.good = true → (readInt v s).2.rest.length < s.rest.length) := by
  rw [readInt]
  by_cases hgood : s.good = true
  · rw [if_pos hgood]
    by_cases hnil : s.rest.dropWhile isSpace = []
    · simp [hnil]
    · rw [if_neg hnil]
      cases hscan : scanInt s.rest with
      | none => simp [length_dropWhile_le]
      | some p =>
        have hlt := length_of_scanInt hscan
        dsimp only
        split_ifs <;> simp [hlt.le, hlt]
  · rw [if_neg hgood]
    exact ⟨le_rfl, fun h => absurd h hgood⟩

end InStream
