import Mathlib.Data.List.Basic
import Mathlib.Data.List.TakeWhile
import Mathlib.Data.Int.Basic

/-! # Numbers in texts

    A decimal number is printed, and scanned from the front of a text, as the C library
    does it: blanks are skipped, then there may be a sign, then as many digits as there
    are, and one at least.

    * `scanInt_printInt`: what was printed is scanned, up to the text that follows.
    * `Numeral.scanInt_text`, `RealNumeral.scanReal_text`: so is every numeral. -/

namespace DecimalText

open List Option

/-- `isspace` -/
def isSpace (c : Char) : Bool := c ∈ [' ', '\t', '\n', '\x0b', '\x0c', '\r']

def printInt : ℤ → List Char
  | .ofNat n => Nat.toDigits 10 n
  | .negSucc n => '-' :: Nat.toDigits 10 (n + 1)

/-- Digits from the front, and the rest of the text. -/
def scanNat (text : List Char) : Option (ℕ × List Char) :=
  let digits := text.takeWhile Char.isDigit
  if digits = [] then none else some (Nat.ofDigitChars 10 digits 0, text.dropWhile Char.isDigit)

/-- A sign and digits. -/
def scanSigned : List Char → Option (ℤ × List Char)
  | '-' :: text => (scanNat text).map fun p => (-(p.1 : ℤ), p.2)
  | '+' :: text => (scanNat text).map fun p => ((p.1 : ℤ), p.2)
  | text => (scanNat text).map fun p => ((p.1 : ℤ), p.2)

def scanInt (text : List Char) : Option (ℤ × List Char) := scanSigned (text.dropWhile isSpace)

/-- The text does not go on with a digit. -/
def NoDigit (text : List Char) : Prop := ∀ c ∈ text.head?, c.isDigit = false

variable {n : ℕ} {z : ℤ} {rest : List Char}

theorem isDigit_toDigits {c : Char} (hc : c ∈ Nat.toDigits 10 n) : c.isDigit = true :=
  Nat.isDigit_of_mem_toDigits (b := 10) (by decide) (by decide) hc

theorem takeWhile_append_of_all {p : Char → Bool} {l : List Char} (hl : ∀ c ∈ l, p c = true)
    (hrest : ∀ c ∈ rest.head?, p c = false) : (l ++ rest).takeWhile p = l := by
  rw [takeWhile_append_of_pos hl]
  cases rest with
  | nil => simp
  | cons c rest => simp [hrest c rfl]

theorem dropWhile_append_of_all {p : Char → Bool} {l : List Char} (hl : ∀ c ∈ l, p c = true)
    (hrest : ∀ c ∈ rest.head?, p c = false) : (l ++ rest).dropWhile p = rest := by
  rw [dropWhile_append_of_pos hl]
  cases rest with
  | nil => rfl
  | cons c rest => simp [hrest c rfl]

theorem scanNat_toDigits (hrest : NoDigit rest) :
    scanNat (Nat.toDigits 10 n ++ rest) = some (n, rest) := by
  have hdigits : ∀ c ∈ Nat.toDigits 10 n, c.isDigit = true := fun c hc => isDigit_toDigits hc
  simp only [scanNat, takeWhile_append_of_all hdigits hrest, dropWhile_append_of_all hdigits hrest,
    Nat.toDigits_ne_nil, if_false, Nat.ofDigitChars_ten_toDigits]

/-- A digit is neither a blank nor a sign. -/
theorem isSpace_of_isDigit {c : Char} (hc : c.isDigit = true) : isSpace c = false := by
  by_contra h
  simp only [isSpace, mem_cons, not_mem_nil, or_false, decide_eq_true_eq,
    Bool.not_eq_false] at h
  rcases h with rfl | rfl | rfl | rfl | rfl | rfl <;> simp at hc

theorem scanSigned_of_isDigit {c : Char} {text : List Char} (hc : c.isDigit = true) :
    scanSigned (c :: text) = (scanNat (c :: text)).map fun p => ((p.1 : ℤ), p.2) := by
  unfold scanSigned
  split
  · rename_i h
    obtain ⟨rfl, -⟩ := cons.inj h
    simp at hc
  · rename_i h
    obtain ⟨rfl, -⟩ := cons.inj h
    simp at hc
  · rfl

theorem scanInt_printInt (hrest : NoDigit rest) : scanInt (printInt z ++ rest) = some (z, rest) := by
  cases z with
  | ofNat n =>
    obtain ⟨c, text, htext⟩ := exists_cons_of_ne_nil (Nat.toDigits_ne_nil (n := n) (b := 10))
    have hc : c.isDigit = true := isDigit_toDigits (n := n) (htext ▸ mem_cons_self)
    have hscan := scanNat_toDigits (n := n) hrest
    simp only [printInt, scanInt]
    rw [htext, cons_append] at hscan ⊢
    rw [dropWhile_cons_of_neg (by simp [isSpace_of_isDigit hc]), scanSigned_of_isDigit hc, hscan]
    rfl
  | negSucc n =>
    have hscan := scanNat_toDigits (n := n + 1) hrest
    simp only [printInt, scanInt, cons_append]
    rw [dropWhile_cons_of_neg (by decide), scanSigned, hscan]
    rfl

/-! ### Scanning takes from the text -/

variable {t : List Char}

theorem length_of_scanNat (h : scanNat t = some (n, rest)) : rest.length < t.length := by
  simp only [scanNat] at h
  obtain ⟨hne, h⟩ := ite_none_left_eq_some.mp h
  obtain ⟨-, rfl⟩ := Prod.mk.inj (some.inj h)
  have hsplit := congrArg length (@takeWhile_append_dropWhile _ Char.isDigit t)
  have hpos := length_pos_of_ne_nil hne
  rw [length_append] at hsplit
  omega

theorem length_of_scanSigned (h : scanSigned t = some (z, rest)) : rest.length < t.length := by
  have hmap : ∀ (f : ℕ → ℤ) (u : List Char),
      (scanNat u).map (fun p => (f p.1, p.2)) = some (z, rest) → rest.length < u.length := by
    intro f u h
    obtain ⟨⟨k, r⟩, hscan, heq⟩ := map_eq_some_iff.mp h
    obtain ⟨-, rfl⟩ := Prod.mk.inj heq
    exact length_of_scanNat hscan
  unfold scanSigned at h
  split at h
  · exact lt_trans (hmap (fun k => -(k : ℤ)) _ h) (Nat.lt_succ_self _)
  · exact lt_trans (hmap (fun k => (k : ℤ)) _ h) (Nat.lt_succ_self _)
  · exact hmap (fun k => (k : ℤ)) _ h

theorem length_of_scanInt (h : scanInt t = some (z, rest)) : rest.length < t.length :=
  lt_of_lt_of_le (length_of_scanSigned h) (List.length_dropWhile_le _ _)

/-! ### Numerals -/

inductive Sign where
  | none | plus | minus
  deriving DecidableEq

def Sign.text : Sign → List Char
  | .none => []
  | .plus => ['+']
  | .minus => ['-']

theorem Sign.not_isSpace_of_mem {x : Sign} {c : Char} (hc : c ∈ x.text) : isSpace c = false := by
  cases x with
  | none => cases hc
  | plus =>
    obtain rfl := mem_singleton.mp hc
    rfl
  | minus =>
    obtain rfl := mem_singleton.mp hc
    rfl

/-- A decimal integer as it may be written: with a sign or without one, and with zeros in front. -/
structure Numeral where
  sign : Sign
  digits : List Char
  digits_ne_nil : digits ≠ []
  isDigit : ∀ c ∈ digits, c.isDigit = true

namespace Numeral

def text (x : Numeral) : List Char := x.sign.text ++ x.digits

def value (x : Numeral) : ℤ :=
  match x.sign with
  | .minus => -(Nat.ofDigitChars 10 x.digits 0 : ℤ)
  | _ => (Nat.ofDigitChars 10 x.digits 0 : ℤ)

/-- The numeral that is printed for a number. -/
def ofNat (n : ℕ) : Numeral :=
  ⟨.none, Nat.toDigits 10 n, Nat.toDigits_ne_nil, fun _ hc => isDigit_toDigits hc⟩

theorem exists_cons (x : Numeral) : ∃ c rest, x.text = c :: rest ∧
    isSpace c = false ∧ c ≠ '#' ∧ c ≠ '\n' := by
  have hdigit : ∀ c : Char, c.isDigit = true → isSpace c = false ∧ c ≠ '#' ∧ c ≠ '\n' := by
    intro c hc
    refine ⟨isSpace_of_isDigit hc, ?_, ?_⟩
    · intro h
      simp [h] at hc
    · intro h
      simp [h] at hc
  obtain ⟨c, rest, hdigits⟩ := exists_cons_of_ne_nil x.digits_ne_nil
  have hc := x.isDigit c (by simp [hdigits])
  rw [text]
  cases x.sign with
  | none => exact ⟨c, rest, hdigits, hdigit c hc⟩
  | plus => exact ⟨'+', x.digits, rfl, by decide⟩
  | minus => exact ⟨'-', x.digits, rfl, by decide⟩

theorem not_isSpace_of_mem (x : Numeral) {c : Char} (hc : c ∈ x.text) : isSpace c = false := by
  rcases mem_append.mp hc with hsign | hdigit
  · exact Sign.not_isSpace_of_mem hsign
  · exact isSpace_of_isDigit (x.isDigit c hdigit)

theorem scanInt_text (x : Numeral) (hrest : NoDigit rest) {blanks : List Char}
    (hblanks : ∀ c ∈ blanks, isSpace c = true) :
    scanInt (blanks ++ (x.text ++ rest)) = some (x.value, rest) := by
  obtain ⟨c, t, ht, hc, -⟩ := x.exists_cons
  have hdrop : (blanks ++ (x.text ++ rest)).dropWhile isSpace = x.text ++ rest := by
    apply dropWhile_append_of_all hblanks
    intro d hd
    rw [ht] at hd
    cases hd
    exact hc
  have hscan : scanNat (x.digits ++ rest) = some (Nat.ofDigitChars 10 x.digits 0, rest) := by
    simp only [scanNat, takeWhile_append_of_all x.isDigit hrest,
      dropWhile_append_of_all x.isDigit hrest, x.digits_ne_nil, if_false]
  rw [scanInt, hdrop]
  cases hx : x.sign with
  | none =>
    obtain ⟨d, digits, hdigits⟩ := exists_cons_of_ne_nil x.digits_ne_nil
    have hd := x.isDigit d (by simp [hdigits])
    simp only [text, value, hx, Sign.text, nil_append]
    rw [hdigits, cons_append] at hscan ⊢
    rw [scanSigned_of_isDigit hd, hscan]
    rfl
  | plus =>
    simp only [text, value, hx, Sign.text, cons_append, nil_append, scanSigned, hscan]
    rfl
  | minus =>
    simp only [text, value, hx, Sign.text, cons_append, nil_append, scanSigned, hscan]
    rfl

end Numeral

/-! ### Numerals with a point and an exponent -/

def skipSign : List Char → List Char
  | '+' :: text => text
  | '-' :: text => text
  | text => text

/-- The digits after a point, and the rest. -/
def scanFraction : List Char → List Char × List Char
  | '.' :: text => (text.takeWhile Char.isDigit, text.dropWhile Char.isDigit)
  | text => ([], text)

/-- What is left after an exponent; one without a digit is a mistake. -/
def scanExponent : List Char → Option (List Char)
  | [] => some []
  | c :: text =>
    if c = 'e' ∨ c = 'E' then
      if (skipSign text).takeWhile Char.isDigit = [] then none
      else some ((skipSign text).dropWhile Char.isDigit)
    else some (c :: text)

/-- What is left after a real number. -/
def scanReal (text : List Char) : Option (List Char) :=
  let text := skipSign (text.dropWhile isSpace)
  let fraction := scanFraction (text.dropWhile Char.isDigit)
  if text.takeWhile Char.isDigit = [] ∧ fraction.1 = [] then none else scanExponent fraction.2

structure RealNumeral where
  sign : Sign
  whole : List Char
  fraction : Option (List Char)
  exponent : Option (Char × Numeral)
  whole_isDigit : ∀ c ∈ whole, c.isDigit = true
  fraction_isDigit : ∀ f ∈ fraction, ∀ c ∈ f, c.isDigit = true
  exists_digit : whole ≠ [] ∨ ∃ f ∈ fraction, f ≠ []
  exponent_mark : ∀ x ∈ exponent, x.1 = 'e' ∨ x.1 = 'E'

namespace RealNumeral

def fractionText (x : RealNumeral) : List Char :=
  match x.fraction with
  | none => []
  | some f => '.' :: f

def exponentText (x : RealNumeral) : List Char :=
  match x.exponent with
  | none => []
  | some (mark, n) => mark :: n.text

def text (x : RealNumeral) : List Char := x.sign.text ++ (x.whole ++ (x.fractionText ++ x.exponentText))

/-- The text does not go on with what may be in a real number. -/
def Ends (text : List Char) : Prop :=
  ∀ c ∈ text.head?, c.isDigit = false ∧ c ≠ '.' ∧ c ≠ 'e' ∧ c ≠ 'E'

theorem scanExponent_text (x : RealNumeral) (hrest : Ends rest) :
    scanExponent (x.exponentText ++ rest) = some rest := by
  rw [exponentText]
  cases hx : x.exponent with
  | none =>
    cases rest with
    | nil => rfl
    | cons c rest =>
      have hc := hrest c rfl
      simp [scanExponent, hc.2.2]
  | some e =>
    obtain ⟨mark, n⟩ := e
    have hmark : mark = 'e' ∨ mark = 'E' := x.exponent_mark (mark, n) hx
    have hno : ∀ c ∈ rest.head?, c.isDigit = false := fun c hc => (hrest c hc).1
    have hskip : skipSign (n.text ++ rest) = n.digits ++ rest := by
      obtain ⟨d, digits, hdigits⟩ := exists_cons_of_ne_nil n.digits_ne_nil
      have hd := n.isDigit d (by simp [hdigits])
      rw [Numeral.text]
      cases n.sign with
      | none =>
        rw [Sign.text, nil_append, hdigits, cons_append]
        unfold skipSign
        split
        · rename_i h
          simp [(cons.inj h).1] at hd
        · rename_i h
          simp [(cons.inj h).1] at hd
        · rfl
      | plus => rfl
      | minus => rfl
    simp only [cons_append, scanExponent, if_pos hmark, hskip,
      takeWhile_append_of_all n.isDigit hno, dropWhile_append_of_all n.isDigit hno,
      n.digits_ne_nil, if_false]

theorem fraction_head (x : RealNumeral) (hrest : Ends rest) :
    ∀ c ∈ (x.exponentText ++ rest).head?, c.isDigit = false ∧ c ≠ '.' := by
  intro c hc
  rw [exponentText] at hc
  cases hx : x.exponent with
  | none =>
    rw [hx] at hc
    exact ⟨(hrest c hc).1, (hrest c hc).2.1⟩
  | some e =>
    rw [hx] at hc
    obtain rfl : e.1 = c := some.inj hc
    rcases x.exponent_mark e hx with h | h <;> simp [h]

theorem scanFraction_text (x : RealNumeral) (hrest : Ends rest) :
    scanFraction (x.fractionText ++ (x.exponentText ++ rest)) =
      (x.fraction.getD [], x.exponentText ++ rest) := by
  have hhead := x.fraction_head hrest
  rw [fractionText]
  cases hx : x.fraction with
  | none =>
    generalize x.exponentText ++ rest = t at hhead
    rw [nil_append]
    unfold scanFraction
    split
    · exact absurd rfl (hhead '.' rfl).2
    · rfl
  | some f =>
    have hf := x.fraction_isDigit f hx
    have hno : ∀ c ∈ (x.exponentText ++ rest).head?, c.isDigit = false := fun c hc => (hhead c hc).1
    simp only [cons_append, scanFraction, takeWhile_append_of_all hf hno,
      dropWhile_append_of_all hf hno, getD_some]

theorem exists_cons (x : RealNumeral) : ∃ c t, x.text = c :: t ∧ isSpace c = false ∧ c ≠ '\n' := by
  rw [text]
  cases x.sign with
  | plus => exact ⟨'+', _, rfl, by decide⟩
  | minus => exact ⟨'-', _, rfl, by decide⟩
  | none =>
    cases hw : x.whole with
    | cons c t =>
      have hc := x.whole_isDigit c (by simp [hw])
      refine ⟨c, _, rfl, isSpace_of_isDigit hc, ?_⟩
      intro h
      simp [h] at hc
    | nil =>
      obtain hne | ⟨f, hf, -⟩ := x.exists_digit
      · exact absurd hw hne
      · have hf' : x.fraction = some f := hf
        exact ⟨'.', f ++ x.exponentText, by simp [Sign.text, fractionText, hf'], by decide⟩

theorem not_isSpace_of_mem (x : RealNumeral) {c : Char} (hc : c ∈ x.text) : isSpace c = false := by
  simp only [text, mem_append] at hc
  rcases hc with hsign | hwhole | hfraction | hexponent
  · exact Sign.not_isSpace_of_mem hsign
  · exact isSpace_of_isDigit (x.whole_isDigit c hwhole)
  · cases hx : x.fraction with
    | none => simp [fractionText, hx] at hfraction
    | some f =>
      simp only [fractionText, hx, mem_cons] at hfraction
      rcases hfraction with rfl | hf
      · decide
      · exact isSpace_of_isDigit (x.fraction_isDigit f hx c hf)
  · cases hx : x.exponent with
    | none => simp [exponentText, hx] at hexponent
    | some e =>
      simp only [exponentText, hx, mem_cons] at hexponent
      rcases hexponent with rfl | hn
      · rcases x.exponent_mark e hx with h | h
        · simp [h, isSpace]
        · simp [h, isSpace]
      · exact e.2.not_isSpace_of_mem hn

/-- **A real numeral is scanned**, up to the text that follows. -/
theorem scanReal_text (x : RealNumeral) (hrest : Ends rest) {blanks : List Char}
    (hblanks : ∀ c ∈ blanks, isSpace c = true) :
    scanReal (blanks ++ (x.text ++ rest)) = some rest := by
  obtain ⟨c, t, ht, hc, -⟩ := x.exists_cons
  have hdrop : (blanks ++ (x.text ++ rest)).dropWhile isSpace = x.text ++ rest := by
    apply dropWhile_append_of_all hblanks
    intro d hd
    rw [ht] at hd
    cases hd
    exact hc
  have hhead : ∀ c ∈ (x.fractionText ++ (x.exponentText ++ rest)).head?, c.isDigit = false := by
    rw [fractionText]
    cases x.fraction with
    | none => exact fun c hc => (x.fraction_head hrest c hc).1
    | some f =>
      intro c hc
      cases hc
      decide
  have hskip : skipSign (x.text ++ rest) =
      x.whole ++ (x.fractionText ++ (x.exponentText ++ rest)) := by
    have hnone : skipSign (x.whole ++ (x.fractionText ++ (x.exponentText ++ rest))) =
        x.whole ++ (x.fractionText ++ (x.exponentText ++ rest)) := by
      have hfirst : ∀ c ∈ (x.whole ++ (x.fractionText ++ (x.exponentText ++ rest))).head?,
          c ≠ '+' ∧ c ≠ '-' := by
        cases hw : x.whole with
        | cons d t =>
          intro c hc
          cases hc
          have hd := x.whole_isDigit d (by simp [hw])
          constructor <;> intro h <;> simp [h] at hd
        | nil =>
          obtain hne | ⟨f, hf, -⟩ := x.exists_digit
          · exact absurd hw hne
          · have hf' : x.fraction = some f := hf
            intro c hc
            rw [fractionText, hf'] at hc
            cases hc
            decide
      generalize x.whole ++ (x.fractionText ++ (x.exponentText ++ rest)) = t at hfirst ⊢
      unfold skipSign
      split
      · exact absurd rfl (hfirst '+' rfl).1
      · exact absurd rfl (hfirst '-' rfl).2
      · rfl
    rw [text]
    cases x.sign with
    | none => simpa [Sign.text] using hnone
    | plus => simp [Sign.text, skipSign]
    | minus => simp [Sign.text, skipSign]
  have hdigits : ¬(x.whole = [] ∧ x.fraction.getD [] = []) := by
    intro h
    obtain hne | ⟨f, hf, hne⟩ := x.exists_digit
    · exact hne h.1
    · have hf' : x.fraction = some f := hf
      rw [hf'] at h
      exact hne h.2
  simp only [scanReal, hdrop, hskip, takeWhile_append_of_all x.whole_isDigit hhead,
    dropWhile_append_of_all x.whole_isDigit hhead, x.scanFraction_text hrest, if_neg hdigits]
  exact x.scanExponent_text hrest

end RealNumeral

end DecimalText
