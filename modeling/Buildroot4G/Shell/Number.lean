/-
This file models how the tools of a shell script read and print numbers. They do
not agree: `[` reads decimal integers and refuses everything else, `printf %d` of
bash reads a leading zero as octal, and awk compares two texts as numbers when both
look like one, fractions and exponents included, and as texts otherwise.

awk's numbers are doubles, so that two long integers may be one number to it; what it
prints for an integer is the double. `[` and `printf` take integers of 64 bits.
-/

import Mathlib.Algebra.Order.Ring.Rat
import Mathlib.Data.List.TakeWhile
import Buildroot4G.Double
import Buildroot4G.Shell.Text

namespace Shell

open Double

/-! ### Digits -/

def isSpace (c : Char) : Bool :=
  c == ' ' || c == '\t' || c == '\n' || c == '\r' || c == '\x0b' || c == '\x0c'

def isOctal (c : Char) : Bool := decide ('0' ≤ c) && decide (c ≤ '7')

/-- A number in decimal. -/
def decimal (number : Nat) : Text := Nat.toDigits 10 number

/-- What `%d` prints. -/
def showInt : Int → Text
  | .ofNat number => decimal number
  | .negSucc number => '-' :: decimal (number + 1)

/-- The number that digits stand for in a base. -/
def digitsValue (base : Nat) (digits : Text) : Nat := Nat.ofDigitChars base digits 0

/-- The sign of a numeral, and what follows it. -/
def splitSign : Text → Bool × Text
  | '-' :: rest => (true, rest)
  | '+' :: rest => (false, rest)
  | text => (false, text)

def withSign (negative : Bool) (number : Nat) : Int := if negative then -number else number

/-- An integer of 64 bits, which `[` and `printf` take. -/
def FitsInt (number : Int) : Prop := -2 ^ 63 ≤ number ∧ number < 2 ^ 63

instance : DecidablePred FitsInt := fun number =>
  inferInstanceAs (Decidable (-2 ^ 63 ≤ number ∧ number < 2 ^ 63))

/-! ### The readers -/

/-- An operand of `-eq`, `-lt` and so on, which the script does not quote: one word, in decimal
and in the range of 64 bits. On any other text `[` fails. -/
def testInt (text : Text) : Option Int :=
  match words text with
  | [word] =>
    let (negative, digits) := splitSign (word.dropWhile isSpace)
    let number := withSign negative (digitsValue 10 digits)
    if digits ≠ [] ∧ digits.all Char.isDigit ∧ FitsInt number then some number else none
  | _ => none

/-- What `printf %d` prints for a text, and whether it accepts the whole of it. The script gives
it only texts that `[` took for an integer, so there is no hexadecimal one. -/
def printfInt (text : Text) : Int × Bool :=
  let (negative, number) := splitSign (text.dropWhile isSpace)
  if number.head? = some '0' then
    (withSign negative (digitsValue 8 (number.takeWhile isOctal)), number.all isOctal)
  else
    (withSign negative (digitsValue 10 (number.takeWhile Char.isDigit)),
      number.all Char.isDigit && (!number.isEmpty || text.isEmpty))

/-- The exponent of a numeral, and what follows it. -/
def scanExponent : Text → Int × Text
  | c :: rest =>
    let (negative, digits) := splitSign rest
    if (c = 'e' ∨ c = 'E') ∧ digits.takeWhile Char.isDigit ≠ [] then
      (withSign negative (digitsValue 10 (digits.takeWhile Char.isDigit)),
        digits.dropWhile Char.isDigit)
    else (0, c :: rest)
  | [] => (0, [])

/-- The fraction of a numeral, and what follows it. -/
def scanFraction : Text → Text × Text
  | '.' :: rest => (rest.takeWhile Char.isDigit, rest.dropWhile Char.isDigit)
  | text => ([], text)

/-- The numeral at the head of a text, exactly, and what follows it. -/
def scanNumber (text : Text) : Option (Rat × Text) :=
  let (negative, unsigned) := splitSign (text.dropWhile isSpace)
  let whole := unsigned.takeWhile Char.isDigit
  let (fraction, behind) := scanFraction (unsigned.dropWhile Char.isDigit)
  if whole ++ fraction = [] then none
  else
    let (exponent, rest) := scanExponent behind
    let shift := exponent - fraction.length
    some (withSign negative (digitsValue 10 (whole ++ fraction)) * 10 ^ shift.toNat /
      10 ^ (-shift).toNat, rest)

/-- A value awk compares: a double when the text looks like a number, else the text. -/
inductive Strnum where
  | number (value : Rat)
  | text (text : Text)
  deriving DecidableEq

/-- The value of a field or of a variable set with `-v`. -/
def strnum (text : Text) : Strnum :=
  match scanNumber text with
  | some (value, rest) => if rest.all isSpace then .number (toDouble value) else .text text
  | none => .text text

/-- What awk's `%d` prints for a field: its leading number as a double, without the fraction. -/
def awkInt (text : Text) : Int :=
  match scanNumber text with
  | some (value, _) => (toDouble value).num.tdiv (toDouble value).den
  | none => 0

/-! ### Decimal numbers -/

/-- Digits only. -/
def IsNumber (text : Text) : Prop := text ≠ [] ∧ ∀ c ∈ text, c.isDigit = true

/-- The number of a text of digits. -/
def number (text : Text) : Nat := digitsValue 10 text

theorem isNumber_decimal (n : Nat) : IsNumber (decimal n) :=
  ⟨Nat.toDigits_ne_nil, fun _ member => Nat.isDigit_of_mem_toDigits (by decide) (by decide) member⟩

@[simp]
theorem number_decimal (n : Nat) : number (decimal n) = n := Nat.ofDigitChars_ten_toDigits

/-- A printed number has no other characters than digits and a sign. -/
theorem not_mem_showInt {c : Char} (noDigit : c.isDigit = false) (noSign : c ≠ '-')
    (number : Int) : c ∉ showInt number := by
  have notDecimal : ∀ n, c ∉ decimal n := fun n member =>
    Bool.false_ne_true (noDigit.symm.trans ((isNumber_decimal n).2 c member))
  cases number with
  | ofNat n => exact notDecimal n
  | negSucc n =>
    intro member
    exact (List.mem_cons.mp member).elim noSign (notDecimal (n + 1))

theorem not_isSpace_of_isDigit {c : Char} (digit : c.isDigit = true) : isSpace c = false := by
  by_contra space
  rw [Bool.not_eq_false] at space
  simp only [isSpace, Bool.or_eq_true, beq_iff_eq] at space
  rcases space with ((((rfl | rfl) | rfl) | rfl) | rfl) | rfl <;> cases digit

theorem ne_of_isDigit {c d : Char} (digit : c.isDigit = true) (noDigit : d.isDigit = false) :
    c ≠ d := by
  rintro rfl
  rw [digit] at noDigit
  cases noDigit

theorem IsNumber.dropWhile_isSpace {text : Text} (isNumber : IsNumber text) :
    text.dropWhile isSpace = text := by
  obtain ⟨nonempty, digits⟩ := isNumber
  cases text with
  | nil => exact absurd rfl nonempty
  | cons c rest =>
    exact List.dropWhile_cons_of_neg
      (by rw [not_isSpace_of_isDigit (digits c List.mem_cons_self)]; exact Bool.false_ne_true)

theorem IsNumber.splitSign {text : Text} (isNumber : IsNumber text) :
    splitSign text = (false, text) := by
  obtain ⟨nonempty, digits⟩ := isNumber
  cases text with
  | nil => exact absurd rfl nonempty
  | cons c rest =>
    have digit := digits c List.mem_cons_self
    rw [Shell.splitSign]
    · exact fun tail same => ne_of_isDigit digit rfl (List.cons.inj same).1
    · exact fun tail same => ne_of_isDigit digit rfl (List.cons.inj same).1

/-- awk reads a text of digits as its number. -/
theorem IsNumber.scanNumber {text : Text} (isNumber : IsNumber text) :
    scanNumber text = some ((number text : Rat), []) := by
  have whole : text.takeWhile Char.isDigit = text := List.takeWhile_eq_self_iff.mpr isNumber.2
  have rest : text.dropWhile Char.isDigit = [] := List.dropWhile_eq_nil_iff.mpr isNumber.2
  rw [Shell.scanNumber, isNumber.dropWhile_isSpace, isNumber.splitSign]
  simp only [whole, rest, scanFraction, scanExponent, List.append_nil, if_neg isNumber.1]
  simp [withSign, number]

theorem IsNumber.strnum {text : Text} (isNumber : IsNumber text) :
    strnum text = .number (nearest (number text)) := by
  rw [Shell.strnum, isNumber.scanNumber, ← toDouble_natCast]
  rfl

theorem IsNumber.awkInt {text : Text} (isNumber : IsNumber text) :
    awkInt text = nearest (number text) := by
  rw [Shell.awkInt, isNumber.scanNumber]
  simp only [toDouble_natCast]
  simp

/-! ### Agreement -/

theorem isSpace_of_isBlank {c : Char} (blank : isBlank c = true) : isSpace c = true := by
  simp only [isBlank, Bool.or_eq_true, beq_iff_eq] at blank
  rcases blank with (rfl | rfl) | rfl <;> rfl

theorem not_isDigit_of_isBlank {c : Char} (blank : isBlank c = true) : c.isDigit = false := by
  simp only [isBlank, Bool.or_eq_true, beq_iff_eq] at blank
  rcases blank with (rfl | rfl) | rfl <;> rfl

theorem isDigit_of_isOctal {c : Char} (octal : isOctal c = true) : c.isDigit = true := by
  simp only [isOctal, Bool.and_eq_true, decide_eq_true_iff] at octal
  simp only [Char.isDigit, Bool.and_eq_true, decide_eq_true_iff]
  exact ⟨octal.1, UInt32.le_trans octal.2 (by decide)⟩

theorem splitSign_append {text digits : Text} {negative : Bool}
    (split : splitSign text = (negative, digits)) (nonempty : text ≠ []) (after : Text) :
    splitSign (text ++ after) = (negative, digits ++ after) := by
  cases text with
  | nil => exact absurd rfl nonempty
  | cons c rest =>
    rw [List.cons_append]
    by_cases minus : c = '-'
    · subst minus
      obtain ⟨rfl, rfl⟩ := Prod.mk.inj split
      rfl
    · by_cases plus : c = '+'
      · subst plus
        obtain ⟨rfl, rfl⟩ := Prod.mk.inj split
        rfl
      · have unsigned : ∀ rest, splitSign (c :: rest) = (false, c :: rest) := by
          intro rest
          rw [splitSign]
          · exact fun tail same => minus (List.cons.inj same).1
          · exact fun tail same => plus (List.cons.inj same).1
        rw [unsigned] at split ⊢
        obtain ⟨rfl, rfl⟩ := Prod.mk.inj split
        rfl

/-- An integer for `[` is digits with or without a sign, between white space. -/
theorem testInt_eq_some {text : Text} {value : Int} (reads : testInt text = some value) :
    ∃ negative digits after, splitSign (text.dropWhile isSpace) = (negative, digits ++ after) ∧
      IsNumber digits ∧ (∀ c ∈ after, isBlank c = true) ∧
      value = withSign negative (number digits) := by
  rw [testInt] at reads
  split at reads
  · rename_i word one
    obtain ⟨before, after, rfl, beforeBlank, afterBlank⟩ := eq_of_words_eq_singleton one
    cases split : splitSign (word.dropWhile isSpace) with
    | mk negative digits =>
      rw [split] at reads
      simp only at reads
      split at reads
      · rename_i isInt
        obtain ⟨nonempty, isDigits, _⟩ := isInt
        have starts : word.dropWhile isSpace ≠ [] := by
          intro none
          rw [none] at split
          exact nonempty (Prod.mk.inj split).2.symm
        refine ⟨negative, digits, after, ?_, ⟨nonempty, List.all_eq_true.mp isDigits⟩, afterBlank,
          (Option.some.inj reads).symm⟩
        rw [List.dropWhile_append_of_pos fun c member => isSpace_of_isBlank (beforeBlank c member),
          List.dropWhile_append, if_neg (by simpa using starts)]
        exact splitSign_append split starts after
      · cases reads
  · cases reads

theorem le_ofDigitChars (digits : Text) (start : Nat) :
    start ≤ Nat.ofDigitChars 10 digits start := by
  induction digits generalizing start with
  | nil => exact le_of_eq Nat.ofDigitChars_nil.symm
  | cons c rest inductionHypothesis =>
    rw [Nat.ofDigitChars_cons]
    exact le_trans (by omega) (inductionHypothesis _)

/-- The octal number at the head of a text is not above the decimal one. -/
theorem ofDigitChars_octal_le (text : Text) {start start' : Nat} (le : start ≤ start') :
    Nat.ofDigitChars 8 (text.takeWhile isOctal) start ≤
      Nat.ofDigitChars 10 (text.takeWhile Char.isDigit) start' := by
  induction text generalizing start start' with
  | nil => rwa [List.takeWhile_nil, List.takeWhile_nil, Nat.ofDigitChars_nil, Nat.ofDigitChars_nil]
  | cons c rest inductionHypothesis =>
    by_cases octal : isOctal c = true
    · rw [List.takeWhile_cons_of_pos octal, List.takeWhile_cons_of_pos (isDigit_of_isOctal octal),
        Nat.ofDigitChars_cons, Nat.ofDigitChars_cons]
      exact inductionHypothesis (by omega)
    · rw [List.takeWhile_cons_of_neg octal, Nat.ofDigitChars_nil]
      exact le.trans (le_ofDigitChars _ _)

theorem takeWhile_isDigit_append {digits after : Text} (isNumber : IsNumber digits)
    (blank : ∀ c ∈ after, isBlank c = true) :
    (digits ++ after).takeWhile Char.isDigit = digits := by
  rw [List.takeWhile_append_of_pos isNumber.2]
  cases after with
  | nil => exact List.append_nil digits
  | cons c rest =>
    rw [List.takeWhile_cons_of_neg, List.append_nil]
    rw [not_isDigit_of_isBlank (blank c List.mem_cons_self)]
    exact Bool.false_ne_true

/-- awk reads the double that is nearest to the integer that `[` reads. -/
theorem strnum_of_testInt {text : Text} {value : Int} (reads : testInt text = some value) :
    strnum text = .number (toDouble value) := by
  obtain ⟨negative, digits, after, split, isNumber, blank, rfl⟩ := testInt_eq_some reads
  have whole := takeWhile_isDigit_append isNumber blank
  have behind : (digits ++ after).dropWhile Char.isDigit = after := by
    have both := List.takeWhile_append_dropWhile (p := Char.isDigit) (l := digits ++ after)
    rw [whole] at both
    exact List.append_cancel_left both
  have noFraction : scanFraction after = ([], after) := by
    cases after with
    | nil => rfl
    | cons c rest =>
      rw [scanFraction]
      rintro tail same
      cases (List.cons.inj same).1 ▸ blank c List.mem_cons_self
  have noExponent : scanExponent after = (0, after) := by
    cases after with
    | nil => rfl
    | cons c rest =>
      rw [scanExponent]
      refine if_neg fun isExponent => ?_
      have isBlank := blank c List.mem_cons_self
      rcases isExponent.1 with rfl | rfl <;> cases isBlank
  have space : after.all isSpace = true :=
    List.all_eq_true.mpr fun c member => isSpace_of_isBlank (blank c member)
  rw [strnum, scanNumber, split]
  simp only [whole, behind, noFraction, noExponent, List.append_nil, if_neg isNumber.1, space,
    if_true]
  simp [number]

theorem mem_of_splitSign {text rest : Text} {negative : Bool}
    (split : splitSign text = (negative, rest)) {c : Char} (member : c ∈ text) :
    c ∈ rest ∨ c = '-' ∨ c = '+' := by
  rw [splitSign.eq_def] at split
  split at split
  · obtain ⟨_, rfl⟩ := Prod.mk.inj split
    exact (List.mem_cons.mp member).symm.imp_right Or.inl
  · obtain ⟨_, rfl⟩ := Prod.mk.inj split
    exact (List.mem_cons.mp member).symm.imp_right Or.inr
  · obtain ⟨_, rfl⟩ := Prod.mk.inj split
    exact Or.inl member

/-- An integer for `[` has no other characters than digits, signs and white space. -/
theorem not_mem_of_testInt {text : Text} {value : Int} (reads : testInt text = some value)
    {c : Char} (noDigit : c.isDigit = false) (noSign : c ≠ '-' ∧ c ≠ '+')
    (noSpace : isSpace c = false) : c ∉ text := by
  obtain ⟨negative, digits, after, split, isNumber, blank, rfl⟩ := testInt_eq_some reads
  intro member
  rw [← List.takeWhile_append_dropWhile (p := isSpace) (l := text), List.mem_append] at member
  rcases member with before | behind
  · rw [List.mem_takeWhile_imp before] at noSpace
    cases noSpace
  · rcases mem_of_splitSign split behind with inside | minus | plus
    · rcases List.mem_append.mp inside with digit | isAfter
      · exact ne_of_isDigit (isNumber.2 c digit) noDigit rfl
      · rw [isSpace_of_isBlank (blank c isAfter)] at noSpace
        cases noSpace
    · exact noSign.1 minus
    · exact noSign.2 plus

/-- `printf` prints for a text at most the number that `[` sees in it. -/
theorem printfInt_le {text : Text} {value : Int} (reads : testInt text = some value)
    (nonneg : 0 ≤ value) : 0 ≤ (printfInt text).1 ∧ (printfInt text).1 ≤ value := by
  obtain ⟨negative, digits, after, split, isNumber, blank, rfl⟩ := testInt_eq_some reads
  have decimalEq := takeWhile_isDigit_append isNumber blank
  have octalLe := ofDigitChars_octal_le (digits ++ after) (le_refl 0)
  rw [decimalEq] at octalLe
  have bound : ∃ printed, (printfInt text).1 = withSign negative printed ∧
      printed ≤ number digits := by
    rw [printfInt, split]
    simp only
    split
    · exact ⟨_, rfl, octalLe⟩
    · exact ⟨_, rfl, le_of_eq (congrArg (digitsValue 10) decimalEq)⟩
  obtain ⟨printed, same, le⟩ := bound
  rw [same]
  cases negative with
  | false => exact ⟨Int.natCast_nonneg printed, Int.ofNat_le.mpr le⟩
  | true =>
    simp only [withSign, if_true] at nonneg ⊢
    omega

end Shell
