/-
This file has what the Python scripts do with texts: they read the lines of a file, strip blanks,
split a text at a character and read numbers.

The scripts run with Python 2 and with Python 3. A character of a text stands for a byte, or for
what Python 3 makes of the bytes of a file: a character, or a byte that it cannot decode. Python 2
keeps all bytes, ends a line at its newline only and knows the blanks of ASCII.
-/

import Buildroot4G.Shell.Awk
import Buildroot4G.Shell.Number

namespace Shell

/-- What the versions of Python do with a text in their own ways. -/
structure Python where
  /-- The characters that can be decoded. -/
  decodes : Char → Bool
  /-- Whether a carriage return ends a line, too. -/
  universal : Bool
  /-- The blanks that `strip` takes away. -/
  blank : Char → Bool
  decodes_ascii : ∀ c, c.toNat < 128 → decodes c = true
  blank_of_isSpace : ∀ c, isSpace c = true → blank c = true
  graphic : ∀ c, 32 < c.toNat → c.toNat < 127 → blank c = false

/-- `text.rstrip()`. -/
def rstrip (blank : Char → Bool) (text : Text) : Text := (text.reverse.dropWhile blank).reverse

/-- `text.strip()`. -/
def strip (blank : Char → Bool) (text : Text) : Text := rstrip blank (text.dropWhile blank)

/-- The lines of a file, without their newlines. -/
def fileLines (text : Text) : List Text :=
  let pieces := text.splitOn '\n'
  if pieces.getLast? = some [] then pieces.dropLast else pieces

/-- Universal newlines: a carriage return becomes a newline, or goes where a newline is behind
it. -/
def translate : Text → Text
  | [] => []
  | c :: rest =>
    if c = '\r' then
      if rest.head? = some '\n' then translate rest else '\n' :: translate rest
    else c :: translate rest

/-- The lines that the interpreter makes of a text that it can decode. -/
def Python.lines (python : Python) (text : Text) : List Text :=
  fileLines (if python.universal then translate text else text)

/-- `file.readlines()`, which raises an exception when a byte cannot be decoded. -/
def Python.readlines (python : Python) (text : Text) : Option (List Text) :=
  if text.all python.decodes then some (python.lines text) else none

def python2 : Python where
  decodes := fun _ => true
  universal := false
  blank := isSpace
  decodes_ascii := fun _ _ => rfl
  blank_of_isSpace := fun _ blank => blank
  graphic := by
    intro c above below
    have plain : ∀ d : Char, d.toNat ≤ 32 → c ≠ d := fun d small same => by
      rw [same] at above
      omega
    simp [isSpace, plain]

/-- Python 3 in the locale C, where the characters are those of ASCII. -/
def python3 : Python where
  decodes := fun c => c.toNat < 128
  universal := true
  blank := fun c => isSpace c || decide (0x1c ≤ c.toNat ∧ c.toNat ≤ 0x1f)
  decodes_ascii := fun _ small => decide_eq_true small
  blank_of_isSpace := fun _ blank => by rw [blank, Bool.true_or]
  graphic := fun c above below => by
    have notBlank : isSpace c = false := python2.graphic c above below
    rw [notBlank, Bool.false_or, decide_eq_false_iff_not]
    omega

instance (text : Text) : Decidable (IsNumber text) :=
  @instDecidableAnd _ _ inferInstance (List.decidableBAll (fun c => c.isDigit = true) text)

/-- `int(text)`, which raises an exception when the text is no number. -/
def readInt (text : Text) : Option ℤ :=
  let signed := splitSign text
  if IsNumber signed.2 then some (withSign signed.1 (number signed.2)) else none

/-- A row that `csv.reader` makes of a line: what is in quotes is read in another way. -/
def csvRow (quoted : Text → List Text) (delimiter : Char) (line : Text) : List Text :=
  if '"' ∈ line then quoted line else line.splitOn delimiter

/-! ### Texts that are read back -/

theorem fileLines_flatMap {α : Type} (line : α → Text) {items : List α}
    (plain : ∀ item ∈ items, '\n' ∉ line item) :
    fileLines (items.flatMap fun item => line item ++ ['\n']) = items.map line := by
  rw [fileLines, splitOn_flatMap_lines line plain]
  simp

theorem length_splitOn (delimiter : Char) (text : Text) :
    (text.splitOn delimiter).length = text.count delimiter + 1 := by
  induction text with
  | nil => rfl
  | cons c rest inductionHypothesis =>
    rw [List.splitOn_cons_eq_if_modifyHead, List.count_cons]
    split
    · rw [List.length_cons, inductionHypothesis]
    · rw [List.length_modifyHead, inductionHypothesis, Nat.add_zero]

theorem csvRow_of_not_mem {line : Text} (unquoted : '"' ∉ line) (quoted : Text → List Text)
    (delimiter : Char) : csvRow quoted delimiter line = line.splitOn delimiter := if_neg unquoted

section Strip

variable {blank : Char → Bool}

theorem rstrip_append {text blanks : Text} (areBlank : ∀ c ∈ blanks, blank c = true)
    (ends : ∀ c ∈ text.getLast?, blank c = false) : rstrip blank (text ++ blanks) = text := by
  rw [rstrip, List.reverse_append, List.dropWhile_append_of_pos
    fun c inside => areBlank c (List.mem_reverse.mp inside)]
  rcases List.eq_nil_or_concat text with rfl | ⟨front, c, rfl⟩
  · rfl
  · have notBlank : blank c = false := ends c (by simp)
    rw [List.concat_eq_append, List.reverse_append, List.reverse_singleton, List.singleton_append,
      List.dropWhile_cons_of_neg (by rw [notBlank]; exact Bool.false_ne_true), List.reverse_cons,
      List.reverse_reverse]

theorem rstrip_cons {c : Char} (notBlank : blank c = false) (rest : Text) :
    rstrip blank (c :: rest) = c :: rstrip blank rest := by
  have stops : [c].dropWhile blank = [c] :=
    List.dropWhile_cons_of_neg (by rw [notBlank]; exact Bool.false_ne_true)
  rw [rstrip, List.reverse_cons, List.dropWhile_append, rstrip]
  cases rest.reverse.dropWhile blank with
  | nil => rw [List.isEmpty_nil, if_pos rfl, stops]; rfl
  | cons d before => rw [List.isEmpty_cons, if_neg Bool.false_ne_true, List.reverse_append]; rfl

/-- The blanks that `rstrip` takes away. -/
theorem exists_rstrip (blank : Char → Bool) (text : Text) :
    ∃ blanks, (∀ c ∈ blanks, blank c = true) ∧ text = rstrip blank text ++ blanks := by
  refine ⟨(text.reverse.takeWhile blank).reverse, fun c inside => ?_, ?_⟩
  · exact List.mem_takeWhile_imp (List.mem_reverse.mp inside)
  · rw [rstrip, ← List.reverse_append, List.takeWhile_append_dropWhile, List.reverse_reverse]

/-- Blanks around a text without blanks at its ends. -/
theorem strip_append {before text after : Text} (blankBefore : ∀ c ∈ before, blank c = true)
    (blankAfter : ∀ c ∈ after, blank c = true) (begins : ∀ c ∈ text.head?, blank c = false)
    (ends : ∀ c ∈ text.getLast?, blank c = false) :
    strip blank (before ++ text ++ after) = text := by
  rw [strip, List.append_assoc, List.dropWhile_append_of_pos blankBefore]
  cases text with
  | nil =>
    have noBlank : after.dropWhile blank = [] := List.dropWhile_eq_nil_iff.mpr blankAfter
    rw [List.nil_append, noBlank]
    rfl
  | cons c rest =>
    rw [List.cons_append,
      List.dropWhile_cons_of_neg (by rw [begins c rfl]; exact Bool.false_ne_true)]
    exact rstrip_append blankAfter ends

end Strip

/-! ### The lines of a text -/

theorem fileLines_append (text rest : Text) :
    fileLines (text ++ '\n' :: rest) = text.splitOn '\n' ++ fileLines rest := by
  have nonempty : rest.splitOn '\n' ≠ [] := List.splitOn_ne_nil _ _
  rw [fileLines, fileLines, List.splitOn_append_cons_self]
  simp only [List.getLast?_append_of_ne_nil _ nonempty]
  split
  · exact List.dropLast_append_of_ne_nil nonempty
  · rfl

theorem fileLines_ended (text : Text) : fileLines (text ++ ['\n']) = text.splitOn '\n' :=
  (fileLines_append text []).trans (List.append_nil _)

/-- A newline is the end of a line whatever is in front of it. -/
theorem translate_append (text rest : Text) :
    translate (text ++ '\n' :: rest) = translate (text ++ ['\n']) ++ translate rest := by
  induction text with
  | nil => rfl
  | cons c text inductionHypothesis =>
    have sameHead : (text ++ '\n' :: rest).head? = (text ++ ['\n']).head? := by
      cases text <;> rfl
    rw [List.cons_append, List.cons_append, translate, translate, sameHead, inductionHypothesis]
    split_ifs <;> rfl

/-- A text that ends with a newline still does. -/
theorem exists_translate (text : Text) :
    ∃ front, translate (text ++ ['\n']) = front ++ ['\n'] := by
  induction text with
  | nil => exact ⟨[], rfl⟩
  | cons c text inductionHypothesis =>
    obtain ⟨front, isFront⟩ := inductionHypothesis
    rw [List.cons_append, translate, isFront]
    split_ifs
    · exact ⟨front, rfl⟩
    · exact ⟨'\n' :: front, rfl⟩
    · exact ⟨c :: front, rfl⟩

theorem translate_plain_append {front : Text} (plain : '\r' ∉ front) (text : Text) :
    translate (front ++ text) = front ++ translate text := by
  induction front with
  | nil => rfl
  | cons c front inductionHypothesis =>
    obtain ⟨here, later⟩ := not_or.mp (List.mem_cons.not.mp plain)
    rw [List.cons_append, translate, if_neg (Ne.symm here), inductionHypothesis later]
    rfl

theorem Python.lines_append (python : Python) (text rest : Text) :
    python.lines (text ++ '\n' :: rest) = python.lines (text ++ ['\n']) ++ python.lines rest := by
  rw [Python.lines, Python.lines, Python.lines]
  split
  · obtain ⟨front, isFront⟩ := exists_translate text
    rw [translate_append, isFront, fileLines_ended, List.append_assoc, List.singleton_append,
      fileLines_append]
  · rw [fileLines_append, fileLines_ended]

/-- Texts with their ends are read one by one. -/
theorem Python.lines_flatMap (python : Python) (texts : List Text) :
    python.lines (texts.flatMap fun text => text ++ ['\n']) =
      texts.flatMap fun text => python.lines (text ++ ['\n']) := by
  induction texts with
  | nil =>
    rw [List.flatMap_nil, List.flatMap_nil, Python.lines]
    split <;> rfl
  | cons text texts inductionHypothesis =>
    rw [List.flatMap_cons, List.flatMap_cons, List.append_assoc, List.singleton_append,
      Python.lines_append, inductionHypothesis]

theorem splitOn_plain_append {delimiter : Char} {front : Text} (plain : delimiter ∉ front)
    (text : Text) :
    (front ++ text).splitOn delimiter =
      (text.splitOn delimiter).modifyHead fun first => front ++ first := by
  induction front with
  | nil => exact (congrFun List.modifyHead_id _).symm
  | cons c front inductionHypothesis =>
    obtain ⟨here, later⟩ := not_or.mp (List.mem_cons.not.mp plain)
    have notHere : (c == delimiter) = false := beq_eq_false_iff_ne.mpr (Ne.symm here)
    rw [List.cons_append, List.splitOn_cons_eq_if_modifyHead, notHere,
      inductionHypothesis later]
    exact List.modifyHead_modifyHead

/-- The lines of a text with its end are the pieces of a text. -/
theorem Python.exists_lines (python : Python) (text : Text) :
    ∃ front, python.lines (text ++ ['\n']) = front.splitOn '\n' ∧
      ∀ plain : Text, '\r' ∉ plain →
        python.lines (plain ++ (text ++ ['\n'])) = (plain ++ front).splitOn '\n' := by
  simp only [Python.lines]
  cases python.universal with
  | false =>
    refine ⟨text, fileLines_ended text, fun plain _ => ?_⟩
    rw [← List.append_assoc]
    exact fileLines_ended _
  | true =>
    obtain ⟨front, isFront⟩ := exists_translate text
    refine ⟨front, ?_, fun plain noReturn => ?_⟩
    · rw [if_pos rfl, isFront, fileLines_ended]
    · rw [if_pos rfl, translate_plain_append noReturn, isFront, ← List.append_assoc,
        fileLines_ended]

theorem Python.lines_ended_ne_nil (python : Python) (text : Text) :
    python.lines (text ++ ['\n']) ≠ [] := by
  obtain ⟨front, isFront, -⟩ := python.exists_lines text
  rw [isFront]
  exact List.splitOn_ne_nil _ _

/-- A text without the characters that end lines comes in front of the first line. -/
theorem Python.lines_plain_append (python : Python) {plain : Text} (noNewline : '\n' ∉ plain)
    (noReturn : '\r' ∉ plain) (text : Text) :
    python.lines (plain ++ (text ++ ['\n'])) =
      (python.lines (text ++ ['\n'])).modifyHead fun first => plain ++ first := by
  obtain ⟨front, isFront, inFront⟩ := python.exists_lines text
  rw [inFront plain noReturn, isFront, splitOn_plain_append noNewline]

/-- A text without the characters that end lines is one line. -/
theorem Python.lines_plain (python : Python) {plain : Text} (noNewline : '\n' ∉ plain)
    (noReturn : '\r' ∉ plain) : python.lines (plain ++ ['\n']) = [plain] := by
  have whole := python.lines_plain_append noNewline noReturn []
  rw [List.nil_append] at whole
  rw [whole]
  have line : python.lines ['\n'] = [[]] := by
    rw [Python.lines]
    split <;> rfl
  rw [line, List.modifyHead_cons, List.append_nil]

theorem readInt_decimal (number : ℕ) : readInt (decimal number) = some (number : ℤ) := by
  have isNumber := isNumber_decimal number
  rw [readInt, isNumber.splitSign]
  simp only
  rw [if_pos isNumber, number_decimal]
  rfl

end Shell
