/-
This file reads the lines that `conf_write` wrote, one by one. The line of a symbol gives it the
value that it had, a string with its quotes and backslashes; a comment is nothing, unless it reads
as a symbol that is not set.
-/

import Buildroot4G.Kconf.Read

namespace Buildroot4G.Kconf

open Shell

variable {ν : Type} [DecidableEq ν]

/-! ### The lines of a file -/

omit [DecidableEq ν] in
theorem getLines_append {line : Text} (oneLine : '\n' ∉ line) (before rest : Text) :
    getLines before (line ++ '\n' :: rest) = (before ++ endLine line) :: getLines [] rest := by
  induction line generalizing before with
  | nil => exact if_pos rfl
  | cons c line inductionHypothesis =>
    simp only [List.mem_cons, not_or] at oneLine
    rw [List.cons_append, getLines, if_neg (Ne.symm oneLine.1), inductionHypothesis oneLine.2,
      endLine, endLine, List.append_assoc]
    rfl

theorem getLines_flatMap {lines : List Text} (oneLine : ∀ line ∈ lines, '\n' ∉ line) :
    getLines [] (lines.flatMap endLine) = lines.map endLine := by
  induction lines with
  | nil => rfl
  | cons line lines inductionHypothesis =>
    rw [List.flatMap_cons, endLine, List.append_assoc]
    refine (getLines_append (oneLine line List.mem_cons_self) [] _).trans ?_
    exact congrArg (endLine line :: ·) (inductionHypothesis fun other member =>
      oneLine other (List.mem_cons_of_mem _ member))

variable (symbols : Symbols ν) (config : Text) (values : Values symbols.toTable)

/-- Symbols of two types are never written. -/
def SymbolType.isPrinted : SymbolType → Bool
  | .other => false
  | .unknown => false
  | _ => true

/-- The text of a value in a line. -/
def printedValue (sym : ν) : Text :=
  if symbols.type sym = .string then escape (Symbol.stringValue values (.entry sym))
  else Symbol.stringValue values (.entry sym)

/-- The lines for an entry. -/
def entryLines : Entry ν → List Text
  | .title prompt _ => [[], "#".toList, "# ".toList ++ prompt, "#".toList]
  | .symbol sym =>
    if (symbols.type sym).isPrinted then
      [printSymbol config (symbols.name sym) (symbols.type sym) (printedValue symbols values sym)]
    else []

/-- The entries for which something is written. -/
def written : List (Entry ν) → (ν → Bool) → List (Entry ν)
  | [], _ => []
  | .title prompt visible :: rest, writes =>
    if visible then .title prompt visible :: written rest writes else written rest writes
  | .symbol sym :: rest, writes =>
    if symbols.isChoice sym ∨ ¬writes sym then written rest writes
    else .symbol sym :: written rest (Function.update writes sym false)

omit [DecidableEq ν] in
theorem writeSymbol_eq (sym : ν) :
    writeSymbol symbols config values sym =
      (entryLines symbols config values (.symbol sym)).flatMap endLine := by
  simp only [writeSymbol, entryLines, printedValue]
  cases symbols.type sym <;> simp [SymbolType.isPrinted]

theorem writeEntries_eq (entries : List (Entry ν)) (writes : ν → Bool) :
    writeEntries symbols config values entries writes =
      ((written symbols entries writes).flatMap (entryLines symbols config values)).flatMap
        endLine := by
  induction entries generalizing writes with
  | nil => rfl
  | cons entry rest inductionHypothesis =>
    rw [writeEntries]
    cases entry with
    | title prompt visible =>
      rw [inductionHypothesis, written]
      cases visible with
      | true => simp [writeEntry, entryLines, endLine]
      | false => rfl
    | symbol sym =>
      rw [written, writeEntry]
      split
      · exact inductionHypothesis _
      · rw [List.flatMap_cons, List.flatMap_append, ← writeSymbol_eq, ← inductionHypothesis]

/-! ### One line -/

section Lines

omit [DecidableEq ν]

theorem cut_append {c : Char} {before : Text} (lacks : c ∉ before) (rest : Text) :
    cut c (before ++ c :: rest) = some (before, rest) := by
  have differs : ∀ d ∈ before, decide (d ≠ c) = true := fun d member =>
    decide_eq_true fun same => lacks (same ▸ member)
  rw [cut, if_pos (List.mem_append_right _ List.mem_cons_self),
    List.takeWhile_append_of_pos differs, List.dropWhile_append_of_pos differs,
    List.takeWhile_cons_of_neg (by simp), List.dropWhile_cons_of_neg (by simp), List.append_nil]
  rfl

theorem cut_of_not_mem {c : Char} {text : Text} (lacks : c ∉ text) : cut c text = none :=
  if_neg lacks

/-- The code undoes the escapes that it wrote. -/
theorem unquote_escape (value rest : Text) :
    unquote ((value.flatMap fun c => if c = '"' ∨ c = '\\' then ['\\', c] else [c]) ++
      '"' :: rest) = some value := by
  induction value with
  | nil => rfl
  | cons c value inductionHypothesis =>
    rw [List.flatMap_cons, List.append_assoc]
    split
    · exact congrArg (Option.map (c :: ·)) inductionHypothesis
    · rename_i plain
      rw [not_or] at plain
      refine (unquote.eq_5 c _ plain.1 (fun _ _ same _ => plain.2 same) fun same => ?_).trans
        (congrArg (Option.map (c :: ·)) inductionHypothesis)
      exact absurd same plain.2

theorem chomp_endLine {value : Text} (oneLine : '\n' ∉ value)
    (noReturn : value.getLast? ≠ some '\r') : chomp (endLine value) = value := by
  rw [chomp, endLine, cut_append oneLine]
  exact if_neg noReturn

variable {config name : Text}

theorem unsetName_unset (config : Text) (noBlank : ' ' ∉ name) :
    unsetName config (endLine ("# ".toList ++ config ++ name ++ " is not set".toList)) =
      some name := by
  have rest : (endLine ("# ".toList ++ config ++ name ++ " is not set".toList)).drop 2 =
      config ++ (name ++ ' ' :: "is not set\n".toList) := by
    simp [endLine]
  rw [unsetName, rest, if_pos (List.prefix_append _ _), List.drop_left, cut_append noBlank]
  exact if_pos (by decide)

theorem setName_set (config : Text) (noEquals : '=' ∉ name) (value : Text) :
    setName config (endLine (config ++ name ++ "=".toList ++ value)) =
      some (name, chomp (endLine value)) := by
  have rest : (endLine (config ++ name ++ "=".toList ++ value)).drop config.length =
      name ++ '=' :: endLine value := by
    simp [endLine]
  rw [setName, rest, cut_append noEquals]

end Lines

/-! ### One symbol -/

/-- The value of a symbol that has none. -/
def unset : Def ν := { tri := .no, val := none, isSet := false }

/-- The value of a symbol that was written. -/
def stored (sym : ν) : Def ν where
  tri := values.tri sym
  val :=
    if symbols.type sym = .boolean ∨ symbols.type sym = .tristate then none
    else some (.inl (values.val sym))
  isSet := true

/-- A symbol that can be read back: it is found by its name, no character of which is one that the
lines are cut at, and its value is one of its type. -/
structure Readable (sym : ν) : Prop where
  found : symbols.find (symbols.name sym) = some sym
  plain : ∀ c ∈ config ++ symbols.name sym, c ≠ ' ' ∧ c ≠ '=' ∧ c ≠ '#' ∧ c ≠ '\n'
  string : symbols.type sym = .string → '\n' ∉ values.val sym
  number : symbols.type sym = .int ∨ symbols.type sym = .hex →
    stringValid (symbols.type sym) (values.val sym) = true

variable {symbols config values} {sym : ν} {reading : Reading ν}

/-- A line with a value is read as one. -/
theorem readLine_set (readable : Readable symbols config values sym) {value : Text}
    (oneLine : '\n' ∉ value) (noReturn : value.getLast? ≠ some '\r') (reading : Reading ν) :
    readLine symbols config reading (endLine (config ++ symbols.name sym ++ "=".toList ++ value)) =
      readValue symbols (symbols.name sym) value reading := by
  have noHash : (endLine (config ++ symbols.name sym ++ "=".toList ++ value)).head? ≠ some '#' := by
    intro hash
    cases first : config ++ symbols.name sym with
    | nil =>
      rw [first] at hash
      exact absurd hash (by decide : some '=' ≠ some '#')
    | cons c rest =>
      rw [first] at hash
      exact (readable.plain c (first ▸ List.mem_cons_self)).2.2.1 (Option.some.inj hash)
  have noEquals : '=' ∉ symbols.name sym := fun member =>
    (readable.plain '=' (List.mem_append_right _ member)).2.1 rfl
  have isPrefix : config <+: endLine (config ++ symbols.name sym ++ "=".toList ++ value) := by
    rw [endLine, List.append_assoc, List.append_assoc, List.append_assoc]
    exact List.prefix_append _ _
  rw [readLine, if_neg noHash, if_pos isPrefix, setName_set config noEquals,
    chomp_endLine oneLine noReturn]

omit [DecidableEq ν] in
theorem overrides_of_unset (fresh : reading.defs sym = unset) :
    overrides sym reading = reading := by
  rw [overrides, fresh]
  rfl

/-- A symbol without a value gets the one that is read. -/
theorem readValue_of_unset (found : symbols.find (symbols.name sym) = some sym)
    (fresh : reading.defs sym = unset) {value : Text} {new : Def ν}
    (valid : confSetSymVal (symbols.type sym) unset value = some new) :
    readValue symbols (symbols.name sym) value reading =
      setChoice symbols sym (reading.put sym new) := by
  rw [readValue, found]
  simp only [overrides_of_unset fresh, fresh, valid]

theorem readUnset_of_unset (found : symbols.find (symbols.name sym) = some sym)
    (fresh : reading.defs sym = unset)
    (isTri : symbols.type sym = .boolean ∨ symbols.type sym = .tristate) :
    readUnset symbols (symbols.name sym) reading =
      setChoice symbols sym (reading.put sym { tri := .no, val := none, isSet := true }) := by
  rw [readUnset, found]
  simp only [overrides_of_unset fresh, fresh, if_pos isTri]
  rfl

/-- A symbol with a truth value is read back. -/
theorem readLine_tri (readable : Readable symbols config values sym)
    (fresh : reading.defs sym = unset)
    (isTri : symbols.type sym = .boolean ∨ symbols.type sym = .tristate) :
    readLine symbols config reading (endLine (printSymbol config (symbols.name sym)
        (symbols.type sym) (values.tri sym).text)) =
      setChoice symbols sym (reading.put sym (stored symbols values sym)) := by
  have isStored : stored symbols values sym =
      { tri := values.tri sym, val := none, isSet := true } := by
    rw [stored, if_pos isTri]
  have noBlank : ' ' ∉ symbols.name sym := fun member =>
    (readable.plain ' ' (List.mem_append_right _ member)).1 rfl
  rw [isStored]
  cases value : values.tri sym with
  | no =>
    rw [printSymbol, if_pos ⟨isTri, rfl⟩]
    refine (if_pos rfl).trans ?_
    rw [unsetName_unset config noBlank]
    exact readUnset_of_unset readable.found fresh isTri
  | yes =>
    rw [printSymbol, if_neg (by rintro ⟨-, isNo⟩; cases isNo),
      readLine_set readable (by decide) (by decide)]
    refine readValue_of_unset readable.found fresh ?_
    rcases isTri with type | type <;> rw [type] <;> rfl
  | mod =>
    rw [printSymbol, if_neg (by rintro ⟨-, isNo⟩; cases isNo),
      readLine_set readable (by decide) (by decide)]
    refine readValue_of_unset readable.found fresh ?_
    rcases isTri with type | type
    · exact absurd value (values.boolean_ne sym type)
    · rw [type]
      rfl

theorem intValid_all {digits : Text} (valid : intValid digits = true) :
    ∀ c ∈ digits, c.isDigit = true := by
  cases digits with
  | nil => cases valid
  | cons d rest =>
    simp only [intValid, Bool.and_eq_true, List.all_eq_true] at valid
    intro c member
    rcases List.mem_cons.mp member with rfl | below
    · exact valid.1.1
    · exact valid.2 c below

/-- The characters of a number. -/
theorem mem_of_number {type : SymbolType} (isNumber : type = .int ∨ type = .hex) {value : Text}
    (valid : stringValid type value = true) {c : Char} (member : c ∈ value) :
    c.isDigit = true ∨ isHexDigit c = true ∨ c = '-' ∨ c = 'x' ∨ c = 'X' := by
  rcases isNumber with rfl | rfl
  · unfold stringValid at valid
    split at valid
    · contradiction
    · rcases List.mem_cons.mp member with rfl | below
      · exact Or.inr (Or.inr (Or.inl rfl))
      · exact Or.inl (intValid_all valid c below)
    · exact Or.inl (intValid_all valid c member)
    · contradiction
    · contradiction
  · simp only [stringValid, Bool.and_eq_true, List.all_eq_true] at valid
    split at valid
    · rename_i marked
      rw [← List.take_append_drop 2 value] at member
      rcases List.mem_append.mp member with first | rest
      · have marks : ∀ d ∈ "0x".toList ++ "0X".toList,
            d.isDigit = true ∨ isHexDigit d = true ∨ d = '-' ∨ d = 'x' ∨ d = 'X' := by decide
        rcases marked with isTake | isTake <;> rw [isTake] at first
        · exact marks c (List.mem_append_left _ first)
        · exact marks c (List.mem_append_right _ first)
      · exact Or.inr (Or.inl (valid.2 c rest))
    · exact Or.inr (Or.inl (valid.2 c member))

/-- No number has an end of a line. -/
theorem ne_of_number {type : SymbolType} (isNumber : type = .int ∨ type = .hex) {value : Text}
    (valid : stringValid type value = true) : ∀ c ∈ value, c ≠ '\n' ∧ c ≠ '\r' := by
  intro c member
  constructor <;> rintro rfl <;> exact absurd (mem_of_number isNumber valid member) (by decide)

omit [DecidableEq ν] in
theorem oneLine_escape {value : Text} (oneLine : '\n' ∉ value) : '\n' ∉ escape value := by
  simp only [escape, List.mem_append, List.mem_flatMap, not_or, not_exists, not_and]
  refine ⟨⟨by decide, fun c member inside => ?_⟩, by decide⟩
  have differs : c ≠ '\n' := fun same => oneLine (same ▸ member)
  split at inside
  · simp [Ne.symm differs] at inside
  · simp [Ne.symm differs] at inside

theorem readLine_string (readable : Readable symbols config values sym)
    (fresh : reading.defs sym = unset) (isString : symbols.type sym = .string) :
    readLine symbols config reading (endLine (printSymbol config (symbols.name sym)
        (symbols.type sym) (escape (values.val sym)))) =
      setChoice symbols sym (reading.put sym (stored symbols values sym)) := by
  have noTri : ¬(symbols.type sym = .boolean ∨ symbols.type sym = .tristate) := by
    rw [isString]
    decide
  have oneLine := oneLine_escape (readable.string isString)
  have noReturn : (escape (values.val sym)).getLast? ≠ some '\r' := by
    rw [escape, List.getLast?_append]
    show some '"' ≠ some '\r'
    decide
  rw [printSymbol, if_neg fun both => noTri both.1, readLine_set readable oneLine noReturn]
  refine readValue_of_unset readable.found fresh ?_
  have unquoted := unquote_escape (values.val sym) []
  have isStored : stored symbols values sym =
      { tri := .no, val := some (.inl (values.val sym)), isSet := true } := by
    rw [stored, if_neg noTri,
      values.untyped sym (by rw [isString]; decide) (by rw [isString]; decide)]
  rw [isString, isStored]
  exact congrArg (Option.bind · (setString .string unset)) unquoted

theorem readLine_number (readable : Readable symbols config values sym)
    (fresh : reading.defs sym = unset)
    (isNumber : symbols.type sym = .int ∨ symbols.type sym = .hex) :
    readLine symbols config reading (endLine (printSymbol config (symbols.name sym)
        (symbols.type sym) (values.val sym))) =
      setChoice symbols sym (reading.put sym (stored symbols values sym)) := by
  have plain := ne_of_number isNumber (readable.number isNumber)
  have noTri : ¬(symbols.type sym = .boolean ∨ symbols.type sym = .tristate) := by
    rcases isNumber with type | type <;> rw [type] <;> decide
  rw [printSymbol, if_neg fun both => noTri both.1,
    readLine_set readable (fun member => (plain _ member).1 rfl)
      fun last => (plain _ (List.mem_of_getLast? last)).2 rfl]
  refine readValue_of_unset readable.found fresh ?_
  have valid := readable.number isNumber
  have isStored : stored symbols values sym =
      { tri := .no, val := some (.inl (values.val sym)), isSet := true } := by
    rw [stored, if_neg noTri, values.untyped sym (fun type => noTri (Or.inl type))
      fun type => noTri (Or.inr type)]
  rw [isStored]
  rcases isNumber with type | type <;> rw [type] at valid ⊢ <;> exact if_pos valid

omit [DecidableEq ν] in
/-- What is written of a value: a truth value, a string or a number. -/
theorem printedValue_cases (printed : (symbols.type sym).isPrinted = true) :
    (symbols.type sym = .boolean ∨ symbols.type sym = .tristate) ∧
        printedValue symbols values sym = (values.tri sym).text ∨
      symbols.type sym = .string ∧ printedValue symbols values sym = escape (values.val sym) ∨
      (symbols.type sym = .int ∨ symbols.type sym = .hex) ∧
        printedValue symbols values sym = values.val sym := by
  have ofTri : ∀ isTri : symbols.type sym = .boolean ∨ symbols.type sym = .tristate,
      printedValue symbols values sym = (values.tri sym).text := by
    intro isTri
    have noString : symbols.type sym ≠ .string := by
      rcases isTri with type | type <;> rw [type] <;> decide
    rw [printedValue, if_neg noString]
    exact stringValue_eq values isTri
  have ofOther : ∀ noTri : ¬(symbols.type sym = .boolean ∨ symbols.type sym = .tristate),
      Symbol.stringValue values (.entry sym) = values.val sym := fun noTri => if_neg noTri
  cases type : symbols.type sym with
  | boolean => exact Or.inl ⟨Or.inl rfl, ofTri (Or.inl type)⟩
  | tristate => exact Or.inl ⟨Or.inr rfl, ofTri (Or.inr type)⟩
  | string =>
    refine Or.inr (Or.inl ⟨rfl, ?_⟩)
    rw [printedValue, if_pos type, ofOther (by rw [type]; decide)]
  | int =>
    refine Or.inr (Or.inr ⟨Or.inl rfl, ?_⟩)
    rw [printedValue, if_neg (by rw [type]; decide), ofOther (by rw [type]; decide)]
  | hex =>
    refine Or.inr (Or.inr ⟨Or.inr rfl, ?_⟩)
    rw [printedValue, if_neg (by rw [type]; decide), ofOther (by rw [type]; decide)]
  | unknown =>
    rw [type] at printed
    cases printed
  | other =>
    rw [type] at printed
    cases printed

/-- Every symbol that is written is read back. -/
theorem readLine_printSymbol (readable : Readable symbols config values sym)
    (fresh : reading.defs sym = unset) (printed : (symbols.type sym).isPrinted = true) :
    readLine symbols config reading (endLine (printSymbol config (symbols.name sym)
        (symbols.type sym) (printedValue symbols values sym))) =
      setChoice symbols sym (reading.put sym (stored symbols values sym)) := by
  rcases printedValue_cases printed with ⟨isTri, value⟩ | ⟨isString, value⟩ | ⟨isNumber, value⟩ <;>
    rw [value]
  · exact readLine_tri readable fresh isTri
  · exact readLine_string readable fresh isString
  · exact readLine_number readable fresh isNumber

omit [DecidableEq ν] in
/-- The line of a symbol is one line. -/
theorem oneLine_printSymbol (readable : Readable symbols config values sym)
    (printed : (symbols.type sym).isPrinted = true) :
    '\n' ∉ printSymbol config (symbols.name sym) (symbols.type sym)
      (printedValue symbols values sym) := by
  have noNewline : '\n' ∉ config ++ symbols.name sym := fun member =>
    (readable.plain '\n' member).2.2.2 rfl
  have ofValue : '\n' ∉ printedValue symbols values sym := by
    rcases printedValue_cases printed with ⟨-, value⟩ | ⟨isString, value⟩ | ⟨isNumber, value⟩ <;>
      rw [value]
    · cases values.tri sym <;> decide
    · exact oneLine_escape (readable.string isString)
    · exact fun member => (ne_of_number isNumber (readable.number isNumber) _ member).1 rfl
  rw [List.mem_append, not_or] at noNewline
  rw [printSymbol]
  split
  · simp [noNewline]
  · simp [noNewline, ofValue]

/-- A comment that says of no symbol that it is not set. -/
def Remark (config text : Text) : Prop := '\n' ∉ text ∧ unsetName config (endLine text) = none

instance (config text : Text) : Decidable (Remark config text) :=
  inferInstanceAs (Decidable (_ ∧ _))

theorem readLine_remark {text : Text} (remark : Remark config text)
    (isComment : text.head? = some '#') (reading : Reading ν) :
    readLine symbols config reading (endLine text) = reading := by
  have hash : (endLine text).head? = some '#' := by
    cases text with
    | nil => cases isComment
    | cons c rest => exact isComment
  rw [readLine, if_pos hash, remark.2]

theorem remark_hash (config : Text) : Remark config "#".toList := by
  refine ⟨by decide, ?_⟩
  rw [unsetName]
  split
  · rw [cut_of_not_mem (by simp [endLine])]
  · rfl

/-- A blank line is nothing. -/
theorem readLine_blank (reading : Reading ν) :
    readLine symbols config reading (endLine []) = reading := by
  rw [readLine, if_neg (by decide)]
  split
  · rw [setName, cut_of_not_mem]
    intro member
    exact absurd (List.mem_of_mem_drop member) (by decide)
  · exact if_pos (Or.inr rfl)

end Buildroot4G.Kconf
