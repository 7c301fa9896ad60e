/-
This file compares what `package/makedevs/makedevs.c` uses for the ten columns of a line with what
the columns say. The main result says when they agree: `sscanf` stops at a dash in a number, and it
reads on within a column that is too long for it.
-/

import Buildroot4G.Makedevs.Buffers
import Mathlib.Data.List.GetD

namespace Buildroot4G.Makedevs

open Shell

/-! ### What the columns say -/

/-- The number that a word is: digits, behind a plus sign or nothing. -/
def numeral (base : ℕ) (isDigit : Char → Bool) (word : Text) : Option ℕ :=
  let digits := if word.head? = some '+' then word.tail else word
  if digits ≠ [] ∧ digits.all isDigit then some (digitsValue base digits) else none

/-- The column for the name, which the array for it has to hold. -/
def nameColumn (word : Text) : Option Text := if word.length ≤ 4095 then some word else none

def typeColumn : Text → Option Char
  | [type] => some type
  | _ => none

def modeColumn (word : Text) : Option Unsigned :=
  if word = ['-'] then some 0o755
  else
    match numeral 8 isOctal word with
    | none => none
    | some mode => if mode < 2 ^ 32 then some (BitVec.ofNat 32 mode) else none

/-- The columns for the user and the group: a blank one is for those of the process. -/
def idColumn (word : Text) : Option Text :=
  if word = ['-'] then some [] else if word.length ≤ 40 then some word else none

/-- The columns for numbers, which have 20 bits. -/
def numberColumn (word : Text) : Option Unsigned :=
  if word = ['-'] then some 0
  else
    match numeral 10 Char.isDigit word with
    | none => none
    | some number => if number ≤ 0xfffff then some (BitVec.ofNat 32 number) else none

/-- What a line of a table says, unless one of its columns is malformed or too long. -/
def tableEntry : List Text → Option Entry
  | [name, type, mode, user, group, major, minor, start, increment, count] => do
    let name ← nameColumn name
    let type ← typeColumn type
    let mode ← modeColumn mode
    let user ← idColumn user
    let group ← idColumn group
    let major ← numberColumn major
    let minor ← numberColumn minor
    let start ← numberColumn start
    let increment ← numberColumn increment
    let count ← numberColumn count
    some ⟨name, type, mode, user, group, major, minor, start, increment, count⟩
  | _ => none

/-- Behind a blank number there are only blank ones, or zeros. -/
def blanksLast : List Text → Bool
  | [] => true
  | word :: rest =>
    if word = ['-'] then rest.all fun other => numberColumn other = some 0 else blanksLast rest

/-- Columns that are blank only where `sscanf` may stop. -/
def readable : List Text → Bool
  | [_, _, mode, user, group, major, minor, start, increment, count] =>
    decide (mode ≠ ['-'] ∧ user ≠ ['-'] ∧ group ≠ ['-']) &&
      blanksLast [major, minor, start, increment, count]
  | _ => false

/-! ### Columns -/

/-- A text ends, or it goes on with a space. -/
def Ends (text : Text) : Prop := ∀ c ∈ text.head?, isSpace c = true

/-- A word without spaces. -/
def IsColumn (word : Text) : Prop := word ≠ [] ∧ ∀ c ∈ word, isSpace c = false

section Columns

variable {line text word after : Text} {rest : List Text}

theorem columns_cons_space {c : Char} (space : isSpace c = true) (text : Text) :
    columns (c :: text) = columns text := by
  have cut := List.splitOnP_append_cons (p := isSpace) [] text space
  rw [List.nil_append] at cut
  rw [columns, cut, List.filter_append]
  rfl

theorem columns_dropWhile (text : Text) : columns (text.dropWhile isSpace) = columns text := by
  induction text with
  | nil => rfl
  | cons c text inductionHypothesis =>
    by_cases space : isSpace c = true
    · rw [List.dropWhile_cons_of_pos space, inductionHypothesis, columns_cons_space space]
    · rw [List.dropWhile_cons_of_neg space]

theorem columns_append (isColumn : IsColumn word) (ends : Ends after) :
    columns (word ++ after) = word :: columns after := by
  have own : [word].filter (fun word => !word.isEmpty) = [word] := by
    rw [List.filter_cons_of_pos]
    · rfl
    · simpa using isColumn.1
  cases after with
  | nil =>
    rw [List.append_nil, columns, List.splitOnP_eq_singleton isColumn.2, own]
    rfl
  | cons c after =>
    have space : isSpace c = true := ends c rfl
    rw [columns_cons_space space, columns, List.splitOnP_append_cons word after space,
      List.splitOnP_eq_singleton isColumn.2, List.filter_append, own]
    rfl

/-- A text with columns begins, behind spaces, with the first one. -/
theorem columns_eq_cons (has : columns line = word :: rest) :
    ∃ after, line.dropWhile isSpace = word ++ after ∧ IsColumn word ∧ Ends after ∧
      columns after = rest := by
  rw [← columns_dropWhile] at has
  have noSpace : ∀ c ∈ (line.dropWhile isSpace).head?, isSpace c = false := by
    intro c isHead
    have dropped := List.head?_dropWhile_not isSpace line
    rw [isHead] at dropped
    exact Bool.eq_false_iff.mpr (by simpa using dropped)
  generalize line.dropWhile isSpace = text at has noSpace ⊢
  have parts := List.takeWhile_append_dropWhile (p := fun c => !isSpace c) (l := text)
  have isColumn : text ≠ [] → IsColumn (text.takeWhile fun c => !isSpace c) := by
    intro nonempty
    refine ⟨fun none => ?_, fun c member => by simpa using List.mem_takeWhile_imp member⟩
    obtain ⟨c, more, rfl⟩ := List.exists_cons_of_ne_nil nonempty
    have first := noSpace c rfl
    simp [first] at none
  have ends : Ends (text.dropWhile fun c => !isSpace c) := by
    intro c isHead
    have dropped := List.head?_dropWhile_not (fun c => !isSpace c) text
    rw [isHead] at dropped
    simpa using dropped
  have nonempty : text ≠ [] := by
    rintro rfl
    cases has
  rw [← parts, columns_append (isColumn nonempty) ends] at has
  obtain ⟨rfl, rfl⟩ := List.cons.inj has
  exact ⟨_, parts.symm, isColumn nonempty, ends, rfl⟩

theorem takeWhile_column (isColumn : IsColumn word) (ends : Ends after) :
    (word ++ after).takeWhile (fun c => !isSpace c) = word := by
  rw [List.takeWhile_append_of_pos fun c member => by simp [isColumn.2 c member]]
  cases after with
  | nil => rw [List.takeWhile_nil, List.append_nil]
  | cons c after =>
    have space : isSpace c = true := ends c rfl
    rw [List.takeWhile_cons_of_neg (by simp [space]), List.append_nil]

/-- `%40s` reads the column as far as its width goes. -/
theorem scanWord_column {width : ℕ} (positive : width ≠ 0)
    (starts : line.dropWhile isSpace = word ++ after) (isColumn : IsColumn word)
    (ends : Ends after) :
    scanWord width line = some (word.take width, word.drop width ++ after) := by
  have nonempty : word.take width ≠ [] := by
    rw [Ne, List.take_eq_nil_iff]
    exact not_or.mpr ⟨positive, isColumn.1⟩
  rw [scanWord, starts, takeWhile_column isColumn ends]
  simp only [if_neg nonempty, List.length_take]
  rcases Nat.le_total width word.length with short | long
  · rw [Nat.min_eq_left short, List.drop_append_of_le_length short]
  · rw [Nat.min_eq_right long, List.drop_left, List.drop_eq_nil_of_le long, List.nil_append]

theorem scanWord_column_of_le {width : ℕ} (positive : width ≠ 0) (short : word.length ≤ width)
    (starts : line.dropWhile isSpace = word ++ after) (isColumn : IsColumn word)
    (ends : Ends after) : scanWord width line = some (word, after) := by
  rw [scanWord_column positive starts isColumn ends, List.take_of_length_le short,
    List.drop_eq_nil_of_le short, List.nil_append]

end Columns

/-! ### Numbers -/

section Numbers

variable {base : ℕ} {isDigit : Char → Bool} {line word after : Text}

theorem takeWhile_digits (sub : ∀ c, isDigit c = true → c.isDigit = true) {digits : Text}
    (all : digits.all isDigit = true) (ends : Ends after) :
    (digits ++ after).takeWhile isDigit = digits ∧ (digits ++ after).dropWhile isDigit = after := by
  have digit : ∀ c ∈ digits, isDigit c = true := List.all_eq_true.mp all
  rw [List.takeWhile_append_of_pos digit, List.dropWhile_append_of_pos digit]
  cases after with
  | nil => exact ⟨List.append_nil _, rfl⟩
  | cons c after =>
    have noDigit : ¬ isDigit c = true := by
      intro isDigitC
      have noSpace := not_isSpace_of_isDigit (sub c isDigitC)
      rw [ends c rfl] at noSpace
      cases noSpace
    rw [List.takeWhile_cons_of_neg noDigit, List.dropWhile_cons_of_neg noDigit]
    exact ⟨List.append_nil _, rfl⟩

/-- `strtoul` reads a column that is a number. -/
theorem strtoul_of_numeral (sub : ∀ c, isDigit c = true → c.isDigit = true) {number : ℕ}
    (reads : numeral base isDigit word = some number) (small : number < 2 ^ 64)
    (starts : line.dropWhile isSpace = word ++ after) (ends : Ends after) :
    strtoul base isDigit line = some (BitVec.ofNat 64 number, after) := by
  obtain ⟨digits, sign, nonempty, all, rfl⟩ : ∃ digits, splitSign (word ++ after) =
      (false, digits ++ after) ∧ digits ≠ [] ∧ digits.all isDigit = true ∧
      digitsValue base digits = number := by
    rw [numeral] at reads
    by_cases plus : word.head? = some '+'
    · simp only [if_pos plus] at reads
      obtain ⟨rest, rfl⟩ : ∃ rest, word = '+' :: rest := by
        cases word with
        | nil => cases plus
        | cons c rest => exact ⟨rest, by rw [Option.some.inj plus]⟩
      split at reads
      · next good => exact ⟨rest, rfl, good.1, good.2, Option.some.inj reads⟩
      · cases reads
    · simp only [if_neg plus] at reads
      split at reads
      · next good =>
        refine ⟨word, ?_, good.1, good.2, Option.some.inj reads⟩
        obtain ⟨c, rest, rfl⟩ := List.exists_cons_of_ne_nil good.1
        have digit := sub c (List.all_eq_true.mp good.2 c List.mem_cons_self)
        have noMinus : c ≠ '-' := ne_of_isDigit digit (by decide)
        have noPlus : c ≠ '+' := ne_of_isDigit digit (by decide)
        rw [List.cons_append]
        unfold splitSign
        split
        · next same => exact absurd (List.cons.inj same).1 noMinus
        · next same => exact absurd (List.cons.inj same).1 noPlus
        · rfl
      · cases reads
  obtain ⟨taken, dropped⟩ := takeWhile_digits sub all ends
  rw [strtoul, starts, sign]
  simp only [taken, dropped, if_neg nonempty, if_neg (Nat.not_le.mpr small), Bool.false_eq_true,
    if_false]

/-- `strtoul` reads nothing at a dash. -/
theorem strtoul_dash (sub : ∀ c, isDigit c = true → c.isDigit = true)
    (starts : line.dropWhile isSpace = ['-'] ++ after) (ends : Ends after) :
    strtoul base isDigit line = none := by
  have none : ([] ++ after).takeWhile isDigit = [] := (takeWhile_digits sub rfl ends).1
  rw [List.nil_append] at none
  have sign : splitSign (['-'] ++ after) = (true, after) := rfl
  rw [strtoul, starts, sign]
  simp only [none, if_true]

theorem setWidth_ofNat (number : ℕ) :
    (BitVec.ofNat 64 number).setWidth 32 = BitVec.ofNat 32 number := by
  refine BitVec.eq_of_toNat_eq ?_
  rw [BitVec.toNat_setWidth, BitVec.toNat_ofNat, BitVec.toNat_ofNat]
  omega

/-- The number a column is for. -/
def numberOf (word : Text) : Unsigned := (numberColumn word).getD 0

/-- `%u` reads a column for a number unless it is blank. -/
theorem strtoul_numberColumn (isNumber : (numberColumn word).isSome) (notBlank : word ≠ ['-'])
    (starts : line.dropWhile isSpace = word ++ after) (ends : Ends after) :
    ∃ number, strtoul 10 Char.isDigit line = some (number, after) ∧
      number.setWidth 32 = numberOf word := by
  rw [numberOf]
  rw [numberColumn, if_neg notBlank] at isNumber ⊢
  cases reads : numeral 10 Char.isDigit word with
  | none =>
    rw [reads] at isNumber
    cases isNumber
  | some number =>
    simp only [reads] at isNumber ⊢
    by_cases small : number ≤ 0xfffff
    · rw [if_pos small]
      refine ⟨_, strtoul_of_numeral (fun _ digit => digit) reads (by omega) starts ends, ?_⟩
      exact setWidth_ofNat number
    · rw [if_neg small] at isNumber
      cases isNumber

/-- `%o` reads a column for the mode unless it is blank. -/
theorem strtoul_modeColumn {mode : Unsigned} (isMode : modeColumn word = some mode)
    (notBlank : word ≠ ['-']) (starts : line.dropWhile isSpace = word ++ after)
    (ends : Ends after) :
    ∃ number, strtoul 8 isOctal line = some (number, after) ∧ number.setWidth 32 = mode := by
  rw [modeColumn, if_neg notBlank] at isMode
  cases reads : numeral 8 isOctal word with
  | none =>
    rw [reads] at isMode
    cases isMode
  | some number =>
    simp only [reads] at isMode
    by_cases small : number < 2 ^ 32
    · rw [if_pos small] at isMode
      refine ⟨_, strtoul_of_numeral (fun _ => isDigit_of_isOctal) reads (by omega) starts ends, ?_⟩
      rw [setWidth_ofNat]
      exact Option.some.inj isMode
    · rw [if_neg small] at isMode
      cases isMode

/-- `%u` reads columns for numbers up to the first blank one. -/
theorem scanNumbers_columns {numbers : List Text}
    (areNumbers : ∀ word ∈ numbers, (numberColumn word).isSome) (has : columns line = numbers) :
    scanNumbers numbers.length line =
      (numbers.takeWhile fun word => word ≠ ['-']).map numberOf := by
  induction numbers generalizing line with
  | nil => rfl
  | cons word rest inductionHypothesis =>
    obtain ⟨after, starts, _, ends, later⟩ := columns_eq_cons has
    rw [List.length_cons, scanNumbers]
    by_cases blank : word = ['-']
    · subst blank
      rw [strtoul_dash (fun _ digit => digit) starts ends]
      rfl
    · obtain ⟨number, reads, same⟩ :=
        strtoul_numberColumn (areNumbers word List.mem_cons_self) blank starts ends
      rw [reads, List.takeWhile_cons_of_pos (by simpa using blank), List.map_cons, ← same,
        ← inductionHypothesis (fun other member => areNumbers other
          (List.mem_cons_of_mem word member)) later]

theorem numberOf_dash : numberOf ['-'] = 0 := by decide

/-- Stopping at the first blank column gives the numbers exactly when the rest are blank or
zeros. -/
theorem getD_takeWhile_iff {numbers : List Text}
    (areNumbers : ∀ word ∈ numbers, (numberColumn word).isSome) :
    (∀ i, ((numbers.takeWhile fun word => word ≠ ['-']).map numberOf).getD i 0 =
        (numbers.map numberOf).getD i 0) ↔ blanksLast numbers = true := by
  induction numbers with
  | nil => exact iff_of_true (fun _ => rfl) rfl
  | cons word rest inductionHypothesis =>
    obtain ⟨_, restNumbers⟩ := List.forall_mem_cons.mp areNumbers
    rw [blanksLast]
    by_cases blank : word = ['-']
    · have none : (word :: rest).takeWhile (fun word => word ≠ ['-']) = [] :=
        List.takeWhile_cons_of_neg (by simpa using blank)
      have zero : ∀ other ∈ rest, numberColumn other = some 0 ↔ numberOf other = 0 := by
        intro other member
        obtain ⟨number, isNumber⟩ := Option.isSome_iff_exists.mp (restNumbers other member)
        rw [numberOf, isNumber, Option.some.injEq, Option.getD_some]
      have at' : ∀ i, (rest.map numberOf).getD i 0 = numberOf (rest.getD i ['-']) := fun i => by
        rw [← numberOf_dash, List.getD_map]
      rw [none, if_pos blank, List.all_eq_true, List.map_nil, List.map_cons]
      constructor
      · intro same other member
        obtain ⟨i, bound, rfl⟩ := List.getElem_of_mem member
        have here := same (i + 1)
        rw [List.getD_cons_succ, at', List.getD_eq_getElem rest _ bound, List.getD_nil] at here
        exact decide_eq_true ((zero _ member).mpr here.symm)
      · intro zeros i
        rw [List.getD_nil]
        cases i with
        | zero => rw [List.getD_cons_zero, blank, numberOf_dash]
        | succ i =>
          rw [List.getD_cons_succ, at']
          by_cases bound : i < rest.length
          · have member := List.getElem_mem bound
            rw [List.getD_eq_getElem rest _ bound]
            exact ((zero _ member).mp (of_decide_eq_true (zeros _ member))).symm
          · rw [List.getD_eq_default rest _ (Nat.le_of_not_lt bound), numberOf_dash]
    · rw [if_neg blank, ← inductionHypothesis restNumbers,
        List.takeWhile_cons_of_pos (by simpa using blank), List.map_cons, List.map_cons]
      constructor
      · exact fun same i => same (i + 1)
      · rintro same (_ | i)
        · rfl
        · exact same i

end Numbers

/-! ### What the code reads -/

/-- The numbers of an entry. -/
def Entry.numbers (entry : Entry) : List Unsigned :=
  [entry.major, entry.minor, entry.start, entry.increment, entry.count]

/-- An entry with numbers read up to a blank one. -/
def Entry.cut (entry : Entry) (user group : Text) (numbers : List Text) : Entry :=
  let read := (numbers.takeWhile fun word => word ≠ ['-']).map numberOf
  { entry with
    user
    group
    major := read.getD 0 0
    minor := read.getD 1 0
    start := read.getD 2 0
    increment := read.getD 3 0
    count := read.getD 4 0 }

theorem tooLarge_eq_false_iff {entry : Entry} :
    entry.tooLarge = false ↔ ∀ number ∈ entry.numbers, number.toNat ≤ 0xfffff := by
  have bits : entry.tooLarge = false ↔ (entry.major.toNat ||| entry.minor.toNat |||
      entry.start.toNat ||| entry.count.toNat ||| entry.increment.toNat) < 2 ^ 20 := by
    rw [Entry.tooLarge, BitVec.ult, decide_eq_false_iff_not]
    simp only [BitVec.toNat_or]
    exact Nat.not_lt.trans Nat.lt_succ_iff.symm
  rw [bits]
  constructor
  · intro small
    have count := Nat.lt_of_le_of_lt Nat.left_le_or small
    have start := Nat.lt_of_le_of_lt Nat.left_le_or count
    have minor := Nat.lt_of_le_of_lt Nat.left_le_or start
    simp only [Entry.numbers, List.forall_mem_cons, List.not_mem_nil, false_imp_iff,
      implies_true, and_true]
    exact ⟨Nat.le_of_lt_succ (Nat.lt_of_le_of_lt Nat.left_le_or minor),
      Nat.le_of_lt_succ (Nat.lt_of_le_of_lt Nat.right_le_or minor),
      Nat.le_of_lt_succ (Nat.lt_of_le_of_lt Nat.right_le_or start),
      Nat.le_of_lt_succ (Nat.lt_of_le_of_lt Nat.right_le_or small),
      Nat.le_of_lt_succ (Nat.lt_of_le_of_lt Nat.right_le_or count)⟩
  · intro small
    simp only [Entry.numbers, List.forall_mem_cons, List.not_mem_nil, false_imp_iff,
      implies_true, and_true] at small
    obtain ⟨major, minor, start, increment, count⟩ := small
    exact Nat.or_lt_two_pow (Nat.or_lt_two_pow (Nat.or_lt_two_pow (Nat.or_lt_two_pow
      (Nat.lt_succ_of_le major) (Nat.lt_succ_of_le minor)) (Nat.lt_succ_of_le start))
      (Nat.lt_succ_of_le count)) (Nat.lt_succ_of_le increment)

/-- The number of a column has 20 bits. -/
theorem toNat_numberOf_le (word : Text) : (numberOf word).toNat ≤ 0xfffff := by
  rw [numberOf, numberColumn]
  by_cases blank : word = ['-']
  · rw [if_pos blank]
    decide
  · rw [if_neg blank]
    cases numeral 10 Char.isDigit word with
    | none => decide
    | some number =>
      by_cases small : number ≤ 0xfffff
      · simp only [if_pos small, Option.getD_some, BitVec.toNat_ofNat]
        exact (Nat.mod_le _ _).trans small
      · simp only [if_neg small]
        decide

theorem tooLarge_cut (entry : Entry) (user group : Text) (numbers : List Text) :
    (entry.cut user group numbers).tooLarge = false := by
  have small : ∀ i, (((numbers.takeWhile fun word => word ≠ ['-']).map numberOf).getD i 0).toNat ≤
      0xfffff := by
    intro i
    rw [← numberOf_dash, List.getD_map]
    exact toNat_numberOf_le _
  rw [tooLarge_eq_false_iff]
  simp only [Entry.cut, Entry.numbers, List.forall_mem_cons, List.not_mem_nil, false_imp_iff,
    implies_true, and_true]
  exact ⟨small 0, small 1, small 2, small 3, small 4⟩

/-- The columns of a line that says something. -/
structure Means (name type mode user group : Text) (numbers : List Text) (entry : Entry) :
    Prop where
  name : nameColumn name = some entry.name
  type : typeColumn type = some entry.type
  mode : modeColumn mode = some entry.mode
  user : idColumn user = some entry.user
  group : idColumn group = some entry.group
  isNumber : ∀ word ∈ numbers, (numberColumn word).isSome
  numbers : numbers.map numberOf = entry.numbers

theorem means_of_tableEntry {name type mode user group major minor start increment count : Text}
    {entry : Entry} (means : tableEntry [name, type, mode, user, group, major, minor, start,
      increment, count] = some entry) :
    Means name type mode user group [major, minor, start, increment, count] entry := by
  rw [tableEntry] at means
  obtain ⟨_, isName, means⟩ := Option.bind_eq_some_iff.mp means
  obtain ⟨_, isType, means⟩ := Option.bind_eq_some_iff.mp means
  obtain ⟨_, isMode, means⟩ := Option.bind_eq_some_iff.mp means
  obtain ⟨_, isUser, means⟩ := Option.bind_eq_some_iff.mp means
  obtain ⟨_, isGroup, means⟩ := Option.bind_eq_some_iff.mp means
  obtain ⟨_, isMajor, means⟩ := Option.bind_eq_some_iff.mp means
  obtain ⟨_, isMinor, means⟩ := Option.bind_eq_some_iff.mp means
  obtain ⟨_, isStart, means⟩ := Option.bind_eq_some_iff.mp means
  obtain ⟨_, isIncrement, means⟩ := Option.bind_eq_some_iff.mp means
  obtain ⟨_, isCount, means⟩ := Option.bind_eq_some_iff.mp means
  obtain rfl := Option.some.inj means
  refine ⟨isName, isType, isMode, isUser, isGroup, ?_, ?_⟩
  · simp [isMajor, isMinor, isStart, isIncrement, isCount]
  · simp [numberOf, isMajor, isMinor, isStart, isIncrement, isCount, Entry.numbers]

section Reads

variable {line name type mode user group : Text} {numbers : List Text} {entry : Entry}

theorem idColumn_length {word id : Text} (isId : idColumn word = some id) :
    word.length ≤ 40 ∧ (word ≠ ['-'] → id = word) := by
  rw [idColumn] at isId
  by_cases blank : word = ['-']
  · rw [blank]
    exact ⟨by decide, fun notBlank => absurd rfl notBlank⟩
  · rw [if_neg blank] at isId
    by_cases short : word.length ≤ 40
    · rw [if_pos short] at isId
      exact ⟨short, fun _ => (Option.some.inj isId).symm⟩
    · rw [if_neg short] at isId
      cases isId

/-- `%c` reads a column of one character. -/
theorem scanChar_column {c : Char} {after : Text} (starts : line.dropWhile isSpace = [c] ++ after) :
    scanChar line = some (c, after) := by
  rw [scanChar, starts]
  rfl

/-- What `sscanf` reads in a line that says something: it stops at a blank mode, and in the numbers
at a blank one. -/
theorem scanLine_of_means (meant : Means name type mode user group numbers entry)
    (five : numbers.length = 5)
    (has : columns line = name :: type :: mode :: user :: group :: numbers) (buffers : Buffers) :
    scanLine buffers.user buffers.group line = some
      (if mode = ['-'] then entry.cut buffers.user buffers.group []
        else entry.cut user group numbers) := by
  obtain ⟨afterName, startsName, columnName, endsName, hasName⟩ := columns_eq_cons has
  obtain ⟨short, isName⟩ : name.length ≤ 4095 ∧ name = entry.name := by
    have isName := meant.name
    rw [nameColumn] at isName
    split at isName
    · next short => exact ⟨short, Option.some.inj isName⟩
    · cases isName
  rw [scanLine, scanWord_column_of_le (by decide) short startsName columnName endsName]
  obtain ⟨afterType, startsType, columnType, endsType, hasType⟩ := columns_eq_cons hasName
  have isType : type = [entry.type] := by
    have isType := meant.type
    cases type with
    | nil => cases isType
    | cons c rest =>
      cases rest with
      | nil => rw [Option.some.inj isType]
      | cons _ _ => cases isType
  rw [isType] at startsType
  simp only [scanChar_column startsType]
  obtain ⟨afterMode, startsMode, columnMode, endsMode, hasMode⟩ := columns_eq_cons hasType
  rw [scanRest]
  by_cases blank : mode = ['-']
  · subst blank
    have mode : 0o755 = entry.mode := Option.some.inj meant.mode
    rw [strtoul_dash (fun _ => isDigit_of_isOctal) startsMode endsMode, if_pos rfl, isName, mode]
    rfl
  · obtain ⟨number, reads, isMode⟩ := strtoul_modeColumn meant.mode blank startsMode endsMode
    rw [reads, if_neg blank]
    obtain ⟨afterUser, startsUser, columnUser, endsUser, hasUser⟩ := columns_eq_cons hasMode
    simp only [scanWord_column_of_le (by decide) (idColumn_length meant.user).1 startsUser
      columnUser endsUser]
    obtain ⟨afterGroup, startsGroup, columnGroup, endsGroup, hasGroup⟩ := columns_eq_cons hasUser
    simp only [scanWord_column_of_le (by decide) (idColumn_length meant.group).1 startsGroup
      columnGroup endsGroup]
    have read := scanNumbers_columns meant.isNumber hasGroup
    rw [five] at read
    rw [read, isMode, isName]
    rfl

/-- `sscanf` reads at least the name and the type of a line with two columns. -/
theorem exists_scanLine {rest : List Text} (has : columns line = name :: type :: rest) :
    ∃ entry, scanLine [] [] line = some entry ∧ entry.name.head? = name.head? := by
  obtain ⟨after, starts, isColumn, ends, later⟩ := columns_eq_cons has
  rw [scanLine, scanWord_column (by decide) starts isColumn ends]
  have more : (name.drop 4095 ++ after).dropWhile isSpace ≠ [] := by
    intro none
    have blank : columns (name.drop 4095 ++ after) = [] := by
      rw [← columns_dropWhile, none]
      rfl
    by_cases long : name.drop 4095 = []
    · rw [long, List.nil_append, later] at blank
      cases blank
    · have isRest : IsColumn (name.drop 4095) :=
        ⟨long, fun c member => isColumn.2 c (List.mem_of_mem_drop member)⟩
      rw [columns_append isRest ends] at blank
      cases blank
  obtain ⟨c, rest, isMore⟩ := List.exists_cons_of_ne_nil more
  have type : scanChar (name.drop 4095 ++ after) = some (c, rest) := by
    rw [scanChar, isMore]
  simp only [type]
  have kept : ∀ entry text, (scanRest entry text).name = entry.name := by
    intro entry text
    rw [scanRest]
    split
    · rfl
    · split
      · rfl
      · split <;> rfl
  refine ⟨_, rfl, ?_⟩
  rw [kept]
  cases name <;> rfl

end Reads

/-! ### Lines that are read as they are written -/

/-- A line without the texts that are used for the ids only. -/
def Line.values : Line → Line
  | .entry read uid gid => .entry { read with user := [], group := [] } uid gid
  | .dies _ => .dies []
  | line => line

/-- No value of a line is used. -/
def Line.IsRejected (line : Line) : Prop := line = .skip ∨ ∃ message, line = .invalid message

/-- The values that are used for a line are those its columns say, whatever lines there were
before, and a line that says nothing is rejected. -/
structure Parsed (line : Text) : Prop where
  used : ∀ entry, tableEntry (columns line) = some entry →
    ∀ (accounts : Accounts) (buffers : Buffers) (linenum : ℕ),
      (readLine accounts buffers.user buffers.group linenum line).values =
        (owned accounts entry).values
  rejected : tableEntry (columns line) = none →
    ∀ (accounts : Accounts) (buffers : Buffers) (linenum : ℕ),
      (readLine accounts buffers.user buffers.group linenum line).IsRejected

section Parsed

variable {line : Text} {entry : Entry}

/-- A line is rejected for a number that is too large, and for nothing else when there are two
columns. -/
theorem isRejected_iff {accounts : Accounts} (reads : scanLine [] [] line = some entry)
    (noComment : entry.name.head? ≠ some '#') (buffers : Buffers) (linenum : ℕ) :
    (readLine accounts buffers.user buffers.group linenum line).IsRejected ↔
      entry.tooLarge = true := by
  constructor
  · intro rejected
    by_contra small
    rw [readLine_of_accepted reads (Bool.eq_false_iff.mpr small) noComment, owned] at rejected
    rcases rejected with skip | ⟨message, invalid⟩
    · split at skip
      · cases skip
      · split at skip <;> cases skip
    · split at invalid
      · cases invalid
      · split at invalid <;> cases invalid
  · intro large
    have filled : (entry.filled buffers (scanCount line)).tooLarge = true := large
    have readsNow : scanLine buffers.user buffers.group line =
        some (entry.filled buffers (scanCount line)) := by
      rw [scanLine_eq, reads]
      rfl
    rw [readLine, readsNow]
    simp only [if_pos filled]
    split
    · exact Or.inl rfl
    · exact Or.inr ⟨_, rfl⟩

theorem tooLarge_iff : entry.tooLarge = true ↔
    ∃ number ∈ entry.numbers, 0xfffff < number.toNat := by
  rw [← not_iff_not, Bool.not_eq_true, tooLarge_eq_false_iff]
  push Not
  rfl

/-- The owner of an entry, where every name is known. -/
theorem owned_fixed (user group getuid getgid : Unsigned) (entry : Entry) :
    ∃ uid gid, owned (fixedAccounts user group getuid getgid) entry = .entry entry uid gid ∧
      idOf getuid (fun _ => some user) entry.user = some uid ∧
      idOf getgid (fun _ => some group) entry.group = some gid := by
  obtain ⟨uid, isUser⟩ := idOf_isSome getuid user entry.user
  obtain ⟨gid, isGroup⟩ := idOf_isSome getgid group entry.group
  exact ⟨uid, gid, owned_eq isGroup isUser, isUser, isGroup⟩

/-- Entries with the same values have the same ids and numbers. -/
theorem values_owned {user group getuid getgid : Unsigned} {entry entry' : Entry}
    (same : (owned (fixedAccounts user group getuid getgid) entry).values =
      (owned (fixedAccounts user group getuid getgid) entry').values) :
    idOf getuid (fun _ => some user) entry.user = idOf getuid (fun _ => some user) entry'.user ∧
      idOf getgid (fun _ => some group) entry.group =
        idOf getgid (fun _ => some group) entry'.group ∧
      entry.numbers = entry'.numbers := by
  obtain ⟨uid, gid, owns, isUser, isGroup⟩ := owned_fixed user group getuid getgid entry
  obtain ⟨uid', gid', owns', isUser', isGroup'⟩ := owned_fixed user group getuid getgid entry'
  rw [owns, owns'] at same
  obtain ⟨entries, users, groups⟩ := Line.entry.inj same
  refine ⟨by rw [isUser, isUser', users], by rw [isGroup, isGroup', groups], ?_⟩
  have numbers := congrArg Entry.numbers entries
  exact numbers

/-- Reading numbers up to a blank one gives those of the entry when there are only zeros behind. -/
theorem numbers_cut_iff {numbers : List Text} (user group : Text)
    (areNumbers : ∀ word ∈ numbers, (numberColumn word).isSome)
    (isEntry : numbers.map numberOf = entry.numbers) :
    (entry.cut user group numbers).numbers = entry.numbers ↔ blanksLast numbers = true := by
  rw [← getD_takeWhile_iff areNumbers, isEntry]
  have five : numbers.length = 5 := by
    have lengths := congrArg List.length isEntry
    rwa [List.length_map] at lengths
  have short : ((numbers.takeWhile fun word => word ≠ ['-']).map numberOf).length ≤ 5 := by
    rw [List.length_map, ← five]
    exact (List.takeWhile_sublist _).length_le
  simp only [Entry.cut, Entry.numbers]
  generalize (numbers.takeWhile fun word => word ≠ ['-']).map numberOf = read at short ⊢
  constructor
  · intro same i
    simp only [List.cons.injEq, and_true] at same
    obtain ⟨major, minor, start, increment, count⟩ := same
    rcases i with _ | _ | _ | _ | _ | i
    · exact major
    · exact minor
    · exact start
    · exact increment
    · exact count
    · rw [List.getD_eq_default _ _ (by omega)]
      rfl
  · intro same
    rw [same 0, same 1, same 2, same 3, same 4]
    rfl

theorem exists_ten {list : List Text} (ten : list.length = 10) :
    ∃ name type mode user group major minor start increment count,
      list = [name, type, mode, user, group, major, minor, start, increment, count] :=
  match list, ten with
  | [name, type, mode, user, group, major, minor, start, increment, count], _ =>
    ⟨name, type, mode, user, group, major, minor, start, increment, count, rfl⟩

end Parsed

section Main

variable {line name type mode user group : Text} {numbers : List Text} {entry : Entry}

/-- What the code uses for a line whose mode is not blank. -/
theorem readLine_of_means (meant : Means name type mode user group numbers entry)
    (five : numbers.length = 5)
    (has : columns line = name :: type :: mode :: user :: group :: numbers)
    (noComment : entry.name.head? ≠ some '#') (accounts : Accounts) (buffers : Buffers)
    (linenum : ℕ) :
    readLine accounts buffers.user buffers.group linenum line = owned accounts
      (if mode = ['-'] then entry.cut buffers.user buffers.group []
        else entry.cut user group numbers) := by
  refine readLine_eq_owned (scanLine_of_means meant five has buffers) ?_ ?_ linenum
  · split <;> exact tooLarge_cut _ _ _ _
  · split <;> exact noComment

/-- The values of a readable line are those its columns say. -/
theorem cut_eq_self (meant : Means name type mode user group numbers entry)
    (userWritten : user ≠ ['-']) (groupWritten : group ≠ ['-'])
    (last : blanksLast numbers = true) : entry.cut user group numbers = entry := by
  have same := (numbers_cut_iff user group meant.isNumber meant.numbers).mpr last
  have isUser := (idColumn_length meant.user).2 userWritten
  have isGroup := (idColumn_length meant.group).2 groupWritten
  simp only [Entry.numbers, List.cons.injEq, and_true] at same
  obtain ⟨major, minor, start, increment, count⟩ := same
  cases entry
  simp only [Entry.cut] at isUser isGroup major minor start increment count
  simp only [Entry.cut, Entry.mk.injEq, true_and]
  exact ⟨isUser.symm, isGroup.symm, major, minor, start, increment, count⟩

/-- When the values are those the columns say, the line is readable. -/
theorem readable_of_used (meant : Means name type mode user group numbers entry)
    (five : numbers.length = 5)
    (has : columns line = name :: type :: mode :: user :: group :: numbers)
    (noComment : entry.name.head? ≠ some '#')
    (used : ∀ (accounts : Accounts) (buffers : Buffers) (linenum : ℕ),
      (readLine accounts buffers.user buffers.group linenum line).values =
        (owned accounts entry).values) :
    (mode ≠ ['-'] ∧ user ≠ ['-'] ∧ group ≠ ['-']) ∧ blanksLast numbers = true := by
  have modeWritten : mode ≠ ['-'] := by
    intro blank
    have one := used (fixedAccounts 0 0 0 0) ⟨"1".toList, "1".toList⟩ 1
    have two := used (fixedAccounts 0 0 0 0) ⟨"2".toList, "1".toList⟩ 1
    rw [readLine_of_means meant five has noComment, if_pos blank] at one two
    have users := (values_owned (one.trans two.symm)).1
    exact absurd users
      (by decide : idOf 0 (fun _ => some 0) "1".toList ≠ idOf 0 (fun _ => some 0) "2".toList)
  have cut : ∀ accounts, (owned accounts (entry.cut user group numbers)).values =
      (owned accounts entry).values := by
    intro accounts
    have here := used accounts ⟨[], []⟩ 1
    rwa [readLine_of_means meant five has noComment, if_neg modeWritten] at here
  refine ⟨⟨modeWritten, ?_, ?_⟩, ?_⟩
  · -- a user that is called `-` would own the file
    rintro rfl
    have users := (values_owned (cut (fixedAccounts 1 1 0 0))).1
    rw [← Option.some.inj meant.user] at users
    exact absurd users (by decide : idOf 0 (fun _ => some 1) ['-'] ≠ idOf 0 (fun _ => some 1) [])
  · rintro rfl
    have groups := (values_owned (cut (fixedAccounts 1 1 0 0))).2.1
    rw [← Option.some.inj meant.group] at groups
    exact absurd groups (by decide : idOf 0 (fun _ => some 1) ['-'] ≠ idOf 0 (fun _ => some 1) [])
  · exact (numbers_cut_iff user group meant.isNumber meant.numbers).mp
      (values_owned (cut (fixedAccounts 0 0 0 0))).2.2

end Main

/-- The values that are used for a line of ten columns are those its columns say, and a malformed
one is rejected, if and only if it is readable, or else a number that `sscanf` comes to is too
large. -/
theorem parsed_iff (line : Text) (ten : (columns line).length = 10)
    (noComment : ∀ name ∈ (columns line).head?, name.head? ≠ some '#') :
    Parsed line ↔
      ((tableEntry (columns line)).isSome → readable (columns line) = true) ∧
        (tableEntry (columns line) = none → ∃ entry, scanLine [] [] line = some entry ∧
          ∃ number ∈ entry.numbers, 0xfffff < number.toNat) := by
  obtain ⟨name, type, mode, user, group, major, minor, start, increment, count, has⟩ :=
    exists_ten ten
  obtain ⟨read, reads, sameName⟩ := exists_scanLine has
  rw [has] at noComment
  have noCommentName := noComment name rfl
  have noCommentRead : read.name.head? ≠ some '#' := sameName ▸ noCommentName
  have named : ∀ entry, tableEntry (columns line) = some entry →
      Means name type mode user group [major, minor, start, increment, count] entry ∧
        entry.name.head? ≠ some '#' := by
    intro entry means
    rw [has] at means
    have meant := means_of_tableEntry means
    have isName := meant.name
    rw [nameColumn] at isName
    split at isName
    · exact ⟨meant, Option.some.inj isName ▸ noCommentName⟩
    · cases isName
  constructor
  · intro parsed
    refine ⟨fun means => ?_, fun none => ?_⟩
    · obtain ⟨entry, means⟩ := Option.isSome_iff_exists.mp means
      obtain ⟨meant, noCommentEntry⟩ := named entry means
      obtain ⟨written, last⟩ := readable_of_used meant rfl has noCommentEntry
        (parsed.used entry means)
      rw [has, readable, last, Bool.and_true]
      exact decide_eq_true written
    · have rejected := parsed.rejected none noAccounts ⟨[], []⟩ 1
      exact ⟨read, reads, tooLarge_iff.mp ((isRejected_iff reads noCommentRead _ _).mp rejected)⟩
  · rintro ⟨whenMeant, whenNot⟩
    refine ⟨fun entry means accounts buffers linenum => ?_,
      fun none accounts buffers linenum => ?_⟩
    · obtain ⟨meant, noCommentEntry⟩ := named entry means
      have isReadable := whenMeant (Option.isSome_of_mem means)
      rw [has, readable, Bool.and_eq_true, decide_eq_true_iff] at isReadable
      obtain ⟨⟨modeWritten, userWritten, groupWritten⟩, last⟩ := isReadable
      rw [readLine_of_means meant rfl has noCommentEntry, if_neg modeWritten,
        cut_eq_self meant userWritten groupWritten last]
    · obtain ⟨entry, readsEntry, large⟩ := whenNot none
      obtain rfl := Option.some.inj (reads.symm.trans readsEntry)
      exact (isRejected_iff reads noCommentRead buffers linenum).mpr (tooLarge_iff.mpr large)

theorem parsed_iff_tty :
    Parsed ttyLine ↔
      ((tableEntry (columns ttyLine)).isSome → readable (columns ttyLine) = true) ∧
        (tableEntry (columns ttyLine) = none → ∃ entry, scanLine [] [] ttyLine = some entry ∧
          ∃ number ∈ entry.numbers, 0xfffff < number.toNat) :=
  parsed_iff ttyLine (by decide) (by decide)

/-- Behind a blank column for the start, the count is not read. -/
theorem not_parsed_dash :
    tableEntry (columns "/dev/hda b 640 0 0 3 1 - 1 15".toList) =
        some ⟨"/dev/hda".toList, 'b', 0o640, "0".toList, "0".toList, 3, 1, 0, 1, 15⟩ ∧
      readLine noAccounts [] [] 1 "/dev/hda b 640 0 0 3 1 - 1 15".toList =
        .entry ⟨"/dev/hda".toList, 'b', 0o640, "0".toList, "0".toList, 3, 1, 0, 0, 0⟩ 0 0 ∧
      ¬ Parsed "/dev/hda b 640 0 0 3 1 - 1 15".toList := by
  have means : tableEntry (columns "/dev/hda b 640 0 0 3 1 - 1 15".toList) =
      some ⟨"/dev/hda".toList, 'b', 0o640, "0".toList, "0".toList, 3, 1, 0, 1, 15⟩ := by decide
  refine ⟨means, by decide, fun parsed => ?_⟩
  have same := parsed.used _ means noAccounts ⟨[], []⟩ 1
  exact absurd same (by decide)

end Buildroot4G.Makedevs
