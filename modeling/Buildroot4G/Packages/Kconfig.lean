/-
This file models the editing of a `.config` file by `KCONFIG_ENABLE_OPT`, `KCONFIG_SET_OPT` and
`KCONFIG_DISABLE_OPT` of `package/pkg-utils.mk`: the lines with the option as a word are deleted,
and a line that defines it is appended. The main result says when a sequence of edits gives each
option that was edited its last definition and leaves the definitions of all others alone.

A file is its lines, each of which ends in a newline.
-/

import Buildroot4G.Shell.Text
import Mathlib.Data.List.TakeWhile

namespace Buildroot4G.Kconfig

open Shell

/-! ### The edits -/

/-- The characters of a word, as `\<` and `\>` of sed take it. -/
def isWordChar (c : Char) : Bool := c.isAlphanum || c == '_'

/-- The name of an option. -/
structure Name where
  text : Text
  nonempty : text ≠ []
  word : ∀ c ∈ text, isWordChar c = true
  deriving DecidableEq

/-- What an option may be set to: a text that stays one in single quotes and on a line. -/
structure Value where
  text : Text
  noQuote : '\'' ∉ text
  noNewline : '\n' ∉ text
  deriving DecidableEq

/-- Whether `\<option\>` matches in a text, behind a character of a word or not. -/
def hasWordFrom (option : Text) : Bool → Text → Bool
  | behind, [] => !behind && option.isEmpty
  | behind, c :: rest =>
    !behind && option.isPrefixOf (c :: rest) &&
        !((c :: rest).drop option.length).head?.any isWordChar ||
      hasWordFrom option (isWordChar c) rest

/-- `\<option\>` matches in a line. -/
def hasWord (option : Name) (line : Text) : Bool := hasWordFrom option.text false line

/-- An edit of the file. -/
inductive Edit where
  | enable (option : Name)
  | set (option : Name) (value : Value)
  | disable (option : Name)
  deriving DecidableEq

namespace Edit

def option : Edit → Name
  | enable option => option
  | set option _ => option
  | disable option => option

/-- The line that `echo` appends. -/
def line : Edit → Text
  | enable option => option.text ++ "=y".toList
  | set option value => option.text ++ '=' :: value.text
  | disable option => "# ".toList ++ option.text ++ " is not set".toList

/-- `$(SED) "/\\<$(1)\\>/d"` and the `echo` behind it. -/
def apply (lines : List Text) (edit : Edit) : List Text :=
  lines.filter (fun line => !hasWord edit.option line) ++ [edit.line]

end Edit

/-- A sequence of edits. -/
def applyAll (lines : List Text) (edits : List Edit) : List Text := edits.foldl Edit.apply lines

/-! ### Definitions -/

/-- The word a text begins with, when the rest is as it has to be. -/
def wordBefore (rest : Text → Bool) (text : Text) : Option Text :=
  let word := text.takeWhile isWordChar
  if word ≠ [] ∧ rest (text.drop word.length) = true then some word else none

/-- The option that a line defines. -/
def defines (line : Text) : Option Text :=
  match wordBefore (fun rest => rest.head? = some '=') line with
  | some option => some option
  | none =>
    if "# ".toList.isPrefixOf line then
      wordBefore (fun rest => rest = " is not set".toList) (line.drop 2)
    else none

section Definitions

variable {option : Name}

theorem takeWhile_word (option : Name) {rest : Text}
    (ends : rest.head?.any isWordChar = false) :
    (option.text ++ rest).takeWhile isWordChar = option.text := by
  rw [List.takeWhile_append_of_pos option.word]
  cases rest with
  | nil => exact List.append_nil _
  | cons c rest =>
    rw [List.takeWhile_cons_of_neg (by simpa using ends), List.append_nil]

theorem wordBefore_eq_some {rest : Text → Bool} {text word : Text}
    (found : wordBefore rest text = some word) :
    ∃ option : Name, option.text = word ∧ ∃ after, text = word ++ after ∧ rest after = true ∧
      after.head?.any isWordChar = false := by
  rw [wordBefore] at found
  split at found
  · next both =>
    obtain ⟨nonempty, isRest⟩ := both
    cases found
    refine ⟨⟨_, nonempty, fun c member => List.mem_takeWhile_imp member⟩, rfl, _, ?_, isRest, ?_⟩
    · exact (List.prefix_iff_eq_append.mp (List.takeWhile_prefix _)).symm
    · have behind : text.drop (text.takeWhile isWordChar).length = text.dropWhile isWordChar :=
        calc text.drop (text.takeWhile isWordChar).length
            = (text.takeWhile isWordChar ++ text.dropWhile isWordChar).drop
                (text.takeWhile isWordChar).length := by rw [List.takeWhile_append_dropWhile]
          _ = text.dropWhile isWordChar := List.drop_left
      have dropped := List.head?_dropWhile_not isWordChar text
      rw [behind]
      cases isHead : (text.dropWhile isWordChar).head? with
      | none => rfl
      | some c =>
        rw [isHead] at dropped
        simpa using dropped
  · cases found

theorem wordBefore_append {rest : Text → Bool} {after : Text} (isRest : rest after = true)
    (ends : after.head?.any isWordChar = false) :
    wordBefore rest (option.text ++ after) = some option.text := by
  rw [wordBefore, takeWhile_word option ends, List.drop_left]
  exact if_pos ⟨option.nonempty, isRest⟩

/-- An edit appends a definition of its option. -/
theorem defines_line (edit : Edit) : defines edit.line = some edit.option.text := by
  cases edit with
  | enable option =>
    rw [defines, Edit.line, wordBefore_append (by rfl) (by rfl)]
    rfl
  | set option value =>
    rw [defines, Edit.line, wordBefore_append (by rfl) (by rfl)]
    rfl
  | disable option =>
    have noAssignment : wordBefore (fun rest => rest.head? = some '=')
        (Edit.disable option).line = none := rfl
    rw [defines, noAssignment]
    have split : (Edit.disable option).line =
        "# ".toList ++ (option.text ++ " is not set".toList) := List.append_assoc _ _ _
    have isRest : wordBefore (fun rest => rest = " is not set".toList)
        (option.text ++ " is not set".toList) = some option.text :=
      wordBefore_append (by rfl) (by rfl)
    rw [split]
    exact isRest

/-- A word at the beginning of a line is one of it. -/
theorem hasWordFrom_append {rest : Text} (ends : rest.head?.any isWordChar = false) :
    hasWordFrom option.text false (option.text ++ rest) = true := by
  obtain ⟨c, more, isCons⟩ := List.exists_cons_of_ne_nil option.nonempty
  have isPrefix : option.text.isPrefixOf (option.text ++ rest) = true :=
    List.isPrefixOf_iff_prefix.mpr (List.prefix_append _ _)
  have behind : (option.text ++ rest).drop option.text.length = rest := List.drop_left
  generalize option.text ++ rest = whole at isPrefix behind
  cases whole with
  | nil =>
    rw [isCons] at isPrefix
    cases isPrefix
  | cons d whole =>
    rw [hasWordFrom, isPrefix, behind, ends]
    rfl

/-- A line has the option it defines as a word. -/
theorem hasWord_of_defines {line : Text} (isDefinition : defines line = some option.text) :
    hasWord option line = true := by
  rw [hasWord]
  rw [defines] at isDefinition
  have same : ∀ {other : Name}, other.text = option.text → other = option := by
    rintro ⟨_, _, _⟩ rfl
    rfl
  split at isDefinition
  · next word found =>
    obtain ⟨other, isName, after, rfl, _, ends⟩ := wordBefore_eq_some found
    rw [Option.some.inj isDefinition]
    exact hasWordFrom_append ends
  · split at isDefinition
    · next comment =>
      obtain ⟨other, isName, after, isLine, _, ends⟩ := wordBefore_eq_some isDefinition
      obtain ⟨rest, rfl⟩ := List.isPrefixOf_iff_prefix.mp comment
      have isRest : rest = option.text ++ after := isLine
      have here : hasWordFrom option.text false (option.text ++ after) = true :=
        hasWordFrom_append ends
      rw [isRest]
      change (_ || (_ || hasWordFrom option.text false (option.text ++ after))) = true
      rw [here, Bool.or_true, Bool.or_true]
    · cases isDefinition

end Definitions

/-! ### What is left of the lines -/

/-- No edit deletes a line. -/
def stays (edits : List Edit) (line : Text) : Bool :=
  edits.all fun edit => !hasWord edit.option line

/-- The lines that edits append and later ones leave. -/
def appended : List Edit → List Text
  | [] => []
  | edit :: rest => (if stays rest edit.line then [edit.line] else []) ++ appended rest

theorem stays_iff {edits : List Edit} {line : Text} :
    stays edits line = true ↔ ∀ edit ∈ edits, hasWord edit.option line = false := by
  simp [stays]

/-- A sequence of edits leaves the lines that none deletes, in their order, and the lines that it
appended behind them. -/
theorem applyAll_eq (lines : List Text) (edits : List Edit) :
    applyAll lines edits = lines.filter (stays edits) ++ appended edits := by
  induction edits generalizing lines with
  | nil => exact (List.append_nil _).trans (List.filter_eq_self.mpr fun _ _ => rfl) |>.symm
  | cons edit rest inductionHypothesis =>
    change applyAll (edit.apply lines) rest = _
    have first : (lines.filter fun line => !hasWord edit.option line).filter (stays rest) =
        lines.filter (stays (edit :: rest)) := by
      rw [List.filter_filter]
      exact List.filter_congr fun line _ => Bool.and_comm _ _
    rw [inductionHypothesis, Edit.apply, List.filter_append, first, appended, List.append_assoc,
      List.filter_cons, List.filter_nil]

/-- The definitions of an option. -/
def definitions (option : Name) (lines : List Text) : List Text :=
  lines.filter fun line => defines line = some option.text

/-- The line of the last edit of an option. -/
def lastLine (option : Name) (edits : List Edit) : Option Text :=
  (edits.filter fun edit => edit.option = option).getLast?.map Edit.line

/-- Whether a line defines an option that is not edited. -/
def definesOther (edits : List Edit) (line : Text) : Bool :=
  (defines line).any fun option => edits.all fun edit => edit.option.text ≠ option

section Appended

variable {option : Name}

theorem Name.ext {first second : Name} (same : first.text = second.text) : first = second := by
  obtain ⟨_, _, _⟩ := first
  obtain rfl := same
  rfl

theorem exists_of_mem_appended {edits : List Edit} {line : Text} (member : line ∈ appended edits) :
    ∃ edit ∈ edits, line = edit.line := by
  induction edits with
  | nil => cases member
  | cons edit rest inductionHypothesis =>
    rw [appended] at member
    rcases List.mem_append.mp member with own | later
    · split at own
      · exact ⟨edit, List.mem_cons_self, List.mem_singleton.mp own⟩
      · cases own
    · obtain ⟨other, isEdit, same⟩ := inductionHypothesis later
      exact ⟨other, List.mem_cons_of_mem edit isEdit, same⟩

theorem defines_line_iff (edit : Edit) (option : Name) :
    defines edit.line = some option.text ↔ edit.option = option := by
  rw [defines_line, Option.some.injEq]
  exact ⟨Name.ext, fun same => congrArg Name.text same⟩

theorem definitions_append (option : Name) (first second : List Text) :
    definitions option (first ++ second) = definitions option first ++ definitions option second :=
  List.filter_append ..

/-- Edits of other options append no definition. -/
theorem definitions_appended_of_other {edits : List Edit}
    (other : ∀ edit ∈ edits, edit.option ≠ option) : definitions option (appended edits) = [] := by
  refine List.filter_eq_nil_iff.mpr fun line member => ?_
  obtain ⟨edit, isEdit, rfl⟩ := exists_of_mem_appended member
  simpa [defines_line_iff] using other edit isEdit

theorem definitions_ite (edit : Edit) (kept : Bool) (option : Name) :
    definitions option (if kept then [edit.line] else []) =
      if kept ∧ edit.option = option then [edit.line] else [] := by
  cases kept with
  | false => rfl
  | true =>
    by_cases own : edit.option = option
    · simp [definitions, defines_line_iff, own]
    · simp [definitions, defines_line_iff, own]

/-- The edits leave the last definition of an option when no later edit deletes it. -/
theorem definitions_appended_iff (option : Name) (edits : List Edit) :
    definitions option (appended edits) = (lastLine option edits).toList ↔
      ∀ before edit after, edits = before ++ edit :: after → edit.option = option →
        (∀ later ∈ after, later.option ≠ option) → stays after edit.line = true := by
  induction edits with
  | nil =>
    refine iff_of_true rfl fun before edit after impossible => ?_
    cases before <;> cases impossible
  | cons first rest inductionHypothesis =>
    -- what the condition asks for of the edits behind the first one
    have behind : (∀ before edit after, first :: rest = before ++ edit :: after →
          edit.option = option → (∀ later ∈ after, later.option ≠ option) →
          stays after edit.line = true) ↔
        (first.option = option → (∀ later ∈ rest, later.option ≠ option) →
          stays rest first.line = true) ∧
        ∀ before edit after, rest = before ++ edit :: after → edit.option = option →
          (∀ later ∈ after, later.option ≠ option) → stays after edit.line = true := by
      constructor
      · intro all
        exact ⟨all [] first rest rfl, fun before edit after whole =>
          all (first :: before) edit after (by rw [whole]; rfl)⟩
      · rintro ⟨own, later⟩ before edit after whole
        cases before with
        | nil =>
          obtain ⟨rfl, rfl⟩ := List.cons.inj whole
          exact own
        | cons other before =>
          obtain ⟨rfl, isRest⟩ := List.cons.inj whole
          exact later before edit after isRest
    rw [behind, appended, definitions_append, definitions_ite, ← inductionHypothesis]
    by_cases own : first.option = option
    · by_cases last : ∀ later ∈ rest, later.option ≠ option
      · have noLater : rest.filter (fun edit => edit.option = option) = [] :=
          List.filter_eq_nil_iff.mpr fun edit member => by simpa using last edit member
        have isLast : lastLine option (first :: rest) = some first.line := by
          rw [lastLine, List.filter_cons_of_pos (by simpa using own), noLater]
          rfl
        have noneLast : lastLine option rest = none := by
          rw [lastLine, noLater]
          rfl
        rw [definitions_appended_of_other last, isLast, noneLast, List.append_nil]
        by_cases kept : stays rest first.line = true
        · rw [if_pos ⟨kept, own⟩]
          exact iff_of_true rfl ⟨fun _ _ => kept, rfl⟩
        · rw [if_neg fun both => kept both.1]
          exact iff_of_false (by simp) fun both => kept (both.1 own last)
      · -- a later edit of the option deletes the line of this one
        have deleted : ¬ stays rest first.line = true := by
          rw [stays_iff]
          intro all
          push Not at last
          obtain ⟨later, member, same⟩ := last
          have word := hasWord_of_defines ((defines_line_iff first option).mpr own)
          rw [← same, all later member] at word
          cases word
        have sameLast : lastLine option (first :: rest) = lastLine option rest := by
          rw [lastLine, lastLine, List.filter_cons_of_pos (by simpa using own)]
          have some : rest.filter (fun edit => edit.option = option) ≠ [] := by
            rw [Ne, List.filter_eq_nil_iff]
            intro none
            exact last fun later member => by simpa using none later member
          obtain ⟨head, tail, isCons⟩ := List.exists_cons_of_ne_nil some
          rw [isCons, List.getLast?_cons_cons]
        rw [if_neg fun both => deleted both.1, sameLast, List.nil_append]
        exact (and_iff_right fun _ isLast => absurd isLast last).symm
    · have sameLast : lastLine option (first :: rest) = lastLine option rest := by
        rw [lastLine, lastLine, List.filter_cons_of_neg (by simpa using own)]
      rw [if_neg fun both => own both.2, sameLast, List.nil_append]
      exact (and_iff_right fun isOwn => absurd isOwn own).symm

end Appended

/-! ### The file after a sequence of edits -/

/-- Each option that was edited has one definition, that of its last edit, and the definitions of
the others are what and where they were. -/
structure Edited (lines : List Text) (edits : List Edit) : Prop where
  own : ∀ edit ∈ edits, definitions edit.option (applyAll lines edits) =
    (lastLine edit.option edits).toList
  others : (applyAll lines edits).filter (definesOther edits) = lines.filter (definesOther edits)

/-- No definition that is to stay has an edited option as a word: no line for another option, and
not the line of the last edit of an option, for the edits behind it. -/
structure Clean (lines : List Text) (edits : List Edit) : Prop where
  lines : ∀ line ∈ lines, definesOther edits line = true → stays edits line = true
  edits : ∀ before edit after, edits = before ++ edit :: after →
    (∀ later ∈ after, later.option ≠ edit.option) → stays after edit.line = true

/-- A sequence of edits does what it is for exactly when no definition that is to stay has an edited
option as a word. -/
theorem edited_iff_clean (lines : List Text) (edits : List Edit) :
    Edited lines edits ↔ Clean lines edits := by
  have ownLines : ∀ edit ∈ edits, definitions edit.option (applyAll lines edits) =
      definitions edit.option (appended edits) := by
    intro edit member
    rw [applyAll_eq, definitions_append]
    have deleted : definitions edit.option (lines.filter (stays edits)) = [] := by
      refine List.filter_eq_nil_iff.mpr fun line isLine => ?_
      intro isDefinition
      have word := hasWord_of_defines (of_decide_eq_true isDefinition)
      rw [stays_iff.mp (List.mem_filter.mp isLine).2 edit member] at word
      cases word
    rw [deleted, List.nil_append]
  have otherLines : (applyAll lines edits).filter (definesOther edits) =
      (lines.filter (stays edits)).filter (definesOther edits) := by
    have none : (appended edits).filter (definesOther edits) = [] := by
      refine List.filter_eq_nil_iff.mpr fun line member => ?_
      obtain ⟨edit, isEdit, rfl⟩ := exists_of_mem_appended member
      rw [definesOther, defines_line]
      simpa using ⟨edit, isEdit, rfl⟩
    rw [applyAll_eq, List.filter_append, none, List.append_nil]
  constructor
  · intro edited
    refine ⟨fun line member isOther => ?_, fun before edit after whole last => ?_⟩
    · have here : line ∈ lines.filter (definesOther edits) := List.mem_filter.mpr ⟨member, isOther⟩
      rw [← edited.others, otherLines] at here
      exact (List.mem_filter.mp (List.mem_filter.mp here).1).2
    · have member : edit ∈ edits := by simp [whole]
      have own := edited.own edit member
      rw [ownLines edit member] at own
      exact (definitions_appended_iff edit.option edits).mp own before edit after whole rfl last
  · intro clean
    refine ⟨fun edit member => ?_, ?_⟩
    · rw [ownLines edit member, definitions_appended_iff]
      rintro before other after whole same last
      exact clean.edits before other after whole fun later isLater => same ▸ last later isLater
    · rw [otherLines, List.filter_filter]
      refine List.filter_congr fun line member => ?_
      by_cases isOther : definesOther edits line = true
      · rw [isOther, clean.lines line member isOther]
        rfl
      · rw [Bool.eq_false_iff.mpr isOther, Bool.false_and]

def modulesName : Name := ⟨"CONFIG_MODULES".toList, by decide, by decide⟩

def localversionLine : Text := "CONFIG_LOCALVERSION=\"-CONFIG_MODULES\"".toList

/-- The definition of another option has the option in its value. -/
theorem not_edited_value :
    applyAll [localversionLine] [.enable modulesName] =
        ["CONFIG_MODULES=y".toList] ∧
      ¬ Edited [localversionLine] [.enable modulesName] := by
  refine ⟨by decide, fun edited => ?_⟩
  have same := edited.others
  exact absurd same (by decide)

end Buildroot4G.Kconfig
