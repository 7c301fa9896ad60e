/-
This file is the part of awk that a script uses to collect the fields of lines in arrays
and to print them again.

A text is one word when it has no blank and is not empty. The words of a line that is
printed with tabs are the fields that are not empty, and the words of an element that was
made by appending words are the words that were appended to it, in that order.
-/

import Mathlib.Data.List.GetD
import Mathlib.Logic.Function.Basic
import Buildroot4G.Shell.Text

namespace Shell

/-- A text without blanks. -/
def NoBlank (text : Text) : Prop := ∀ c ∈ text, isBlank c = false

instance (text : Text) : Decidable (NoBlank text) :=
  List.decidableBAll (fun c => isBlank c = false) text

/-- A text that is one word. -/
def IsWord (text : Text) : Prop := text ≠ [] ∧ NoBlank text

instance (text : Text) : Decidable (IsWord text) :=
  inferInstanceAs (Decidable (text ≠ [] ∧ NoBlank text))

/-! ### Words -/

theorem words_append_cons (before after : Text) {c : Char} (blank : isBlank c = true) :
    words (before ++ c :: after) = words before ++ words after := by
  rw [words, List.splitOnP_append_cons before after blank, List.filter_append]
  rfl

@[simp]
theorem words_nil : words [] = [] := rfl

theorem words_noBlank {text : Text} (noBlank : NoBlank text) :
    words text = [text].filter fun word => !word.isEmpty := by
  rw [words, List.splitOnP_eq_singleton noBlank]

theorem IsWord.words {word : Text} (isWord : IsWord word) : words word = [word] := by
  rw [words_noBlank isWord.2, List.filter_cons_of_pos]
  · rfl
  · simpa using isWord.1

theorem isWord_of_mem_words {text word : Text} (member : word ∈ words text) : IsWord word := by
  refine ⟨?_, ?_⟩
  · simpa using (List.mem_filter.mp member).2
  · induction size : text.length using Nat.strong_induction_on generalizing text with
    | _ bound inductionHypothesis =>
      rcases words_cases text with ⟨noBlank, whole⟩ | ⟨before, c, after, rfl, _, pieces⟩
      · rw [whole] at member
        rw [List.mem_singleton.mp (List.mem_filter.mp member).1]
        exact noBlank
      · rw [List.length_append, List.length_cons] at size
        rw [pieces] at member
        rcases List.mem_append.mp member with left | right
        · exact inductionHypothesis before.length (by omega) left rfl
        · exact inductionHypothesis after.length (by omega) right rfl

/-- The words of fields between tabs are the fields that are not empty. -/
theorem words_intercalate {fields : List Text} (noBlank : ∀ field ∈ fields, NoBlank field) :
    words (['\t'].intercalate fields) = fields.filter fun field => !field.isEmpty := by
  induction fields with
  | nil => rfl
  | cons field rest inductionHypothesis =>
    have here := words_noBlank (noBlank field List.mem_cons_self)
    have later := inductionHypothesis fun other member =>
      noBlank other (List.mem_cons_of_mem field member)
    cases rest with
    | nil => rwa [List.intercalate_singleton]
    | cons next tail =>
      rw [List.intercalate_cons_cons, List.append_assoc, List.singleton_append,
        words_append_cons field _ rfl, here, later, ← List.filter_append]
      rfl

/-- Lines that end in newlines, split at newlines. -/
theorem splitOn_flatMap_lines {α : Type} (line : α → Text) {items : List α}
    (plain : ∀ item ∈ items, '\n' ∉ line item) :
    (items.flatMap fun item => line item ++ ['\n']).splitOn '\n' = items.map line ++ [[]] := by
  induction items with
  | nil => rfl
  | cons item rest inductionHypothesis =>
    rw [List.flatMap_cons, List.append_assoc, List.singleton_append,
      List.splitOn_append_cons_self_of_not_mem (plain item List.mem_cons_self),
      inductionHypothesis fun other member => plain other (List.mem_cons_of_mem item member)]
    rfl

/-! ### Arrays -/

/-- The field `$n` of a line. -/
def field (line : Text) (n : ℕ) : Text := (words line).getD (n - 1) []

theorem noBlank_field (line : Text) (n : ℕ) : NoBlank (field line n) := by
  rw [field, List.getD_eq_getElem?_getD]
  cases found : (words line)[n - 1]? with
  | none => exact nofun
  | some word => exact (isWord_of_mem_words (List.mem_of_getElem? found)).2

theorem isWord_field {line : Text} {n : ℕ} (nonempty : field line n ≠ []) :
    IsWord (field line n) :=
  ⟨nonempty, noBlank_field line n⟩

/-- A line that has a field has those before it. -/
theorem field_ne_nil {line : Text} {m n : ℕ} (le : m ≤ n) (nonempty : field line n ≠ []) :
    field line m ≠ [] := by
  have long : n - 1 < (words line).length := by
    by_contra short
    exact nonempty (List.getD_eq_default _ _ (by omega))
  have inside : m - 1 < (words line).length := by omega
  rw [field, List.getD_eq_getElem _ _ inside]
  exact (isWord_of_mem_words (List.getElem_mem inside)).1

/-- The assignment `array[key] = array[key] " " value`. -/
def appendTo (array : Text → Text) (key value : Text) : Text → Text :=
  Function.update array key (array key ++ ' ' :: value)

section Arrays

variable {Line : Type} (guard : Line → Bool) (key value : Line → Text)

/-- The words of an element are those that the guarded lines with its key appended. -/
theorem words_foldl_appendTo (lines : List Line) (array : Text → Text) (wanted : Text)
    (isWord : ∀ line ∈ lines, guard line = true → key line = wanted → IsWord (value line)) :
    words (lines.foldl (fun array line =>
        if guard line then appendTo array (key line) (value line) else array) array wanted) =
      words (array wanted) ++
        (lines.filter fun line => guard line && decide (key line = wanted)).map value := by
  induction lines generalizing array with
  | nil => rw [List.foldl_nil, List.filter_nil, List.map_nil, List.append_nil]
  | cons line rest inductionHypothesis =>
    have later := fun array => inductionHypothesis array fun other member =>
      isWord other (List.mem_cons_of_mem line member)
    rw [List.foldl_cons, later]
    by_cases guarded : guard line = true
    · rw [if_pos guarded, appendTo]
      by_cases same : key line = wanted
      · have one := isWord line List.mem_cons_self guarded same
        rw [same, Function.update_self, words_append_cons _ _ rfl, one.words,
          List.filter_cons_of_pos (by rw [guarded, decide_eq_true same]; rfl), List.map_cons,
          List.append_assoc, List.singleton_append]
      · rw [Function.update_of_ne (Ne.symm same),
          List.filter_cons_of_neg (by rw [decide_eq_false same]; simp)]
    · rw [if_neg guarded, List.filter_cons_of_neg (by simp [guarded])]

/-- An element is what the last guarded line with its key assigned. -/
theorem foldl_update (lines : List Line) (array : Text → Text) (wanted : Text) :
    lines.foldl (fun array line =>
        if guard line then Function.update array (key line) (value line) else array) array wanted =
      ((lines.filter fun line => guard line && decide (key line = wanted)).getLast?.map
        value).getD (array wanted) := by
  induction lines generalizing array with
  | nil => rfl
  | cons line rest inductionHypothesis =>
    rw [List.foldl_cons, inductionHypothesis]
    by_cases guarded : guard line = true
    · rw [if_pos guarded]
      by_cases same : key line = wanted
      · rw [same, Function.update_self,
          List.filter_cons_of_pos (by rw [guarded, decide_eq_true same]; rfl),
          List.getLast?_cons]
        cases (rest.filter fun line => guard line && decide (key line = wanted)).getLast? <;> rfl
      · rw [Function.update_of_ne (Ne.symm same),
          List.filter_cons_of_neg (by rw [decide_eq_false same]; simp)]
    · rw [if_neg guarded, List.filter_cons_of_neg (by simp [guarded])]

end Arrays

end Shell
