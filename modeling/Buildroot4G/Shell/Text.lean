/-
This file is the text layer of the development: a text is a list of characters,
and the file defines the three things a script does with one that need a theory
of their own. `grep` looks a fixed pattern up, `words` splits at blanks, and
`substitute` is the global substitution `s/.../.../g` of sed, scanning from the
left and never looking at replaced text again.

The substitution is generic in the matcher: `matchLength text` is the length of
the match that starts at the head of `text`, or `0` when none does. The facts
proved are the ones a substitution on line-oriented text rests on: it commutes
with cutting the text at a character that no match contains, it leaves prefixes
alone that no match can start in, and it removes every match whose text the
replacement does not bring back.
-/

import Mathlib.Data.List.Infix

namespace Shell

/-- A text is a list of characters. -/
abbrev Text := List Char

instance : LawfulBEq Text := inferInstance

/-- A property of the characters of a text is decided on these, not on all characters. -/
instance (priority := 2000) decidableForallMem (p : Char → Prop) [DecidablePred p]
    (text : List Char) : Decidable (∀ c ∈ text, p c) :=
  List.decidableBAll p text

instance (priority := 2000) decidableExistsMem (p : Char → Prop) [DecidablePred p]
    (text : List Char) : Decidable (∃ c ∈ text, p c) :=
  List.decidableBEx p text

/-! ### Looking up and splitting -/

/-- Whether a fixed pattern occurs in a text. -/
def grep (pattern text : Text) : Bool := decide (pattern <:+: text)

theorem grep_eq_true {pattern text : Text} : grep pattern text = true ↔ pattern <:+: text := by
  rw [grep, decide_eq_true_iff]

theorem grep_eq_false {pattern text : Text} :
    grep pattern text = false ↔ ¬ pattern <:+: text := by
  rw [grep, decide_eq_false_iff_not]

/-- The characters that separate words. -/
def isBlank (c : Char) : Bool := c == ' ' || c == '\t' || c == '\n'

/-- The words of a text: its maximal pieces without a blank. -/
def words (text : Text) : List Text := (text.splitOnP isBlank).filter fun word => !word.isEmpty

/-- A text without separators is its only piece; any other text is cut at one of them. -/
theorem splitOnP_cases {α : Type} (separator : α → Bool) (text : List α) :
    (∀ c ∈ text, separator c = false) ∧ text.splitOnP separator = [text] ∨
      ∃ before c after, text = before ++ c :: after ∧ separator c = true ∧
        text.splitOnP separator = before.splitOnP separator ++ after.splitOnP separator := by
  by_cases free : ∀ c ∈ text, separator c = false
  · exact Or.inl ⟨free, List.splitOnP_eq_singleton free⟩
  · push Not at free
    obtain ⟨c, member, isSeparator⟩ := free
    have isTrue : separator c = true := by simpa using isSeparator
    obtain ⟨before, after, rfl⟩ := List.append_of_mem member
    exact Or.inr ⟨before, c, after, rfl, isTrue, List.splitOnP_append_cons before after isTrue⟩

/-- Every piece of a split is a part of the text that was split. -/
theorem infix_of_mem_splitOnP {α : Type} (separator : α → Bool) (text piece : List α)
    (member : piece ∈ text.splitOnP separator) : piece <:+: text := by
  induction size : text.length using Nat.strong_induction_on generalizing text with
  | _ bound inductionHypothesis =>
    rcases splitOnP_cases separator text with ⟨_, whole⟩ | ⟨before, c, after, rfl, _, pieces⟩
    · rw [whole, List.mem_singleton] at member
      rw [member]
    · rw [List.length_append, List.length_cons] at size
      rw [pieces] at member
      rcases List.mem_append.mp member with left | right
      · exact (inductionHypothesis before.length (by omega) before left rfl).trans
          (List.prefix_append before (c :: after)).isInfix
      · exact (inductionHypothesis after.length (by omega) after right rfl).trans
          ((List.suffix_cons c after).trans (List.suffix_append before (c :: after))).isInfix

/-- The pieces of a split have no separator. -/
theorem not_mem_of_mem_splitOn {α : Type} [BEq α] [LawfulBEq α] {separator : α}
    {text piece : List α} (member : piece ∈ text.splitOn separator) : separator ∉ piece := by
  rw [List.splitOn_eq_splitOnP] at member
  induction size : text.length using Nat.strong_induction_on generalizing text with
  | _ bound inductionHypothesis =>
    rcases splitOnP_cases (· == separator) text with
      ⟨free, whole⟩ | ⟨before, c, after, rfl, _, pieces⟩
    · rw [whole, List.mem_singleton] at member
      rw [member]
      intro inside
      have different := free separator inside
      rw [beq_self_eq_true] at different
      cases different
    · rw [List.length_append, List.length_cons] at size
      rw [pieces] at member
      rcases List.mem_append.mp member with left | right
      · exact inductionHypothesis before.length (by omega) left rfl
      · exact inductionHypothesis after.length (by omega) right rfl

theorem infix_of_mem_words {text word : Text} (member : word ∈ words text) : word <:+: text :=
  infix_of_mem_splitOnP isBlank text word (List.mem_filter.mp member).1

/-- The words of a text without blanks, or cut at one of them. -/
theorem words_cases (text : Text) :
    (∀ c ∈ text, isBlank c = false) ∧ words text = [text].filter (fun word => !word.isEmpty) ∨
      ∃ before c after, text = before ++ c :: after ∧ isBlank c = true ∧
        words text = words before ++ words after := by
  rcases splitOnP_cases isBlank text with ⟨free, whole⟩ | ⟨before, c, after, rfl, blank, pieces⟩
  · exact Or.inl ⟨free, by rw [words, whole]⟩
  · exact Or.inr ⟨before, c, after, rfl, blank, by rw [words, pieces, List.filter_append]; rfl⟩

/-- A text without words is blank. -/
theorem isBlank_of_words_eq_nil {text : Text} (none : words text = []) :
    ∀ c ∈ text, isBlank c = true := by
  induction size : text.length using Nat.strong_induction_on generalizing text with
  | _ bound inductionHypothesis =>
    rcases words_cases text with ⟨_, whole⟩ | ⟨before, c, after, rfl, blank, pieces⟩
    · cases text with
      | nil => nofun
      | cons c rest =>
        rw [whole] at none
        cases none
    · rw [List.length_append, List.length_cons] at size
      rw [pieces, List.append_eq_nil_iff] at none
      intro d member
      rcases List.mem_append.mp member with left | right
      · exact inductionHypothesis before.length (by omega) none.1 rfl d left
      · rcases List.mem_cons.mp right with rfl | right
        · exact blank
        · exact inductionHypothesis after.length (by omega) none.2 rfl d right

/-- A text with one word is that word between blanks. -/
theorem eq_of_words_eq_singleton {text word : Text} (one : words text = [word]) :
    ∃ before after, text = before ++ (word ++ after) ∧ (∀ c ∈ before, isBlank c = true) ∧
      ∀ c ∈ after, isBlank c = true := by
  induction size : text.length using Nat.strong_induction_on generalizing text with
  | _ bound inductionHypothesis =>
    rcases words_cases text with ⟨_, whole⟩ | ⟨before, c, after, rfl, blank, pieces⟩
    · rw [whole] at one
      have member := List.mem_filter.mp (one ▸ List.mem_singleton_self word)
      refine ⟨[], [], ?_, nofun, nofun⟩
      rw [List.mem_singleton.mp member.1, List.nil_append, List.append_nil]
    · rw [List.length_append, List.length_cons] at size
      rw [pieces] at one
      rcases List.append_eq_singleton_iff.mp one with ⟨none, one⟩ | ⟨one, none⟩
      · obtain ⟨before', after', rfl, beforeBlank, afterBlank⟩ :=
          inductionHypothesis after.length (by omega) one rfl
        refine ⟨before ++ c :: before', after', by simp, fun d member => ?_, afterBlank⟩
        rcases List.mem_append.mp member with left | right
        · exact isBlank_of_words_eq_nil none d left
        · exact (List.mem_cons.mp right).elim (fun same => same ▸ blank) (beforeBlank d)
      · obtain ⟨before', after', rfl, beforeBlank, afterBlank⟩ :=
          inductionHypothesis before.length (by omega) one rfl
        refine ⟨before', after' ++ c :: after, by simp, beforeBlank, fun d member => ?_⟩
        rcases List.mem_append.mp member with left | right
        · exact afterBlank d left
        · exact (List.mem_cons.mp right).elim (fun same => same ▸ blank)
            (isBlank_of_words_eq_nil none d)

/-- A pattern that lacks a character is the prefix of a text exactly when it is the prefix of
the part before that character. -/
theorem prefix_append_cons_iff {pattern : Text} {c : Char} (lacks : c ∉ pattern)
    (before after : Text) : pattern <+: before ++ c :: after ↔ pattern <+: before := by
  induction before generalizing pattern with
  | nil =>
    cases pattern with
    | nil => exact iff_of_true List.nil_prefix List.nil_prefix
    | cons head tail =>
      refine iff_of_false (fun isPrefix => ?_) (fun isPrefix => ?_)
      · exact lacks ((List.cons_prefix_cons.mp isPrefix).1 ▸ List.mem_cons_self)
      · exact absurd (List.prefix_nil.mp isPrefix) (List.cons_ne_nil _ _)
  | cons first rest inductionHypothesis =>
    cases pattern with
    | nil => exact iff_of_true List.nil_prefix List.nil_prefix
    | cons head tail =>
      rw [List.cons_append, List.cons_prefix_cons, List.cons_prefix_cons,
        inductionHypothesis (fun member => lacks (List.mem_cons_of_mem _ member))]

/-! ### Global substitution -/

/-- The scan of a global substitution, with the number of characters of the current match
that are still to be skipped. -/
def substituteFrom (matchLength : Text → Nat) (replacement : Text) : Nat → Text → Text
  | _, [] => []
  | skip + 1, _ :: rest => substituteFrom matchLength replacement skip rest
  | 0, c :: rest =>
    match matchLength (c :: rest) with
    | 0 => c :: substituteFrom matchLength replacement 0 rest
    | length + 1 => replacement ++ substituteFrom matchLength replacement length rest

/-- sed's `s/.../replacement/g`: every match, from the left and without overlaps, is
replaced. -/
def substitute (matchLength : Text → Nat) (replacement text : Text) : Text :=
  substituteFrom matchLength replacement 0 text

section Substitute

variable (matchLength : Text → Nat) (replacement : Text)

theorem substituteFrom_eq_drop (skip : Nat) (text : Text) :
    substituteFrom matchLength replacement skip text =
      substitute matchLength replacement (text.drop skip) := by
  induction text generalizing skip with
  | nil => cases skip <;> rfl
  | cons c rest inductionHypothesis =>
    cases skip with
    | zero => rfl
    | succ skip =>
      rw [List.drop_succ_cons, ← inductionHypothesis skip]
      rfl

/-- Where no match starts, the scan copies one character. -/
theorem substitute_cons_of_noMatch {c : Char} {rest : Text}
    (noMatch : matchLength (c :: rest) = 0) :
    substitute matchLength replacement (c :: rest) =
      c :: substitute matchLength replacement rest := by
  rw [substitute, substituteFrom, noMatch]
  rfl

/-- Where a match starts, the scan emits the replacement and continues behind the match. -/
theorem substitute_of_match {text : Text} (isMatch : matchLength text ≠ 0) (nonempty : text ≠ []) :
    substitute matchLength replacement text =
      replacement ++ substitute matchLength replacement (text.drop (matchLength text)) := by
  cases text with
  | nil => exact absurd rfl nonempty
  | cons c rest =>
    rw [substitute, substituteFrom]
    cases found : matchLength (c :: rest) with
    | zero => exact absurd found isMatch
    | succ length =>
      show replacement ++ substituteFrom matchLength replacement length rest = _
      rw [substituteFrom_eq_drop, List.drop_succ_cons]

/-- The scan can be cut at a character that no match contains. -/
theorem substituteFrom_append_cons (separator : Char)
    (noEmpty : matchLength [] = 0)
    (bounded : ∀ text, matchLength text ≤ text.length)
    (cut : ∀ before after, matchLength (before ++ separator :: after) = matchLength before)
    (skip : Nat) (before after : Text) (inside : skip ≤ before.length) :
    substituteFrom matchLength replacement skip (before ++ separator :: after) =
      substituteFrom matchLength replacement skip before ++
        separator :: substitute matchLength replacement after := by
  induction before generalizing skip with
  | nil =>
    have zero : skip = 0 := Nat.le_zero.mp inside
    subst zero
    have noMatch : matchLength (separator :: after) = 0 := by
      rw [← List.nil_append (separator :: after), cut [] after, noEmpty]
    exact substitute_cons_of_noMatch matchLength replacement noMatch
  | cons c rest inductionHypothesis =>
    cases skip with
    | succ skip => exact inductionHypothesis skip (Nat.le_of_succ_le_succ inside)
    | zero =>
      have same := cut (c :: rest) after
      rw [List.cons_append] at same ⊢
      rw [substituteFrom, substituteFrom, same]
      cases found : matchLength (c :: rest) with
      | zero => exact congrArg (List.cons c) (inductionHypothesis 0 (Nat.zero_le _))
      | succ length =>
        have fits : matchLength (c :: rest) ≤ rest.length + 1 := bounded (c :: rest)
        rw [found] at fits
        show replacement ++ substituteFrom matchLength replacement length
          (rest ++ separator :: after) = _
        rw [inductionHypothesis length (Nat.le_of_succ_le_succ fits), List.append_assoc]

/-- Substitution commutes with splitting at characters that neither a match nor the
replacement contains. -/
theorem splitOnP_substitute (separator : Char → Bool)
    (noEmpty : matchLength [] = 0)
    (bounded : ∀ text, matchLength text ≤ text.length)
    (cut : ∀ c, separator c = true →
      ∀ before after, matchLength (before ++ c :: after) = matchLength before)
    (clean : ∀ c ∈ replacement, separator c = false) (text : Text) :
    (substitute matchLength replacement text).splitOnP separator =
      (text.splitOnP separator).map (substitute matchLength replacement) := by
  have keeps : ∀ skip (piece : Text), (∀ c ∈ piece, separator c = false) →
      ∀ c ∈ substituteFrom matchLength replacement skip piece, separator c = false := by
    intro skip piece
    induction piece generalizing skip with
    | nil => exact fun _ c member => absurd member (by cases skip <;> exact List.not_mem_nil)
    | cons head rest inductionHypothesis =>
      intro free c member
      have restFree : ∀ c ∈ rest, separator c = false :=
        fun c inRest => free c (List.mem_cons_of_mem _ inRest)
      cases skip with
      | succ skip => exact inductionHypothesis skip restFree c member
      | zero =>
        rw [substituteFrom] at member
        split at member
        · rcases List.mem_cons.mp member with rfl | tail
          · exact free c List.mem_cons_self
          · exact inductionHypothesis 0 restFree c tail
        · rcases List.mem_append.mp member with new | tail
          · exact clean c new
          · exact inductionHypothesis _ restFree c tail
  induction size : text.length using Nat.strong_induction_on generalizing text with
  | _ bound inductionHypothesis =>
    rcases splitOnP_cases separator text with
      ⟨free, whole⟩ | ⟨before, c, after, rfl, isSeparator, pieces⟩
    · rw [whole, substitute, List.splitOnP_eq_singleton (keeps 0 text free)]
      rfl
    · rw [List.length_append, List.length_cons] at size
      rw [pieces, List.map_append, ← inductionHypothesis before.length (by omega) before rfl,
        ← inductionHypothesis after.length (by omega) after rfl, substitute,
        substituteFrom_append_cons matchLength replacement c noEmpty bounded
          (cut c isSeparator) 0 before after (Nat.zero_le _),
        List.splitOnP_append_cons _ _ isSeparator]
      rfl

/-- A prefix at whose characters no match starts is the prefix of a substituted text exactly
when it is the prefix of the text. -/
theorem prefix_substitute_iff (pattern : Text)
    (noStart : ∀ c ∈ pattern, ∀ rest, matchLength (c :: rest) = 0)
    (starts : ∀ c ∈ pattern, ∀ rest, ¬ [c] <+: replacement ++ rest) (text : Text) :
    pattern <+: substitute matchLength replacement text ↔ pattern <+: text := by
  induction pattern generalizing text with
  | nil => exact iff_of_true List.nil_prefix List.nil_prefix
  | cons head tail inductionHypothesis =>
    have tailRule := inductionHypothesis
      (fun c member => noStart c (List.mem_cons_of_mem _ member))
      (fun c member => starts c (List.mem_cons_of_mem _ member))
    cases text with
    | nil => rfl
    | cons c rest =>
      by_cases isMatch : matchLength (c :: rest) = 0
      · rw [substitute_cons_of_noMatch matchLength replacement isMatch,
          List.cons_prefix_cons, List.cons_prefix_cons, tailRule]
      · rw [substitute_of_match matchLength replacement isMatch (List.cons_ne_nil _ _)]
        refine iff_of_false (fun isPrefix => ?_) (fun isPrefix => ?_)
        · exact starts head List.mem_cons_self _
            ((List.prefix_append [head] tail).trans isPrefix)
        · rw [(List.cons_prefix_cons.mp isPrefix).1] at noStart
          exact isMatch (noStart c List.mem_cons_self rest)

end Substitute

/-! ### Substitutions that keep a part of the match -/

/-- The scan of a substitution whose replacement is made of the matched text. -/
def substituteWithFrom (matchLength : Text → Nat) (replace : Text → Text) : Nat → Text → Text
  | _, [] => []
  | skip + 1, _ :: rest => substituteWithFrom matchLength replace skip rest
  | 0, c :: rest =>
    match matchLength (c :: rest) with
    | 0 => c :: substituteWithFrom matchLength replace 0 rest
    | length + 1 =>
      replace ((c :: rest).take (length + 1)) ++ substituteWithFrom matchLength replace length rest

/-- sed's `s/.../.../g` with `\1` in the replacement. -/
def substituteWith (matchLength : Text → Nat) (replace : Text → Text) (text : Text) : Text :=
  substituteWithFrom matchLength replace 0 text

section SubstituteWith

variable (matchLength : Text → Nat) (replace : Text → Text)

theorem substituteWith_cons_of_noMatch {c : Char} {rest : Text}
    (noMatch : matchLength (c :: rest) = 0) :
    substituteWith matchLength replace (c :: rest) =
      c :: substituteWith matchLength replace rest := by
  rw [substituteWith, substituteWithFrom, noMatch]
  rfl

theorem substituteWithFrom_eq_drop (skip : Nat) (text : Text) :
    substituteWithFrom matchLength replace skip text =
      substituteWith matchLength replace (text.drop skip) := by
  induction text generalizing skip with
  | nil => cases skip <;> rfl
  | cons c rest inductionHypothesis =>
    cases skip with
    | zero => rfl
    | succ skip => exact inductionHypothesis skip

theorem substituteWith_cons_of_match {c : Char} {rest : Text} {length : Nat}
    (isMatch : matchLength (c :: rest) = length + 1) :
    substituteWith matchLength replace (c :: rest) =
      replace ((c :: rest).take (length + 1)) ++
        substituteWith matchLength replace (rest.drop length) := by
  rw [substituteWith, substituteWithFrom, isMatch]
  simp only
  rw [substituteWithFrom_eq_drop]

/-- Characters at which no match starts are copied. -/
theorem substituteWith_append {before : Text}
    (noMatch : ∀ c ∈ before, ∀ rest, matchLength (c :: rest) = 0) (text : Text) :
    substituteWith matchLength replace (before ++ text) =
      before ++ substituteWith matchLength replace text := by
  induction before with
  | nil => rfl
  | cons c rest inductionHypothesis =>
    obtain ⟨here, later⟩ := List.forall_mem_cons.mp noMatch
    rw [List.cons_append, substituteWith_cons_of_noMatch _ _ (here _), inductionHypothesis later,
      List.cons_append]

end SubstituteWith

end Shell
