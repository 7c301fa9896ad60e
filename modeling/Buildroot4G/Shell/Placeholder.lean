/-
This file is about texts in which directories are replaced by placeholders and later put back,
as `sed` scripts do: `s:/the/path:@NAME@:g` for each directory, then other changes, then
`s:@NAME@:/the/path:g`.

A masked text is a list of pieces, characters and placeholders. When no occurrence of one directory
can begin inside another one, masking the directories one after the other is masking all of them in
one scan. Putting them back goes wrong in one way only: the closing `@` of a placeholder, the name
of another one and the opening `@` of the next placeholder look like a placeholder, too.
-/

import Buildroot4G.Shell.Text
import Mathlib.Data.List.Chain

namespace Shell

/-! ### Literal patterns -/

/-- The length of the match of a literal pattern. -/
def literal (pattern text : Text) : Nat := if pattern <+: text then pattern.length else 0

/-- sed's `s:pattern:replacement:g` for a literal pattern. -/
def replaceAll (pattern replacement text : Text) : Text :=
  substitute (literal pattern) replacement text

section ReplaceAll

variable (pattern replacement : Text)

theorem replaceAll_cons {c : Char} {rest : Text} (noMatch : ¬pattern <+: c :: rest) :
    replaceAll pattern replacement (c :: rest) = c :: replaceAll pattern replacement rest :=
  substitute_cons_of_noMatch _ _ (if_neg noMatch)

theorem replaceAll_append {text : Text} (nonempty : pattern ≠ []) :
    replaceAll pattern replacement (pattern ++ text) =
      replacement ++ replaceAll pattern replacement text := by
  have isMatch : literal pattern (pattern ++ text) = pattern.length :=
    if_pos (List.prefix_append pattern text)
  have notZero : literal pattern (pattern ++ text) ≠ 0 := by
    rw [isMatch]
    exact fun zero => nonempty (List.length_eq_zero_iff.mp zero)
  rw [replaceAll, substitute_of_match _ _ notZero
    (List.append_ne_nil_of_left_ne_nil nonempty text), isMatch, List.drop_left]
  rfl

/-- A part without the first character of the pattern is copied. -/
theorem replaceAll_append_of_not_mem {first : Char} (begins : pattern.head? = some first)
    {before : Text} (absent : first ∉ before) (text : Text) :
    replaceAll pattern replacement (before ++ text) =
      before ++ replaceAll pattern replacement text := by
  induction before with
  | nil => rfl
  | cons c rest inductionHypothesis =>
    obtain ⟨different, restAbsent⟩ := not_or.mp (List.mem_cons.not.mp absent)
    have noMatch : ¬pattern <+: c :: (rest ++ text) := by
      rintro ⟨tail, split⟩
      obtain ⟨patternRest, rfl⟩ := List.head?_eq_some_iff.mp begins
      exact different (List.cons.inj split).1
    rw [List.cons_append, replaceAll_cons _ _ noMatch, inductionHypothesis restAbsent]
    rfl

end ReplaceAll

/-! ### Editing line by line -/

/-- An edit that treats every line for itself. -/
def LineWise (edit : Text → Text) : Prop :=
  ∀ before after, edit (before ++ '\n' :: after) = edit before ++ '\n' :: edit after

/-- `sed`: the edit of every line of a text. -/
def sed (edit : Text → Text) (text : Text) : Text :=
  ['\n'].intercalate ((text.splitOn '\n').map edit)

theorem LineWise.comp {first second : Text → Text} (firstEdit : LineWise first)
    (secondEdit : LineWise second) : LineWise fun text => second (first text) := by
  intro before after
  show second (first (before ++ '\n' :: after)) = _
  rw [firstEdit, secondEdit]

theorem LineWise.sed_eq {edit : Text → Text} (lineWise : LineWise edit) (text : Text) :
    sed edit text = edit text := by
  induction size : text.length using Nat.strong_induction_on generalizing text with
  | _ bound inductionHypothesis =>
    by_cases newline : '\n' ∈ text
    · obtain ⟨before, after, rfl, noNewline⟩ := List.eq_append_cons_of_mem newline
      have shorter : after.length < bound := by
        rw [List.length_append, List.length_cons] at size
        omega
      have later := inductionHypothesis after.length shorter after rfl
      rw [sed] at later
      have more : (after.splitOn '\n').map edit ≠ [] :=
        List.map_eq_nil_iff.not.mpr (List.splitOn_ne_nil '\n' after)
      rw [sed, List.splitOn_append_cons_self_of_not_mem noNewline, List.map_cons,
        List.intercalate_cons_of_ne_nil more, later, lineWise before after, List.append_assoc]
      rfl
    · rw [sed, List.splitOn_eq_singleton newline]
      exact List.intercalate_singleton

theorem lineWise_replaceAll {pattern : Text} (noNewline : '\n' ∉ pattern) (replacement : Text) :
    LineWise (replaceAll pattern replacement) := by
  intro before after
  refine substituteFrom_append_cons (literal pattern) replacement '\n' ?_ ?_ ?_ 0 before after
    (Nat.zero_le _)
  · rw [literal]
    split
    · rename_i isNil
      rw [List.prefix_nil.mp isNil]
      rfl
    · rfl
  · intro text
    rw [literal]
    split
    · rename_i isPrefix
      exact isPrefix.length_le
    · exact Nat.zero_le _
  · intro before after
    rw [literal, literal]
    exact if_congr (prefix_append_cons_iff noNewline before after) rfl rfl

/-! ### Masked texts -/

/-- The directories and the names of their placeholders. -/
structure Placeholders (τ : Type) where
  name : τ → Text
  dir : τ → Text
  name_injective : Function.Injective name
  name_plain : ∀ token, '@' ∉ name token ∧ '/' ∉ name token
  dir_plain : ∀ token, '@' ∉ dir token
  dir_absolute : ∀ token, (dir token).head? = some '/'

/-- A part of a masked text. -/
inductive Piece (τ : Type) where
  | char (c : Char)
  | token (t : τ)

namespace Placeholders

variable {τ : Type} (places : Placeholders τ)

/-- The placeholder as it stands in a text. -/
def mark (token : τ) : Text := '@' :: (places.name token ++ ['@'])

def renderPiece : Piece τ → Text
  | .char c => [c]
  | .token t => places.mark t

def render (pieces : List (Piece τ)) : Text := pieces.flatMap places.renderPiece

/-- The first of the directories that a text begins with. -/
def found (order : List τ) (text : Text) : Option τ :=
  order.find? fun token => places.dir token <+: text

/-- The scan that masks the directories, with the number of characters still to be skipped. -/
def maskFrom (order : List τ) : Nat → Text → List (Piece τ)
  | _, [] => []
  | skip + 1, _ :: rest => maskFrom order skip rest
  | 0, c :: rest =>
    match places.found order (c :: rest) with
    | none => .char c :: maskFrom order 0 rest
    | some token => .token token :: maskFrom order ((places.dir token).length - 1) rest

def mask (order : List τ) (text : Text) : List (Piece τ) := places.maskFrom order 0 text

/-- No occurrence of one of the directories can begin inside an occurrence of another one. -/
def Apart (order : List τ) : Prop :=
  ∀ first ∈ order, ∀ second ∈ order, first ≠ second → ∀ i, 0 < i → i < (places.dir first).length →
    ¬(places.dir first).drop i <+: places.dir second ∧
      ¬places.dir second <+: (places.dir first).drop i

theorem dir_ne_nil (token : τ) : places.dir token ≠ [] := by
  intro isNil
  have absolute := places.dir_absolute token
  rw [isNil] at absolute
  cases absolute

variable {places} {order : List τ}

theorem maskFrom_eq_mask_drop (skip : Nat) (text : Text) :
    places.maskFrom order skip text = places.mask order (text.drop skip) := by
  induction text generalizing skip with
  | nil => cases skip <;> rfl
  | cons c rest inductionHypothesis =>
    cases skip with
    | zero => rfl
    | succ skip => exact inductionHypothesis skip

theorem mask_cons {c : Char} {rest : Text} (notFound : places.found order (c :: rest) = none) :
    places.mask order (c :: rest) = .char c :: places.mask order rest := by
  rw [mask, maskFrom, notFound]
  rfl

theorem prefix_of_found {text : Text} {token : τ} (isFound : places.found order text = some token) :
    token ∈ order ∧ places.dir token <+: text := by
  rw [found] at isFound
  exact ⟨List.mem_of_find?_eq_some isFound, by simpa using List.find?_some isFound⟩

theorem mask_of_found {text : Text} {token : τ} (isFound : places.found order text = some token) :
    places.mask order text =
      .token token :: places.mask order (text.drop (places.dir token).length) := by
  have isPrefix := (prefix_of_found isFound).2
  cases text with
  | nil => exact absurd (List.prefix_nil.mp isPrefix) (places.dir_ne_nil token)
  | cons c rest =>
    rw [mask, maskFrom, isFound]
    simp only
    rw [maskFrom_eq_mask_drop]
    cases length : (places.dir token).length with
    | zero => exact absurd (List.length_eq_zero_iff.mp length) (places.dir_ne_nil token)
    | succ length => rw [Nat.add_sub_cancel, List.drop_succ_cons]

theorem found_of_prefix {text : Text} {token : τ} (inside : token ∈ order)
    (isPrefix : places.dir token <+: text) : (places.found order text).isSome :=
  List.find?_isSome.mpr ⟨token, inside, decide_eq_true isPrefix⟩

theorem found_append_singleton (last : τ) (text : Text) :
    places.found (order ++ [last]) text =
      (places.found order text).or (if places.dir last <+: text then some last else none) := by
  rw [found, List.find?_append, found, List.find?_singleton]
  simp only [decide_eq_true_eq]

/-- Characters before the first place where a directory can begin are copied. -/
theorem mask_append {before after : Text}
    (noStart : ∀ i < before.length, places.found order ((before ++ after).drop i) = none) :
    places.mask order (before ++ after) = before.map .char ++ places.mask order after := by
  induction before with
  | nil => rfl
  | cons c rest inductionHypothesis =>
    have first := noStart 0 (Nat.zero_lt_succ _)
    rw [List.drop_zero, List.cons_append] at first
    rw [List.cons_append, mask_cons first, List.map_cons, List.cons_append,
      inductionHypothesis fun i inside => noStart (i + 1) (Nat.succ_lt_succ inside)]

/-- What a masked text begins with, the text begins with. -/
theorem prefix_of_prefix_render {pattern text : Text} (plain : '@' ∉ pattern)
    (isPrefix : pattern <+: places.render (places.mask order text)) : pattern <+: text := by
  induction pattern generalizing text with
  | nil => exact List.nil_prefix
  | cons c rest inductionHypothesis =>
    obtain ⟨noAt, restPlain⟩ := not_or.mp (List.mem_cons.not.mp plain)
    cases isFound : places.found order text with
    | some token =>
      rw [mask_of_found isFound] at isPrefix
      exact absurd (List.cons_prefix_cons.mp isPrefix).1.symm noAt
    | none =>
      cases text with
      | nil => exact isPrefix
      | cons d textRest =>
        rw [mask_cons isFound] at isPrefix
        obtain ⟨same, later⟩ := List.cons_prefix_cons.mp isPrefix
        rw [same]
        exact List.cons_prefix_cons.mpr ⟨rfl, inductionHypothesis restPlain later⟩

theorem mem_order_of_mem_maskFrom {skip : Nat} {text : Text} {token : τ}
    (inside : .token token ∈ places.maskFrom order skip text) : token ∈ order := by
  induction text generalizing skip with
  | nil => cases skip <;> cases inside
  | cons c rest inductionHypothesis =>
    cases skip with
    | succ skip => exact inductionHypothesis inside
    | zero =>
      rw [maskFrom] at inside
      split at inside
      · rcases List.mem_cons.mp inside with impossible | later
        · cases impossible
        · exact inductionHypothesis later
      · rename_i isFound
        rcases List.mem_cons.mp inside with same | later
        · cases same
          exact (prefix_of_found isFound).1
        · exact inductionHypothesis later

theorem Apart.of_subset {larger : List τ} (apart : places.Apart larger)
    (subset : order ⊆ larger) : places.Apart order :=
  fun first isFirst second isSecond => apart first (subset isFirst) second (subset isSecond)

theorem render_map_char (text : Text) : places.render (text.map .char) = text := by
  induction text with
  | nil => rfl
  | cons c rest inductionHypothesis => exact congrArg (List.cons c) inductionHypothesis

theorem render_append (first second : List (Piece τ)) :
    places.render (first ++ second) = places.render first ++ places.render second :=
  List.flatMap_append

/-- A directory that occurs where no other one was found has nothing masked inside. -/
theorem found_inside {last : τ} (apart : places.Apart (order ++ [last]))
    {text : Text} (isFirst : places.found order (places.dir last ++ text) = none) {i : Nat}
    (inside : i < (places.dir last).length) :
    places.found order ((places.dir last ++ text).drop i) = none := by
  cases Nat.eq_zero_or_pos i with
  | inl zero => rwa [zero, List.drop_zero]
  | inr positive =>
    cases isFound : places.found order ((places.dir last ++ text).drop i) with
    | none => rfl
    | some token =>
      obtain ⟨isToken, isPrefix⟩ := prefix_of_found isFound
      have different : last ≠ token := by
        rintro rfl
        have isSome := found_of_prefix isToken (List.prefix_append (places.dir last) text)
        rw [isFirst] at isSome
        cases isSome
      obtain ⟨notShort, notLong⟩ := apart last (List.mem_append_right _ List.mem_cons_self) token
        (List.mem_append_left _ isToken) different i positive inside
      rw [List.drop_append_of_le_length (Nat.le_of_lt inside)] at isPrefix
      rcases List.prefix_or_prefix_of_prefix isPrefix (List.prefix_append _ text) with
        isLong | isShort
      · exact absurd isLong notLong
      · exact absurd isShort notShort

theorem mask_nil (text : Text) : places.mask [] text = text.map .char := by
  induction text with
  | nil => rfl
  | cons c rest inductionHypothesis =>
    exact (mask_cons rfl).trans (congrArg (List.cons (Piece.char c)) inductionHypothesis)

/-- Masking one more directory. -/
theorem replaceAll_render_mask {last : τ} (apart : places.Apart (order ++ [last])) (text : Text) :
    replaceAll (places.dir last) (places.mark last) (places.render (places.mask order text)) =
      places.render (places.mask (order ++ [last]) text) := by
  have noSlash : ∀ token, '/' ∉ places.mark token := by
    intro token
    rw [mark, List.mem_cons, List.mem_append, List.mem_singleton, not_or, not_or]
    exact ⟨by decide, (places.name_plain token).2, by decide⟩
  induction size : text.length using Nat.strong_induction_on generalizing text with
  | _ bound inductionHypothesis =>
    cases isFound : places.found order text with
    | some token =>
      have isFoundToo : places.found (order ++ [last]) text = some token := by
        rw [found_append_singleton, isFound]
        rfl
      obtain ⟨-, tail, rfl⟩ := prefix_of_found isFound
      rw [mask_of_found isFound, mask_of_found isFoundToo, List.drop_left]
      have shorter : tail.length < bound := by
        have nonempty := List.length_pos_iff.mpr (places.dir_ne_nil token)
        rw [List.length_append] at size
        omega
      have later := inductionHypothesis tail.length shorter tail rfl
      exact (replaceAll_append_of_not_mem _ _ (places.dir_absolute last) (noSlash token) _).trans
        (congrArg (places.mark token ++ ·) later)
    | none =>
      by_cases isLast : places.dir last <+: text
      · have isFoundToo : places.found (order ++ [last]) text = some last := by
          rw [found_append_singleton, isFound, if_pos isLast]
          rfl
        obtain ⟨tail, rfl⟩ := isLast
        have shorter : tail.length < bound := by
          have nonempty := List.length_pos_iff.mpr (places.dir_ne_nil last)
          rw [List.length_append] at size
          omega
        have later := inductionHypothesis tail.length shorter tail rfl
        rw [mask_append fun i inside => found_inside apart isFound inside,
          mask_of_found isFoundToo, List.drop_left, render_append, render_map_char,
          replaceAll_append _ _ (places.dir_ne_nil last), later]
        rfl
      · have isFoundToo : places.found (order ++ [last]) text = none := by
          rw [found_append_singleton, isFound, if_neg isLast]
          rfl
        cases text with
        | nil => rfl
        | cons c rest =>
          have later := inductionHypothesis rest.length (by rw [← size]; exact Nat.lt_succ_self _)
            rest rfl
          have noMatch : ¬places.dir last <+: c :: places.render (places.mask order rest) := by
            intro isPrefix
            have masked : places.dir last <+: places.render (places.mask order (c :: rest)) := by
              rwa [mask_cons isFound]
            exact isLast (prefix_of_prefix_render (places.dir_plain last) masked)
          rw [mask_cons isFound, mask_cons isFoundToo]
          exact (replaceAll_cons _ _ noMatch).trans (congrArg (List.cons c) later)

end Placeholders

end Shell
