/-
This file says where the pieces of a split text stand in it, and where a pattern can occur in a
text that is put between two others. A pattern that begins with a character the first text lacks
occurs behind that text, and a pattern that begins with a whole first text without repetition of
its first character occurs at the very beginning or behind it. The mirrored facts hold at the end.
-/

import Buildroot4G.Shell.Text

namespace Shell

variable {α : Type} {c : α} {before after text pattern : List α}

/-! ### Patterns at the borders of a text -/

theorem cons_infix_append_iff (lacks : c ∉ before) :
    c :: pattern <:+: before ++ text ↔ c :: pattern <:+: text := by
  induction before with
  | nil => rw [List.nil_append]
  | cons first rest inductionHypothesis =>
    have different : c ≠ first := fun same => lacks (same ▸ List.mem_cons_self)
    have noPrefix : ¬c :: pattern <+: first :: (rest ++ text) := fun isPrefix =>
      different (List.cons_prefix_cons.mp isPrefix).1
    rw [List.cons_append, List.infix_cons_iff, or_iff_right noPrefix,
      inductionHypothesis fun inside => lacks (List.mem_cons_of_mem _ inside)]

theorem append_singleton_infix_iff (lacks : c ∉ after) :
    pattern ++ [c] <:+: text ++ after ↔ pattern ++ [c] <:+: text := by
  have mirrored : c :: pattern.reverse <:+: after.reverse ++ text.reverse ↔
      c :: pattern.reverse <:+: text.reverse :=
    cons_infix_append_iff fun inside => lacks (List.mem_reverse.mp inside)
  rw [← List.reverse_infix, List.reverse_append, List.reverse_append, List.reverse_singleton,
    List.singleton_append, mirrored, ← List.reverse_infix, List.reverse_reverse,
    List.reverse_cons, List.reverse_reverse]

/-- A text that does not repeat its first character overlaps itself in whole only. -/
theorem marker_infix_iff (lacks : c ∉ before) :
    (c :: before) ++ pattern <:+: (c :: before) ++ text ↔
      pattern <+: text ∨ (c :: before) ++ pattern <:+: text := by
  rw [List.cons_append, List.cons_append, List.infix_cons_iff, cons_infix_append_iff lacks,
    List.cons_prefix_cons, List.prefix_append_right_inj]
  simp only [true_and]

theorem infix_marker_iff (lacks : c ∉ after) :
    pattern ++ (after ++ [c]) <:+: text ++ (after ++ [c]) ↔
      pattern <:+ text ∨ pattern ++ (after ++ [c]) <:+: text := by
  have mirrored :
      (c :: after.reverse) ++ pattern.reverse <:+: (c :: after.reverse) ++ text.reverse ↔
        pattern.reverse <+: text.reverse ∨
          (c :: after.reverse) ++ pattern.reverse <:+: text.reverse :=
    marker_infix_iff fun inside => lacks (List.mem_reverse.mp inside)
  have ends : (after ++ [c]).reverse = c :: after.reverse := by
    rw [List.reverse_append, List.reverse_singleton, List.singleton_append]
  rw [← ends, ← List.reverse_append, ← List.reverse_append, List.reverse_infix,
    List.reverse_infix, List.reverse_prefix] at mirrored
  exact mirrored

theorem append_singleton_prefix_iff (lacks : c ∉ after) :
    pattern ++ [c] <+: text ++ after ↔ pattern ++ [c] <+: text := by
  refine ⟨fun isPrefix => ?_, fun isPrefix => isPrefix.trans (List.prefix_append _ _)⟩
  rcases List.prefix_or_prefix_of_prefix isPrefix (List.prefix_append text after) with
    inside | ⟨rest, whole⟩
  · exact inside
  · cases rest using List.reverseRecOn with
    | nil =>
      rw [← whole, List.append_nil]
    | append_singleton rest last =>
      rw [← List.append_assoc] at whole
      have same : last = c := (List.cons.inj (List.append_inj' whole rfl).2).1
      rw [← whole, same, List.append_assoc, List.prefix_append_right_inj] at isPrefix
      exact absurd (isPrefix.subset (List.mem_append_right rest List.mem_cons_self)) lacks

/-- Such a text is found at the beginning of a text and itself in whole only. -/
theorem marker_prefix_append_iff (lacks : c ∉ before) :
    c :: before <+: text ++ c :: before ↔ text = [] ∨ c :: before <+: text := by
  constructor
  · intro isPrefix
    rcases List.prefix_or_prefix_of_prefix isPrefix (List.prefix_append text (c :: before)) with
      inside | ⟨rest, whole⟩
    · exact Or.inr inside
    · cases text with
      | nil => exact Or.inl rfl
      | cons first others =>
        rw [List.cons_append] at whole
        rw [← whole, ← List.cons_append, List.prefix_append_right_inj, List.cons_append,
          (List.cons.inj whole).1] at isPrefix
        cases rest with
        | nil => exact Or.inr (by rw [← whole, List.append_nil])
        | cons second more =>
          have same : second = c := (List.cons_prefix_cons.mp isPrefix).1
          rw [← (List.cons.inj whole).2, ← same] at lacks
          exact absurd (List.mem_append_right others List.mem_cons_self) lacks
  · rintro (rfl | inside)
    · exact List.prefix_refl _
    · exact inside.trans (List.prefix_append _ _)

/-! ### The pieces of a split text -/

/-- The part of a text before the first separator. -/
theorem append_singleton_prefix_append_cons_iff {piece : List α} (lacks : c ∉ piece)
    (first : c ∉ before) : piece ++ [c] <+: before ++ c :: after ↔ piece = before := by
  have begins : before ++ [c] <+: before ++ c :: after :=
    ⟨after, by rw [List.append_assoc, List.singleton_append]⟩
  constructor
  · intro isPrefix
    rcases List.prefix_or_prefix_of_prefix isPrefix begins with shorter | longer
    · rcases List.prefix_concat_iff.mp shorter with same | inside
      · exact (List.append_inj' same rfl).1
      · exact absurd (inside.subset (List.mem_append_right _ List.mem_cons_self)) first
    · rcases List.prefix_concat_iff.mp longer with same | inside
      · exact (List.append_inj' same rfl).1.symm
      · exact absurd (inside.subset (List.mem_append_right _ List.mem_cons_self)) lacks
  · rintro rfl
    exact begins

/-- A part without separators behind a separator, at the end of a text. -/
theorem cons_suffix_append_cons_iff {piece : List α} (lacks : c ∉ piece) (before : List α) :
    c :: piece <:+ before ++ c :: after ↔ piece = after ∨ c :: piece <:+ after := by
  have ends : c :: after <:+ before ++ c :: after := List.suffix_append before (c :: after)
  constructor
  · intro isSuffix
    rcases List.suffix_or_suffix_of_suffix isSuffix ends with shorter | longer
    · rcases List.suffix_cons_iff.mp shorter with same | inside
      · exact Or.inl (List.cons.inj same).2
      · exact Or.inr inside
    · rcases List.suffix_cons_iff.mp longer with same | inside
      · exact Or.inl (List.cons.inj same).2.symm
      · exact absurd (inside.subset List.mem_cons_self) lacks
  · rintro (rfl | inside)
    · exact ends
    · exact (inside.trans (List.suffix_cons c after)).trans ends

variable [BEq α] [LawfulBEq α]

/-- A piece is the whole text, its beginning, its end, or stands between two separators. -/
theorem mem_splitOn_iff {piece : List α} (lacks : c ∉ piece) :
    piece ∈ text.splitOn c ↔
      piece = text ∨ piece ++ [c] <+: text ∨ c :: piece <:+ text ∨
        c :: (piece ++ [c]) <:+: text := by
  induction size : text.length using Nat.strong_induction_on generalizing text with
  | _ bound inductionHypothesis =>
    by_cases inside : c ∈ text
    · obtain ⟨before, after, rfl, first⟩ := List.eq_append_cons_of_mem inside
      have shorter : after.length < bound := by
        rw [List.length_append, List.length_cons] at size
        omega
      have between : c :: (piece ++ [c]) <:+: before ++ c :: after ↔
          piece ++ [c] <+: after ∨ c :: (piece ++ [c]) <:+: after := by
        rw [cons_infix_append_iff first, List.infix_cons_iff, List.cons_prefix_cons]
        simp only [true_and]
      have notWhole : piece ≠ before ++ c :: after := by
        rintro rfl
        exact lacks inside
      rw [List.splitOn_append_cons_self, List.splitOn_eq_singleton first, List.mem_append,
        List.mem_singleton, inductionHypothesis after.length shorter rfl,
        append_singleton_prefix_append_cons_iff lacks first,
        cons_suffix_append_cons_iff lacks before, between]
      tauto
    · rw [List.splitOn_eq_singleton inside, List.mem_singleton]
      refine ⟨Or.inl, ?_⟩
      rintro (whole | isPrefix | isSuffix | isInfix)
      · exact whole
      · exact absurd (isPrefix.subset (List.mem_append_right _ List.mem_cons_self)) inside
      · exact absurd (isSuffix.subset List.mem_cons_self) inside
      · exact absurd (isInfix.subset List.mem_cons_self) inside

end Shell
