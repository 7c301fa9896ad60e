/-
This file is a theory of lists whose items are found by a key and replaced by
removing what the key finds and appending the new item, as a script edits a line of a
configuration file. What a sequence of replacements leaves consists of the items that
no key of the sequence finds, and of a rest that depends on the sequence alone; a
second round of the same replacements therefore changes nothing.
-/

import Mathlib.Data.List.Forall2

namespace Keyed

variable {κ α : Type} (heads : κ → α → Bool)

/-- Enters an item again, at the end. -/
def enter (key : κ) (item : α) (items : List α) : List α :=
  items.filter (fun other => !heads key other) ++ [item]

def enterAll (pairs : List (κ × α)) (items : List α) : List α :=
  pairs.foldl (fun items pair => enter heads pair.1 pair.2 items) items

/-- The items that no key finds. -/
def untouched (keys : List κ) (items : List α) : List α :=
  items.filter fun item => keys.all fun key => !heads key item

variable {heads}

theorem mem_untouched {keys : List κ} {items : List α} {item : α} :
    item ∈ untouched heads keys items ↔ item ∈ items ∧ ∀ key ∈ keys, heads key item = false := by
  simp [untouched]

theorem untouched_append (keys : List κ) (first second : List α) :
    untouched heads keys (first ++ second) =
      untouched heads keys first ++ untouched heads keys second :=
  List.filter_append first second

theorem untouched_cons_key (key : κ) (keys : List κ) (items : List α) :
    untouched heads (key :: keys) items =
      untouched heads keys (items.filter fun other => !heads key other) := by
  rw [untouched, untouched, List.filter_filter]
  exact List.filter_congr fun item _ => Bool.and_comm _ _

theorem enterAll_append (before after : List (κ × α)) (items : List α) :
    enterAll heads (before ++ after) items =
      enterAll heads after (enterAll heads before items) :=
  List.foldl_append

/-- The items no key finds stay, and the rest does not depend on the items. -/
theorem enterAll_eq (pairs : List (κ × α)) (items : List α) :
    enterAll heads pairs items =
      untouched heads (pairs.map Prod.fst) items ++ enterAll heads pairs [] := by
  induction pairs generalizing items with
  | nil => simp [enterAll, untouched]
  | cons pair rest inductionHypothesis =>
    have step : ∀ items, enterAll heads (pair :: rest) items =
        enterAll heads rest (enter heads pair.1 pair.2 items) := fun _ => rfl
    rw [step, step, inductionHypothesis, inductionHypothesis (enter heads pair.1 pair.2 []),
      List.map_cons, untouched_cons_key, enter, enter, untouched_append, List.filter_nil,
      List.nil_append, List.append_assoc]

theorem mem_of_mem_enterAll {pairs : List (κ × α)} {items : List α} {item : α}
    (inside : item ∈ enterAll heads pairs items) :
    item ∈ items ∨ ∃ pair ∈ pairs, pair.2 = item := by
  induction pairs generalizing items with
  | nil => exact Or.inl inside
  | cons pair rest inductionHypothesis =>
    change item ∈ enterAll heads rest (enter heads pair.1 pair.2 items) at inside
    rcases inductionHypothesis inside with old | ⟨later, member, same⟩
    · rcases List.mem_append.mp old with kept | new
      · exact Or.inl (List.mem_of_mem_filter kept)
      · exact Or.inr ⟨pair, List.mem_cons_self, (List.mem_singleton.mp new).symm⟩
    · exact Or.inr ⟨later, List.mem_cons_of_mem pair member, same⟩

/-- What a change of the items leaves of those no key finds, when it changes none of these and
lets the keys find the others still. -/
theorem untouched_map {keys : List κ} {items : List α} {change : α → α}
    (stays : ∀ item ∈ items, (∀ key ∈ keys, heads key item = false) → change item = item)
    (touched : ∀ item ∈ items, (∃ key ∈ keys, heads key item = true) →
      ∃ key ∈ keys, heads key (change item) = true) :
    untouched heads keys (items.map change) = untouched heads keys items := by
  induction items with
  | nil => rfl
  | cons item rest inductionHypothesis =>
    have later := inductionHypothesis
      (fun other member => stays other (List.mem_cons_of_mem item member))
      (fun other member => touched other (List.mem_cons_of_mem item member))
    rw [untouched, untouched] at later
    rw [untouched, untouched, List.map_cons, List.filter_cons, List.filter_cons, later]
    by_cases free : ∀ key ∈ keys, heads key item = false
    · rw [stays item List.mem_cons_self free]
    · have found : ∃ key ∈ keys, heads key item = true := by simpa using free
      obtain ⟨key, member, isHead⟩ := found
      obtain ⟨key', member', isHead'⟩ := touched item List.mem_cons_self ⟨key, member, isHead⟩
      rw [if_neg, if_neg]
      · exact fun all => by simpa [isHead] using List.all_eq_true.mp all key member
      · exact fun all => by simpa [isHead'] using List.all_eq_true.mp all key' member'

/-- Entering items again where the same ones are untouched. -/
theorem enterAll_congr {pairs : List (κ × α)} {first second : List α}
    (same : untouched heads (pairs.map Prod.fst) first =
      untouched heads (pairs.map Prod.fst) second) :
    enterAll heads pairs first = enterAll heads pairs second := by
  rw [enterAll_eq, same, ← enterAll_eq]

theorem untouched_enterAll {pairs : List (κ × α)}
    (own : ∀ pair ∈ pairs, heads pair.1 pair.2 = true) (items : List α) :
    untouched heads (pairs.map Prod.fst) (enterAll heads pairs items) =
      untouched heads (pairs.map Prod.fst) items := by
  have nothing : untouched heads (pairs.map Prod.fst) (enterAll heads pairs []) = [] := by
    refine List.eq_nil_iff_forall_not_mem.mpr fun item inside => ?_
    obtain ⟨entered, free⟩ := mem_untouched.mp inside
    obtain ⟨pair, member, rfl⟩ := (mem_of_mem_enterAll entered).resolve_left List.not_mem_nil
    have isHead := own pair member
    rw [free pair.1 (List.mem_map_of_mem member)] at isHead
    cases isHead
  rw [enterAll_eq, untouched_append, nothing, List.append_nil]
  exact List.filter_eq_self.mpr fun item inside => (List.mem_filter.mp inside).2

/-- Entering the same items twice is entering them once. -/
theorem enterAll_enterAll {pairs : List (κ × α)}
    (own : ∀ pair ∈ pairs, heads pair.1 pair.2 = true) (items : List α) :
    enterAll heads pairs (enterAll heads pairs items) = enterAll heads pairs items :=
  enterAll_congr (untouched_enterAll own items)

/-- Entering related items under the same keys. -/
theorem forall₂_enterAll {related : α → α → Prop}
    (sameHeads : ∀ first second, related first second → ∀ key, heads key first = heads key second)
    {pairs pairs' : List (κ × α)}
    (pairsRelated : List.Forall₂ (fun first second => first.1 = second.1 ∧
      related first.2 second.2) pairs pairs') {items items' : List α}
    (itemsRelated : List.Forall₂ related items items') :
    List.Forall₂ related (enterAll heads pairs items) (enterAll heads pairs' items') := by
  induction pairsRelated generalizing items items' with
  | nil => exact itemsRelated
  | cons head tail inductionHypothesis =>
    obtain ⟨sameKey, headRelated⟩ := head
    refine inductionHypothesis ?_
    refine List.rel_append (List.rel_filter ?_ itemsRelated) (.cons headRelated .nil)
    intro first second isRelated
    simp only [sameKey, sameHeads first second isRelated]

end Keyed
