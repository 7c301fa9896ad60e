/-
This file has the texts of paths: their steps, the texts of places, and the commands that take
paths apart.
-/

import Buildroot4G.FileTree
import Buildroot4G.Shell.Text
import Mathlib.Data.List.TakeWhile

namespace Shell

open FileTree

/-- The step that a component of a path is. -/
def step (component : Text) : Step Text :=
  if component = [] ∨ component = ['.'] then .stay
  else if component = ['.', '.'] then .up
  else .down component

/-- The steps of a path. -/
def steps (path : Text) : List (Step Text) := (path.splitOn '/').map step

/-- A name that a place can have. -/
structure IsName (name : Text) : Prop where
  noSlash : '/' ∉ name
  noNul : '\x00' ∉ name
  down : step name = .down name

instance (name : Text) : Decidable (IsName name) :=
  decidable_of_iff ('/' ∉ name ∧ '\x00' ∉ name ∧ step name = .down name)
    ⟨fun ⟨noSlash, noNul, down⟩ => ⟨noSlash, noNul, down⟩,
      fun ⟨noSlash, noNul, down⟩ => ⟨noSlash, noNul, down⟩⟩

/-- The names of a place with a slash before each. -/
def slashed (place : List Text) : Text := place.flatMap fun name => '/' :: name

/-- The canonical path of a place. -/
def pathText (place : List Text) : Text := if place.isEmpty then ['/'] else slashed place

/-- `strrchr(path, '/')`: what is before the last slash and behind it. -/
def strrchr (path : Text) : Option (Text × Text) :=
  match path.reverse.span fun c => c ≠ '/' with
  | (_, []) => none
  | (after, _ :: before) => some (before.reverse, after.reverse)

/-- The text without the slashes at its end. -/
def withoutSlashes (path : Text) : Text := (path.reverse.dropWhile fun c => c = '/').reverse

/-- `dirname`. -/
def dirname (path : Text) : Text :=
  match strrchr (withoutSlashes path) with
  | none => if path.head? = some '/' then ['/'] else ['.']
  | some (before, _) =>
    if withoutSlashes before = [] then ['/'] else withoutSlashes before

/-- `basename`. -/
def basename (path : Text) : Text :=
  if path ≠ [] ∧ withoutSlashes path = [] then ['/']
  else ((strrchr (withoutSlashes path)).map Prod.snd).getD (withoutSlashes path)

theorem steps_append (before after : Text) :
    steps (before ++ '/' :: after) = steps before ++ steps after := by
  rw [steps, steps, steps, ← List.map_append, List.splitOn_eq_splitOnP, List.splitOn_eq_splitOnP,
    List.splitOn_eq_splitOnP, List.splitOnP_append_cons _ _ (by simp)]

theorem steps_of_not_mem {component : Text} (noSlash : '/' ∉ component) :
    steps component = [step component] := by
  rw [steps, List.splitOn_eq_splitOnP, List.splitOnP_eq_singleton]
  · rfl
  · intro c member
    exact beq_eq_false_iff_ne.mpr fun isSlash => noSlash (isSlash ▸ member)

theorem IsName.ne_nil {name : Text} (isName : IsName name) : name ≠ [] := by
  rintro rfl
  cases isName.down

theorem steps_name {name : Text} (isName : IsName name) : steps name = [.down name] := by
  rw [steps_of_not_mem isName.noSlash, isName.down]

theorem slashed_append (before : List Text) (name : Text) :
    slashed (before ++ [name]) = slashed before ++ '/' :: name := by
  rw [slashed, List.flatMap_append, List.flatMap_singleton]
  rfl

theorem pathText_eq_slashed {place : List Text} (nonempty : place ≠ []) :
    pathText place = slashed place := by
  rw [pathText, if_neg (by simpa using nonempty), slashed]

/-- The steps of the path of a place lead to it. -/
theorem steps_slashed {place : List Text} (areNames : ∀ name ∈ place, IsName name) :
    steps (slashed place) = .stay :: stepsTo place := by
  induction place using List.reverseRecOn with
  | nil => rfl
  | append_singleton place name inductionHypothesis =>
    have before := inductionHypothesis fun other member =>
      areNames other (List.mem_append_left _ member)
    have isName := areNames name (List.mem_append_right _ (List.mem_singleton_self name))
    rw [slashed_append, steps_append, before, steps_name isName, stepsTo, stepsTo,
      List.map_append]
    rfl

/-! ### Taking paths apart -/

theorem strrchr_append {name : Text} (noSlash : '/' ∉ name) (before : Text) :
    strrchr (before ++ '/' :: name) = some (before, name) := by
  have free : ∀ c ∈ name.reverse, decide (c ≠ '/') = true := fun c member =>
    decide_eq_true fun isSlash => noSlash (isSlash ▸ List.mem_reverse.mp member)
  rw [strrchr, List.reverse_append, List.reverse_cons, List.append_assoc, List.singleton_append,
    List.span_eq_takeWhile_dropWhile, List.takeWhile_append_of_pos free,
    List.dropWhile_append_of_pos free]
  simp

theorem strrchr_of_not_mem {name : Text} (noSlash : '/' ∉ name) : strrchr name = none := by
  have free : ∀ c ∈ name.reverse, decide (c ≠ '/') = true := fun c member =>
    decide_eq_true fun isSlash => noSlash (isSlash ▸ List.mem_reverse.mp member)
  rw [strrchr, List.span_eq_takeWhile_dropWhile, List.dropWhile_eq_nil_iff.mpr free]

theorem not_slash_getLast {name : Text} (isName : IsName name) :
    ∃ before last, name = before ++ [last] ∧ last ≠ '/' := by
  obtain ⟨before, last, rfl⟩ := (List.eq_nil_or_concat' name).resolve_left isName.ne_nil
  exact ⟨before, last, rfl, fun isSlash => isName.noSlash (isSlash ▸ by simp)⟩

theorem withoutSlashes_append {name : Text} (isName : IsName name) (before : Text) :
    withoutSlashes (before ++ name) = before ++ name := by
  obtain ⟨first, last, rfl, noSlash⟩ := not_slash_getLast isName
  rw [withoutSlashes, ← List.append_assoc, List.reverse_append, List.reverse_singleton,
    List.singleton_append, List.dropWhile_cons_of_neg (by simpa using noSlash)]
  simp

theorem withoutSlashes_slashed (before : List Text) {name : Text} (isName : IsName name) :
    withoutSlashes (slashed (before ++ [name])) = slashed before ++ '/' :: name := by
  have split : slashed (before ++ [name]) = (slashed before ++ ['/']) ++ name := by
    rw [slashed_append, List.append_assoc]
    rfl
  rw [split, withoutSlashes_append isName, ← split, slashed_append]

/-- The directory of a place. -/
theorem dirname_pathText {place : List Text} (areNames : ∀ name ∈ place, IsName name) :
    dirname (pathText place) = pathText place.dropLast := by
  rcases List.eq_nil_or_concat' place with rfl | ⟨before, name, rfl⟩
  · rfl
  · have isName := areNames name (by simp)
    rw [pathText_eq_slashed (by simp), dirname, withoutSlashes_slashed before isName,
      strrchr_append isName.noSlash, List.dropLast_concat]
    rcases List.eq_nil_or_concat' before with rfl | ⟨first, last, rfl⟩
    · rfl
    · have lastName := areNames last (by simp)
      have nonempty : slashed first ++ '/' :: last ≠ [] := by simp
      dsimp only
      rw [withoutSlashes_slashed first lastName, if_neg nonempty, pathText_eq_slashed (by simp),
        slashed_append]

/-- The name of a place. -/
theorem basename_pathText (before : List Text) {name : Text} (isName : IsName name) :
    basename (pathText (before ++ [name])) = name := by
  rw [pathText_eq_slashed (by simp), basename, withoutSlashes_slashed before isName,
    strrchr_append isName.noSlash, if_neg (by simp)]
  rfl

theorem basename_of_noSlash {name : Text} (noSlash : '/' ∉ name) : basename name = name := by
  have whole : withoutSlashes name = name := by
    have free : ∀ c ∈ name.reverse, decide (c = '/') = false := fun c member =>
      decide_eq_false fun isSlash => noSlash (isSlash ▸ List.mem_reverse.mp member)
    rw [withoutSlashes]
    cases reversed : name.reverse with
    | nil => rw [List.dropWhile_nil, ← reversed, List.reverse_reverse]
    | cons c rest =>
      rw [reversed] at free
      rw [List.dropWhile_cons_of_neg (by rw [free c List.mem_cons_self]; exact Bool.false_ne_true),
        ← reversed, List.reverse_reverse]
  rw [basename, whole, strrchr_of_not_mem noSlash, if_neg fun both => both.1 both.2]
  rfl

/-! ### Paths as texts -/

theorem stepsTo_injective {place other : List Text} (same : stepsTo place = stepsTo other) :
    place = other :=
  List.map_injective_iff.mpr (fun _ _ equal => Step.down.inj equal) same

theorem steps_pathText {place : List Text} (areNames : ∀ name ∈ place, IsName name) :
    steps (pathText place) = .stay :: if place = [] then [.stay] else stepsTo place := by
  by_cases root : place = []
  · subst root
    rfl
  · rw [pathText_eq_slashed root, steps_slashed areNames, if_neg root]

/-- Places with the same path are the same. -/
theorem pathText_injective {place other : List Text} (areNames : ∀ name ∈ place, IsName name)
    (otherNames : ∀ name ∈ other, IsName name) (same : pathText place = pathText other) :
    place = other := by
  have sameSteps := congrArg steps same
  rw [steps_pathText areNames, steps_pathText otherNames, List.cons_inj_right] at sameSteps
  split at sameSteps <;> split at sameSteps
  · simp_all
  · next root _ =>
    obtain ⟨first, rest, rfl⟩ := List.exists_cons_of_ne_nil ‹other ≠ []›
    cases (List.cons.inj sameSteps).1
  · obtain ⟨first, rest, rfl⟩ := List.exists_cons_of_ne_nil ‹place ≠ []›
    cases (List.cons.inj sameSteps).1
  · exact stepsTo_injective sameSteps

theorem count_slashed {place : List Text} (areNames : ∀ name ∈ place, IsName name) :
    (slashed place).count '/' = place.length := by
  induction place with
  | nil => rfl
  | cons name place inductionHypothesis =>
    have none : name.count '/' = 0 :=
      List.count_eq_zero.mpr (areNames name List.mem_cons_self).noSlash
    have rest := inductionHypothesis fun other member =>
      areNames other (List.mem_cons_of_mem name member)
    have cons : slashed (name :: place) = '/' :: (name ++ slashed place) := rfl
    rw [cons, List.count_cons_self, List.count_append, none, rest, List.length_cons, Nat.zero_add]

/-- A place is at or below a neighbour whose name begins with the name of the other place and goes
on. -/
def Continues (place other : List Text) : Prop :=
  ∃ before name longer rest, place = before ++ [name] ∧ other = before ++ longer :: rest ∧
    name <+: longer ∧ name ≠ longer

/-- A name before a slash or the end of a path is the beginning of another one. -/
theorem name_prefix_iff {name other : Text} (noSlash : '/' ∉ name) (otherNoSlash : '/' ∉ other)
    (place rest : List Text) :
    name ++ slashed place <+: other ++ slashed rest ↔
      name = other ∧ slashed place <+: slashed rest ∨
        place = [] ∧ name <+: other ∧ name ≠ other := by
  induction name generalizing other with
  | nil =>
    cases other with
    | nil => simp
    | cons c other =>
      have different : c ≠ '/' := fun isSlash => otherNoSlash (isSlash ▸ List.mem_cons_self)
      cases place with
      | nil => simp [slashed]
      | cons first place =>
        have cons : slashed (first :: place) = '/' :: (first ++ slashed place) := rfl
        simp [cons, Ne.symm different]
  | cons c name inductionHypothesis =>
    have notFirst : c ≠ '/' := fun isSlash => noSlash (isSlash ▸ List.mem_cons_self)
    cases other with
    | nil =>
      cases rest with
      | nil => simp [slashed]
      | cons first rest =>
        have cons : slashed (first :: rest) = '/' :: (first ++ slashed rest) := rfl
        simp [cons, notFirst]
    | cons d other =>
      have later := @inductionHypothesis other
        (fun member => noSlash (List.mem_cons_of_mem c member))
        (fun member => otherNoSlash (List.mem_cons_of_mem d member))
      have same : c :: name = d :: other ↔ c = d ∧ name = other := List.cons_eq_cons
      rw [List.cons_append, List.cons_append, List.cons_prefix_cons, later, List.cons_prefix_cons,
        ne_eq, ne_eq, same]
      tauto

/-- The path of a place begins the path of another one that is below it, or that continues it. -/
theorem slashed_prefix_iff {place other : List Text} (areNames : ∀ name ∈ place, IsName name)
    (otherNames : ∀ name ∈ other, IsName name) :
    slashed place <+: slashed other ↔ place <+: other ∨ Continues place other := by
  induction place generalizing other with
  | nil => simp [slashed]
  | cons name place inductionHypothesis =>
    have cons : ∀ (name : Text) (place : List Text),
        slashed (name :: place) = '/' :: (name ++ slashed place) := fun _ _ => rfl
    cases other with
    | nil =>
      have noPrefix : ¬ Continues (name :: place) [] := by
        rintro ⟨before, _, longer, rest, _, other, _⟩
        simp at other
      simp [slashed, noPrefix]
    | cons first other =>
      have noSlash := (areNames name List.mem_cons_self).noSlash
      have firstNoSlash := (otherNames first List.mem_cons_self).noSlash
      have later := @inductionHypothesis other
        (fun name member => areNames name (List.mem_cons_of_mem _ member))
        (fun name member => otherNames name (List.mem_cons_of_mem _ member))
      rw [cons, cons, List.cons_prefix_cons, name_prefix_iff noSlash firstNoSlash, later,
        List.cons_prefix_cons]
      constructor
      · rintro ⟨-, ⟨rfl, below | ⟨before, last, longer, rest, rfl, rfl, starts⟩⟩ |
          ⟨rfl, starts⟩⟩
        · exact Or.inl ⟨rfl, below⟩
        · exact Or.inr ⟨name :: before, last, longer, rest, rfl, rfl, starts⟩
        · exact Or.inr ⟨[], name, first, other, rfl, rfl, starts⟩
      · rintro (⟨rfl, below⟩ | ⟨before, last, longer, rest, split, otherSplit, starts⟩)
        · exact ⟨rfl, Or.inl ⟨rfl, Or.inl below⟩⟩
        · cases before with
          | nil =>
            obtain ⟨rfl, rfl⟩ := List.cons.inj split
            obtain ⟨rfl, rfl⟩ := List.cons.inj otherSplit
            exact ⟨rfl, Or.inr ⟨rfl, starts⟩⟩
          | cons head before =>
            obtain ⟨rfl, rfl⟩ := List.cons.inj split
            obtain ⟨rfl, rfl⟩ := List.cons.inj otherSplit
            exact ⟨rfl, Or.inl ⟨rfl, Or.inr ⟨before, last, longer, rest, rfl, rfl, starts⟩⟩⟩

end Shell
