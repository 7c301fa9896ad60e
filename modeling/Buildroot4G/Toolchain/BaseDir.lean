/-
This file models how `toolchain-wrapper.c` finds the directory it is installed below: when it is
called by a path it resolves `..` of the directory in the path, and otherwise it takes three
components off the path of its executable. The main result is that the two agree exactly when
the path has at least four components: the scan backwards stops before the slash of the root.
-/

import Buildroot4G.Shell.Path

namespace Buildroot4G.Toolchain

open Shell FileTree

/-- The text that a buffer holds for C. -/
def cString (buffer : List Char) : Text := buffer.takeWhile fun c => c ≠ '\x00'

def pathMax : ℕ := 4096

/-- `realpath`, called in a directory. -/
def realpath (tree : Tree Text Unit) (links : ℕ) (cwd : List Text) (path : Text) : Option Text :=
  match walk tree links (if path.head? = some '/' then [] else cwd) (steps path) with
  | none => none
  | some place => if place.isEmpty ∨ (tree place).isSome then some (pathText place) else none

/-- The loop that takes components off the path in a buffer: from `i` down to 1, until `count` is
three. -/
def stripLoop : ℕ → ℕ → List Char → List Char
  | 0, _, absbasedir => absbasedir
  | i + 1, count, absbasedir =>
    if absbasedir[i + 1]? = some '/' then
      let absbasedir := absbasedir.set (i + 1) '\x00'
      if count + 1 = 3 then absbasedir else stripLoop i (count + 1) absbasedir
    else stripLoop i count absbasedir

/-- `absbasedir` in `main`, from the path of the executable and `argv[0]`. -/
def absbasedir (tree : Tree Text Unit) (links : ℕ) (cwd : List Text) (exe progpath : Text) :
    Option Text :=
  match strrchr progpath with
  | some (dirname, _) => realpath tree links cwd (dirname ++ "/../..".toList)
  | none =>
    let link := exe.take pathMax
    some (cString (stripLoop link.length 0 (link ++ ['\x00'])))

/-! ### The scan backwards -/

/-- Characters that are no slash are passed over. -/
theorem stripLoop_skip {absbasedir : List Char} {low i : ℕ} (le : low ≤ i)
    (noSlash : ∀ j, low < j → j ≤ i → absbasedir[j]? ≠ some '/') (count : ℕ) :
    stripLoop i count absbasedir = stripLoop low count absbasedir := by
  induction le with
  | refl => rfl
  | @step i le inductionHypothesis =>
    rw [stripLoop, if_neg (noSlash (i + 1) (Nat.lt_succ_of_le le) (Nat.le_refl _))]
    exact inductionHypothesis fun j above below => noSlash j above (Nat.le_succ_of_le below)

/-- The loop comes to the last slash of the text in the buffer. -/
theorem stripLoop_to_slash {before name : List Char} (noSlash : '/' ∉ name) (after : List Char)
    (count : ℕ) :
    stripLoop (before ++ '/' :: name).length count (before ++ '/' :: name ++ '\x00' :: after) =
      stripLoop before.length count (before ++ '/' :: name ++ '\x00' :: after) := by
  refine stripLoop_skip (by simp) (fun j above below isSlash => ?_) count
  obtain ⟨k, rfl⟩ := Nat.exists_eq_add_of_lt above
  rw [List.append_assoc, List.getElem?_append_right (by omega), List.cons_append] at isSlash
  have index : before.length + k + 1 - before.length = k + 1 := by omega
  rw [index, List.getElem?_cons_succ] at isSlash
  have inside : k ≤ name.length := by
    rw [List.length_append, List.length_cons] at below
    omega
  rcases Nat.lt_or_eq_of_le inside with less | same
  · rw [List.getElem?_append_left less] at isSlash
    exact noSlash (List.mem_of_getElem? isSlash)
  · rw [same, List.getElem?_append_right (Nat.le_refl _), Nat.sub_self] at isSlash
    cases isSlash

/-- A slash that is not the first character is cut at. -/
theorem stripLoop_cut {before name : List Char} (nonempty : before ≠ []) (noSlash : '/' ∉ name)
    (after : List Char) (count : ℕ) :
    stripLoop (before ++ '/' :: name).length count (before ++ '/' :: name ++ '\x00' :: after) =
      if count + 1 = 3 then before ++ '\x00' :: (name ++ '\x00' :: after)
      else stripLoop before.length (count + 1)
        (before ++ '\x00' :: (name ++ '\x00' :: after)) := by
  rw [stripLoop_to_slash noSlash]
  obtain ⟨k, position⟩ : ∃ k, before.length = k + 1 :=
    Nat.exists_eq_add_one_of_ne_zero fun zero => nonempty (List.length_eq_zero_iff.mp zero)
  have whole : before ++ '/' :: name ++ '\x00' :: after =
      before ++ '/' :: (name ++ '\x00' :: after) := by
    rw [List.append_assoc, List.cons_append]
  have slash : (before ++ '/' :: (name ++ '\x00' :: after))[k + 1]? = some '/' := by
    rw [← position, List.getElem?_append_right (Nat.le_refl _), Nat.sub_self]
    rfl
  have cut : (before ++ '/' :: (name ++ '\x00' :: after)).set (k + 1) '\x00' =
      before ++ '\x00' :: (name ++ '\x00' :: after) := by
    rw [← position, List.set_append_right _ _ (Nat.le_refl _), Nat.sub_self]
    rfl
  have skip := @stripLoop_skip (before ++ '\x00' :: (name ++ '\x00' :: after)) k (k + 1)
    (Nat.le_succ k) (fun j above below => by
      rw [Nat.le_antisymm below above, ← position, List.getElem?_append_right (Nat.le_refl _),
        Nat.sub_self]
      simp) (count + 1)
  rw [whole, position, stripLoop, if_pos slash]
  simp only [cut]
  rw [skip]

/-- The slash of the root stays. -/
theorem stripLoop_root {name : List Char} (noSlash : '/' ∉ name) (after : List Char) (count : ℕ) :
    stripLoop ('/' :: name).length count ('/' :: name ++ '\x00' :: after) =
      '/' :: name ++ '\x00' :: after :=
  @stripLoop_to_slash [] name noSlash after count

theorem cString_append {text : Text} (noNul : '\x00' ∉ text) (after : List Char) :
    cString (text ++ '\x00' :: after) = text := by
  have stays : ∀ c ∈ text, decide (c ≠ '\x00') = true := fun c member =>
    decide_eq_true fun isNul => noNul (isNul ▸ member)
  rw [cString, List.takeWhile_append_of_pos stays]
  simp

theorem noNul_slashed {place : List Text} (areNames : ∀ name ∈ place, IsName name) :
    '\x00' ∉ slashed place := by
  intro member
  obtain ⟨name, inside, isNul⟩ := List.mem_flatMap.mp member
  rcases List.mem_cons.mp isNul with isSlash | isNul
  · cases isSlash
  · exact (areNames name inside).noNul isNul

/-- The scan takes off as many components as are left to count, but not the first one. -/
theorem cString_stripLoop {place : List Text} (nonempty : place ≠ [])
    (areNames : ∀ name ∈ place, IsName name) (after : List Char) {count left : ℕ}
    (three : count + left = 3) (some : 0 < left) :
    cString (stripLoop (slashed place).length count (slashed place ++ '\x00' :: after)) =
      slashed (place.take (max 1 (place.length - left))) := by
  induction left generalizing place after count with
  | zero => exact absurd some (Nat.lt_irrefl 0)
  | succ left inductionHypothesis =>
    obtain ⟨before, name, rfl⟩ := (List.eq_nil_or_concat' place).resolve_left nonempty
    have isName := areNames name (by simp)
    have beforeNames : ∀ other ∈ before, IsName other := fun other member =>
      areNames other (List.mem_append_left _ member)
    have nameNul : '\x00' ∉ '/' :: name := by simpa using isName.noNul
    by_cases root : before = []
    · subst root
      have one : slashed [name] = '/' :: name := by simp [slashed]
      rw [List.nil_append, one, stripLoop_root isName.noSlash, cString_append nameNul]
      simp [slashed]
    · have shorter : slashed before ≠ [] := by
        obtain ⟨first, rest, rfl⟩ := List.exists_cons_of_ne_nil root
        simp [slashed]
      have positive : 0 < before.length := List.length_pos_of_ne_nil root
      rw [slashed_append, stripLoop_cut shorter isName.noSlash]
      split
      · have last : left = 0 := by omega
        rw [cString_append (noNul_slashed beforeNames), last, List.length_append,
          List.length_singleton, Nat.zero_add, Nat.add_sub_cancel, Nat.max_eq_right positive,
          List.take_left]
      · rw [inductionHypothesis root beforeNames _ (by omega) (by omega), List.length_append,
          List.length_singleton, List.take_append_of_le_length (by omega)]
        congr 3
        omega

/-! ### The base directory -/

/-- The wrapper is installed at a place: at a canonical path that the system takes. -/
structure Installed (tree : Tree Text Unit) (place : List Text) : Prop where
  nonempty : place ≠ []
  areNames : ∀ name ∈ place, IsName name
  fits : (pathText place).length < pathMax
  dirs : Dirs tree place.dropLast
  file : tree place = some (.file ())

section Installed

variable {tree : Tree Text Unit} {place : List Text}

/-- Called by another name, the wrapper takes components off its path. -/
theorem absbasedir_exe (installed : Installed tree place) (links : ℕ) (cwd : List Text)
    {progpath : Text} (noSlash : '/' ∉ progpath) :
    absbasedir tree links cwd (pathText place) progpath =
      some (slashed (place.take (max 1 (place.length - 3)))) := by
  have link : (slashed place).take pathMax = slashed place := by
    refine List.take_of_length_le (Nat.le_of_lt ?_)
    rw [← pathText_eq_slashed installed.nonempty]
    exact installed.fits
  rw [absbasedir, strrchr_of_not_mem noSlash, pathText_eq_slashed installed.nonempty]
  simp only [link]
  rw [cString_stripLoop installed.nonempty installed.areNames [] (Nat.zero_add 3) (by decide)]

/-- Called by its path, the wrapper goes up from its directory. -/
theorem absbasedir_path (installed : Installed tree place) (links : ℕ) (cwd : List Text)
    (exe : Text) :
    absbasedir tree links cwd exe (pathText place) =
      some (pathText (place.take (place.length - 3))) := by
  obtain ⟨before, name, rfl⟩ := (List.eq_nil_or_concat' place).resolve_left installed.nonempty
  have isName := installed.areNames name (by simp)
  have beforeNames : ∀ other ∈ before, IsName other := fun other member =>
    installed.areNames other (List.mem_append_left _ member)
  have dirs : Dirs tree before := by
    have := installed.dirs
    rwa [List.dropLast_concat] at this
  rw [absbasedir, pathText_eq_slashed installed.nonempty, slashed_append,
    strrchr_append isName.noSlash]
  have upwards : steps (slashed before ++ "/../..".toList) =
      .stay :: (stepsTo before ++ (List.replicate 2 .up ++ [])) := by
    change steps (slashed before ++ '/' :: "../..".toList) = _
    rw [steps_append, steps_slashed beforeNames]
    rfl
  have absolute : (slashed before ++ "/../..".toList).head? = some '/' := by
    cases before <;> rfl
  have ends : walk tree links [] (steps (slashed before ++ "/../..".toList)) =
      some (before.take (before.length - 2)) := by
    rw [upwards, walk_stay, walk_stepsTo dirs, walk_replicate_up, walk_nil]
  have isThere : before.take (before.length - 2) ≠ [] →
      tree (before.take (before.length - 2)) = some .dir :=
    dirs _ (List.take_prefix _ _)
  have taken : (before ++ [name]).take ((before ++ [name]).length - 3) =
      before.take (before.length - 2) := by
    rw [List.length_append, List.length_singleton, List.take_append_of_le_length (by omega)]
    congr 1
  simp only [realpath, absolute, if_true, ends, taken]
  rw [if_pos]
  by_cases root : before.take (before.length - 2) = []
  · exact Or.inl (by simp [root])
  · exact Or.inr (by rw [isThere root]; rfl)

/-- The two ways to find the base directory agree if and only if the path of the wrapper has at
least four components. -/
theorem absbasedir_agrees_iff (installed : Installed tree place) (links : ℕ) (cwd : List Text)
    (progpath : Text) (noSlash : '/' ∉ progpath) :
    absbasedir tree links cwd (pathText place) (pathText place) =
        absbasedir tree links cwd (pathText place) progpath ↔
      4 ≤ place.length := by
  rw [absbasedir_exe installed links cwd noSlash, absbasedir_path installed links cwd,
    Option.some_inj]
  have positive : 0 < place.length := List.length_pos_of_ne_nil installed.nonempty
  constructor
  · intro same
    by_contra few
    have one : max 1 (place.length - 3) = 1 := by omega
    have none : place.length - 3 = 0 := by omega
    obtain ⟨first, rest, rfl⟩ := List.exists_cons_of_ne_nil installed.nonempty
    have isName := installed.areNames first List.mem_cons_self
    rw [one, none] at same
    -- the root on one side, the first component on the other
    have root : ['/'] = '/' :: first ++ [] := same
    rw [List.append_nil] at root
    exact isName.ne_nil (List.cons.inj root).2.symm
  · intro deep
    rw [Nat.max_eq_right (by omega), pathText_eq_slashed]
    intro root
    have length := congrArg List.length root
    rw [List.length_take, List.length_nil] at length
    omega

end Installed

/-- A file at a place, with the directories on the way to it. -/
def treeOf (place : List Text) : Tree Text Unit := fun other =>
  if other = place then some (.file ()) else if other <+: place then some .dir else none

theorem installed_treeOf {place : List Text} (nonempty : place ≠ [])
    (areNames : ∀ name ∈ place, IsName name) (fits : (pathText place).length < pathMax) :
    Installed (treeOf place) place := by
  refine ⟨nonempty, areNames, fits, fun before isPrefix _ => ?_, if_pos rfl⟩
  have shorter : before.length < place.length := by
    have length := isPrefix.length_le
    have positive := List.length_pos_of_ne_nil nonempty
    rw [List.length_dropLast] at length
    omega
  have different : before ≠ place := fun same => Nat.ne_of_lt shorter (congrArg List.length same)
  rw [treeOf, if_neg different, if_pos (isPrefix.trans (List.dropLast_prefix place))]

def optHostGcc : List Text :=
  ["opt".toList, "host".toList, "usr".toList, "bin".toList, "gcc".toList]

theorem absbasedir_agrees_optHost :
    absbasedir (treeOf optHostGcc) 40 [] (pathText optHostGcc) (pathText optHostGcc) =
      absbasedir (treeOf optHostGcc) 40 [] (pathText optHostGcc) "gcc".toList :=
  (absbasedir_agrees_iff (installed_treeOf (by decide) (by decide) (by decide)) 40 []
    "gcc".toList (by decide)).mpr (by decide)

def usrBinGcc : List Text := ["usr".toList, "bin".toList, "gcc".toList]

/-- Below the root, the path of the executable is cut to `/usr`. -/
theorem absbasedir_below_root :
    Installed (treeOf usrBinGcc) usrBinGcc ∧
      absbasedir (treeOf usrBinGcc) 40 [] (pathText usrBinGcc) (pathText usrBinGcc) =
        some "/".toList ∧
      absbasedir (treeOf usrBinGcc) 40 [] (pathText usrBinGcc) "gcc".toList =
        some "/usr".toList := by
  have installed : Installed (treeOf usrBinGcc) usrBinGcc :=
    installed_treeOf (by decide) (by decide) (by decide)
  refine ⟨installed, ?_, ?_⟩
  · rw [absbasedir_path installed]
    rfl
  · rw [absbasedir_exe installed 40 [] (by decide)]
    rfl

end Buildroot4G.Toolchain
