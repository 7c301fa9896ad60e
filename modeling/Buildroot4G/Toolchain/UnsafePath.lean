/-
This file models the check of `toolchain-wrapper.c` for `-I` and `-L` paths of the host. The check
compares the beginnings of the texts, so it also stops at paths that begin like an unsafe directory
and lead elsewhere, and passes over an unsafe directory that is written with more slashes. The main
result is that the wrapper runs the compiler for the right arguments exactly when they have no such
paths, or have both kinds, or an unsafe path that begins like one.
-/

import Buildroot4G.Fold
import Buildroot4G.Shell.Path

namespace Buildroot4G.Toolchain

open Shell FileTree

/-- `unsafe_paths`. -/
def unsafePaths : List Text :=
  ["/lib".toList, "/usr/include".toList, "/usr/lib".toList, "/usr/local/include".toList,
    "/usr/local/lib".toList]

/-- What is written for an unsafe path. -/
def unsafeMessage (program path : Text) (paranoid : Bool) : Text :=
  program ++ ": ".toList ++ (if paranoid then "ERROR" else "WARNING").toList ++
    ": unsafe header/library path used in cross-compilation: '".toList ++ path ++ "'\n".toList

/-- `check_unsafe_path`: the text written on the way, or the exit status and the text. -/
def checkUnsafePath (program path : Text) (paranoid : Bool) (stderr : Text) :
    Except (ℕ × Text) Text :=
  unsafePaths.foldlM
    (fun stderr c =>
      if c.isPrefixOf path then
        let stderr := stderr ++ unsafeMessage program path paranoid
        if paranoid then .error (1, stderr) else .ok stderr
      else .ok stderr)
    stderr

/-- The loop over the arguments behind `argv[0]`. -/
def checkArgs (program : Text) (paranoid : Bool) : List Text → Text → Except (ℕ × Text) Text
  | [], stderr => .ok stderr
  | arg :: rest, stderr =>
    if !"-I".toList.isPrefixOf arg && !"-L".toList.isPrefixOf arg then
      checkArgs program paranoid rest stderr
    else if arg[2]? = none then
      match rest with
      | [] => .ok stderr
      | path :: rest => do
        let stderr ← checkUnsafePath program path paranoid stderr
        checkArgs program paranoid rest stderr
    else do
      let stderr ← checkUnsafePath program (arg.drop 2) paranoid stderr
      checkArgs program paranoid rest stderr

/-- Whether the value of `BR_COMPILER_PARANOID_UNSAFE_PATH` makes unsafe paths errors. -/
def isParanoid : Option Text → Bool
  | some value => decide (0 < value.length)
  | none => false

/-- `main` comes to the `exec` of the compiler. -/
def Executes (program : Text) (paranoidWrapper : Option Text) (args : List Text) : Prop :=
  ∃ stderr, checkArgs program (isParanoid paranoidWrapper) args [] = .ok stderr

/-! ### Paths and directories -/

/-- The paths that arguments give with `-I` and `-L`, attached or as the next argument. -/
def searchPaths : List Text → List Text
  | [] => []
  | arg :: rest =>
    if arg ∈ ["-I".toList, "-L".toList] then
      match rest with
      | [] => []
      | path :: rest => path :: searchPaths rest
    else if "-I".toList <+: arg ∨ "-L".toList <+: arg then arg.drop 2 :: searchPaths rest
    else searchPaths rest

/-- The place that a step leads to. -/
def enter (place : List Text) : Step Text → List Text
  | .stay => place
  | .up => place.dropLast
  | .down name => place ++ [name]

/-- The components of a path, without `.` and the empty ones between slashes, and where `..` takes
the one before it back. -/
def components (path : Text) : List Text := (steps path).foldl enter []

/-- An absolute path is a directory or lies below it, in whole components. -/
def Below (dir path : Text) : Prop :=
  path.head? = some '/' ∧ components dir <+: components path

instance (dir path : Text) : Decidable (Below dir path) := inferInstanceAs (Decidable (_ ∧ _))

/-- The path is an unsafe directory or lies below one. -/
def IsUnsafe (path : Text) : Prop := ∃ dir ∈ unsafePaths, Below dir path

instance (path : Text) : Decidable (IsUnsafe path) := inferInstanceAs (Decidable (∃ _ ∈ _, _))

/-- The path begins with the text of an unsafe directory. -/
def Begins (path : Text) : Prop := ∃ dir ∈ unsafePaths, dir <+: path

instance (path : Text) : Decidable (Begins path) := inferInstanceAs (Decidable (∃ _ ∈ _, _))

/-- The path begins with the text of an unsafe directory and leads somewhere else: the name goes
on, or `..` leads out again. -/
def Astray (path : Text) : Prop := Begins path ∧ ¬IsUnsafe path

/-- The path is unsafe, but does not begin with the text of an unsafe directory. -/
def Disguised (path : Text) : Prop := IsUnsafe path ∧ ¬Begins path

/-- The path begins with the text of an unsafe directory, as a whole component. -/
def Spelled (path : Text) : Prop :=
  ∃ dir ∈ unsafePaths, path = dir ∨ ∃ rest, path = dir ++ '/' :: rest

/-- The path begins with a name that is longer than that of an unsafe directory. -/
def Longer (path : Text) : Prop :=
  ∃ dir ∈ unsafePaths, ∃ c rest, c ≠ '/' ∧ path = dir ++ c :: rest

/-! ### The check of the arguments -/

/-- With errors, the check passes when no unsafe directory is a beginning of the path. -/
theorem checkUnsafePath_eq_ok_iff {program path stderr after : Text} :
    checkUnsafePath program path true stderr = .ok after ↔
      stderr = after ∧ ∀ dir ∈ unsafePaths, ¬dir <+: path := by
  rw [checkUnsafePath]
  generalize unsafePaths = dirs
  induction dirs generalizing stderr with
  | nil => simp [pure, Except.pure]
  | cons dir rest inductionHypothesis =>
    rw [Fold.foldlM_cons_eq_ok, List.forall_mem_cons]
    by_cases begins : dir <+: path
    · rw [if_pos (List.isPrefixOf_iff_prefix.mpr begins)]
      simp [begins]
    · rw [if_neg fun isPrefix => begins (List.isPrefixOf_iff_prefix.mp isPrefix)]
      constructor
      · rintro ⟨next, same, done⟩
        cases same
        obtain ⟨same, free⟩ := inductionHypothesis.mp done
        exact ⟨same, begins, free⟩
      · rintro ⟨same, _, free⟩
        exact ⟨stderr, rfl, inductionHypothesis.mpr ⟨same, free⟩⟩

/-- An argument that is a flag and nothing else. -/
theorem mem_flags_iff {arg : Text} (isFlag : "-I".toList <+: arg ∨ "-L".toList <+: arg) :
    arg ∈ ["-I".toList, "-L".toList] ↔ arg[2]? = none := by
  rcases isFlag with ⟨path, rfl⟩ | ⟨path, rfl⟩ <;> cases path <;> simp

/-- A path that is checked before the other arguments. -/
theorem bind_checkArgs_eq_ok_iff {program path stderr after : Text} {rest : List Text}
    (later : ∀ {stderr}, checkArgs program true rest stderr = .ok after ↔
      stderr = after ∧ ∀ path ∈ searchPaths rest, ∀ dir ∈ unsafePaths, ¬dir <+: path) :
    (checkUnsafePath program path true stderr >>= checkArgs program true rest) = .ok after ↔
      stderr = after ∧
        ∀ other ∈ path :: searchPaths rest, ∀ dir ∈ unsafePaths, ¬dir <+: other := by
  rw [Fold.bind_eq_ok, List.forall_mem_cons]
  constructor
  · rintro ⟨next, checked, done⟩
    obtain ⟨rfl, free⟩ := checkUnsafePath_eq_ok_iff.mp checked
    obtain ⟨same, frees⟩ := later.mp done
    exact ⟨same, free, frees⟩
  · rintro ⟨same, free, frees⟩
    exact ⟨stderr, checkUnsafePath_eq_ok_iff.mpr ⟨rfl, free⟩, later.mpr ⟨same, frees⟩⟩

/-- With errors, the arguments pass when no path begins with the text of an unsafe directory. -/
theorem checkArgs_eq_ok_iff {program stderr after : Text} {args : List Text} :
    checkArgs program true args stderr = .ok after ↔
      stderr = after ∧ ∀ path ∈ searchPaths args, ∀ dir ∈ unsafePaths, ¬dir <+: path := by
  have isSearch : ∀ arg : Text,
      (!"-I".toList.isPrefixOf arg && !"-L".toList.isPrefixOf arg) = true ↔
        ¬("-I".toList <+: arg ∨ "-L".toList <+: arg) := by
    intro arg
    rw [← List.isPrefixOf_iff_prefix, ← List.isPrefixOf_iff_prefix, Bool.and_eq_true, not_or,
      Bool.not_eq_true', Bool.not_eq_true', Bool.not_eq_true, Bool.not_eq_true]
  have begins_of_flag : ∀ arg : Text, arg ∈ ["-I".toList, "-L".toList] →
      "-I".toList <+: arg ∨ "-L".toList <+: arg := by
    intro arg flag
    rcases List.mem_cons.mp flag with rfl | flag
    · exact Or.inl (List.prefix_refl _)
    · exact Or.inr (List.mem_singleton.mp flag ▸ List.prefix_refl _)
  fun_induction searchPaths args generalizing stderr with
  | case1 => simp [checkArgs]
  | case2 arg flag =>
    have begins := begins_of_flag arg flag
    rw [checkArgs, if_neg fun not => (isSearch arg).mp not begins,
      if_pos ((mem_flags_iff begins).mp flag)]
    simp
  | case3 arg flag path rest inductionHypothesis =>
    have begins := begins_of_flag arg flag
    rw [checkArgs, if_neg fun not => (isSearch arg).mp not begins,
      if_pos ((mem_flags_iff begins).mp flag)]
    exact bind_checkArgs_eq_ok_iff inductionHypothesis
  | case4 arg rest noFlag begins inductionHypothesis =>
    rw [checkArgs.eq_def]
    simp only
    rw [if_neg fun not => (isSearch arg).mp not begins,
      if_neg fun flag => noFlag ((mem_flags_iff begins).mpr flag)]
    exact bind_checkArgs_eq_ok_iff inductionHypothesis
  | case5 arg rest noFlag other inductionHypothesis =>
    rw [checkArgs.eq_def]
    simp only
    rw [if_pos ((isSearch arg).mpr other)]
    exact inductionHypothesis

theorem executes_iff {program value : Text} (errors : value ≠ []) {args : List Text} :
    Executes program (some value) args ↔ ∀ path ∈ searchPaths args, ¬Begins path := by
  have paranoid : isParanoid (some value) = true :=
    decide_eq_true (List.length_pos_of_ne_nil errors)
  rw [Executes, paranoid]
  simp only [checkArgs_eq_ok_iff, exists_eq_left', Begins, not_exists, not_and]

/-- With errors, the compiler is run exactly for arguments without unsafe paths if and only if one
of the paths is unsafe and begins like that, or there are a path that leads astray and a disguised
one, or neither. -/
theorem executes_exactly_iff (program value : Text) (errors : value ≠ []) (args : List Text) :
    (Executes program (some value) args ↔ ∀ path ∈ searchPaths args, ¬IsUnsafe path) ↔
      (∃ path ∈ searchPaths args, Begins path ∧ IsUnsafe path) ∨
        ((∃ path ∈ searchPaths args, Astray path) ↔ ∃ path ∈ searchPaths args, Disguised path) := by
  have split : ∀ {P Q : Text → Prop}, (¬∀ path ∈ searchPaths args, ¬P path) ↔
      (∃ path ∈ searchPaths args, P path ∧ Q path) ∨
        ∃ path ∈ searchPaths args, P path ∧ ¬Q path := by
    intro P Q
    rw [← exists_or]
    simp only [not_forall, not_not, exists_prop, ← and_or_left, em, and_true]
  have refused : ¬Executes program (some value) args ↔
      (∃ path ∈ searchPaths args, Begins path ∧ IsUnsafe path) ∨
        ∃ path ∈ searchPaths args, Astray path := by
    rw [executes_iff errors]
    exact split
  have hasUnsafe : (¬∀ path ∈ searchPaths args, ¬IsUnsafe path) ↔
      (∃ path ∈ searchPaths args, Begins path ∧ IsUnsafe path) ∨
        ∃ path ∈ searchPaths args, Disguised path := by
    simp only [and_comm (a := Begins _)]
    exact split
  have negated : (Executes program (some value) args ↔ ∀ path ∈ searchPaths args, ¬IsUnsafe path) ↔
      (¬Executes program (some value) args ↔ ¬∀ path ∈ searchPaths args, ¬IsUnsafe path) :=
    not_iff_not.symm
  rw [negated, refused, hasUnsafe]
  by_cases plain : ∃ path ∈ searchPaths args, Begins path ∧ IsUnsafe path
  · exact iff_of_true (iff_of_true (Or.inl plain) (Or.inl plain)) (Or.inl plain)
  · rw [or_iff_right plain, or_iff_right plain, or_iff_right plain]

/-- Arguments with a path that is not one of the host. -/
theorem executes_exactly_optInclude :
    Executes "gcc".toList (some "y".toList) ["-I".toList, "/opt/include".toList] ↔
      ∀ path ∈ searchPaths ["-I".toList, "/opt/include".toList], ¬IsUnsafe path := by
  refine (executes_exactly_iff "gcc".toList "y".toList (by decide)
    ["-I".toList, "/opt/include".toList]).mpr (Or.inr (iff_of_false ?_ ?_))
  · rintro ⟨path, member, astray⟩
    cases List.mem_singleton.mp member
    exact absurd astray.1 (by decide)
  · rintro ⟨path, member, disguised⟩
    cases List.mem_singleton.mp member
    exact absurd disguised.1 (by decide)

/-- A second slash hides the directory of the host, and a longer name is taken for one. -/
theorem executes_unsafe :
    (Executes "gcc".toList (some "y".toList) ["-I//usr/include".toList] ∧
      ∃ path ∈ searchPaths ["-I//usr/include".toList], IsUnsafe path) ∧
    ¬Executes "gcc".toList (some "y".toList) ["-L/library".toList] ∧
      ∀ path ∈ searchPaths ["-L/library".toList], ¬IsUnsafe path := by
  refine ⟨⟨(executes_iff (by decide)).mpr (by decide), by decide⟩, ?_, by decide⟩
  exact fun executes => absurd ((executes_iff (by decide)).mp executes) (by decide)

/-! ### Paths without `..` -/

theorem components_append (before after : Text) :
    components (before ++ '/' :: after) = (steps after).foldl enter (components before) := by
  rw [components, steps_append, List.foldl_append]
  rfl

/-- Without `..` the components stay. -/
theorem prefix_foldl_enter {steps : List (Step Text)} (noUp : .up ∉ steps) (place : List Text) :
    place <+: steps.foldl enter place := by
  induction steps generalizing place with
  | nil => exact List.prefix_refl place
  | cons step rest inductionHypothesis =>
    obtain ⟨notUp, noUp⟩ := not_or.mp (List.mem_cons.not.mp noUp)
    refine List.IsPrefix.trans ?_ (inductionHypothesis noUp (enter place step))
    cases step with
    | stay => exact List.prefix_refl place
    | up => exact absurd rfl notUp
    | down name => exact List.prefix_append place [name]

/-- A component that is longer than a name. -/
theorem components_longer {name : Text} (long : 2 ≤ name.length) (noSlash : '/' ∉ name) {c : Char}
    (noSlash' : c ≠ '/') {parent rest : Text}
    (noUp : .up ∉ steps (parent ++ '/' :: (name ++ c :: rest))) :
    ∃ more, components parent ++ [name ++ c :: more] <+:
      components (parent ++ '/' :: (name ++ c :: rest)) := by
  have single : ∀ more, '/' ∉ more → steps (name ++ c :: more) = [.down (name ++ c :: more)] := by
    intro more free
    have whole : '/' ∉ name ++ c :: more := by
      simp [noSlash, Ne.symm noSlash', free]
    have length : 3 ≤ (name ++ c :: more).length := by
      rw [List.length_append, List.length_cons]
      omega
    rw [steps_of_not_mem whole, step, if_neg, if_neg]
    · intro same
      rw [same] at length
      exact absurd length (by decide)
    · rintro (same | same) <;> rw [same] at length <;> exact absurd length (by decide)
  by_cases slash : '/' ∈ rest
  · obtain ⟨more, after, rfl, free⟩ := List.eq_append_cons_of_mem slash
    have cut : name ++ c :: (more ++ '/' :: after) = (name ++ c :: more) ++ '/' :: after := by simp
    rw [cut, steps_append, steps_append] at noUp
    have after_noUp : .up ∉ steps after := fun member =>
      noUp (List.mem_append_right _ (List.mem_append_right _ member))
    refine ⟨more, ?_⟩
    rw [components_append, cut, steps_append, single more free, List.foldl_append]
    exact prefix_foldl_enter after_noUp _
  · refine ⟨rest, ?_⟩
    rw [components_append, single rest slash]
    exact List.prefix_refl _

/-- A path without `..` that begins with a longer name is not unsafe. -/
theorem not_isUnsafe_of_longer {path : Text} (noUp : .up ∉ steps path) (longer : Longer path) :
    ¬IsUnsafe path := by
  obtain ⟨dir, isDir, c, rest, noSlash, rfl⟩ := longer
  let parts : List (Text × Text) := [([], "lib".toList), ("/usr".toList, "include".toList),
    ("/usr".toList, "lib".toList), ("/usr/local".toList, "include".toList),
    ("/usr/local".toList, "lib".toList)]
  have isDir : dir ∈ parts.map fun part => part.1 ++ '/' :: part.2 := isDir
  obtain ⟨⟨parent, last⟩, isPart, rfl⟩ := List.mem_map.mp isDir
  have areNames : ∀ part ∈ parts, 2 ≤ part.2.length ∧ '/' ∉ part.2 := by decide
  obtain ⟨long, free⟩ := areNames _ isPart
  rw [List.append_assoc, List.cons_append] at noUp
  obtain ⟨more, begins⟩ := components_longer long free noSlash noUp
  rintro ⟨other, isOther, -, below⟩
  rw [List.append_assoc, List.cons_append] at below
  have table : unsafePaths.map components =
      [["lib".toList], ["usr".toList, "include".toList], ["usr".toList, "lib".toList],
        ["usr".toList, "local".toList, "include".toList],
        ["usr".toList, "local".toList, "lib".toList]] := by
    decide
  have parents : parts.map (fun part => (components part.1, part.2)) =
      [([], "lib".toList), (["usr".toList], "include".toList), (["usr".toList], "lib".toList),
        (["usr".toList, "local".toList], "include".toList),
        (["usr".toList, "local".toList], "lib".toList)] := by
    decide
  have isOther := table ▸ List.mem_map_of_mem (f := components) isOther
  have isPart := parents ▸
    List.mem_map_of_mem (f := fun part : Text × Text => (components part.1, part.2)) isPart
  -- both are beginnings of the components of the path, and they differ in the longer name
  have comparable := List.prefix_or_prefix_of_prefix below begins
  generalize components other = place at comparable isOther
  generalize components parent = above at comparable isPart
  simp only [List.mem_cons, List.not_mem_nil, or_false, Prod.mk.injEq] at isOther isPart
  rcases isOther with rfl | rfl | rfl | rfl | rfl <;>
    rcases isPart with ⟨rfl, rfl⟩ | ⟨rfl, rfl⟩ | ⟨rfl, rfl⟩ | ⟨rfl, rfl⟩ | ⟨rfl, rfl⟩ <;>
    simp [List.cons_prefix_cons] at comparable

theorem isUnsafe_of_spelled {path : Text} (noUp : .up ∉ steps path) (spelled : Spelled path) :
    IsUnsafe path := by
  obtain ⟨dir, isDir, plain⟩ := spelled
  have absolute : dir.head? = some '/' := by
    have all : ∀ dir ∈ unsafePaths, dir.head? = some '/' := by decide
    exact all dir isDir
  rcases plain with rfl | ⟨rest, rfl⟩
  · exact ⟨_, isDir, absolute, List.prefix_refl _⟩
  · refine ⟨dir, isDir, ?_, ?_⟩
    · rw [List.head?_append, absolute]
      rfl
    · rw [steps_append] at noUp
      rw [components_append]
      exact prefix_foldl_enter (fun member => noUp (List.mem_append_right _ member)) _

/-- How a path begins with the text of an unsafe directory. -/
theorem begins_iff {path : Text} : Begins path ↔ Spelled path ∨ Longer path := by
  constructor
  · rintro ⟨dir, isDir, rest, rfl⟩
    cases rest with
    | nil => exact Or.inl ⟨dir, isDir, Or.inl (List.append_nil dir)⟩
    | cons c rest =>
      by_cases slash : c = '/'
      · exact Or.inl ⟨dir, isDir, Or.inr ⟨rest, by rw [slash]⟩⟩
      · exact Or.inr ⟨dir, isDir, c, rest, slash, rfl⟩
  · rintro (⟨dir, isDir, rfl | ⟨rest, rfl⟩⟩ | ⟨dir, isDir, c, rest, _, rfl⟩)
    · exact ⟨_, isDir, List.prefix_refl _⟩
    · exact ⟨dir, isDir, List.prefix_append _ _⟩
    · exact ⟨dir, isDir, List.prefix_append _ _⟩

/-- Without `..` a path that begins with the text of an unsafe directory is unsafe when the text is
a whole component, and leads astray when the name goes on. -/
theorem begins_unsafe_iff {path : Text} (noUp : .up ∉ steps path) :
    (Begins path ∧ IsUnsafe path ↔ Spelled path) ∧ (Astray path ↔ Longer path) := by
  refine ⟨⟨?_, ?_⟩, ?_, ?_⟩
  · rintro ⟨begins, isUnsafe⟩
    exact (begins_iff.mp begins).resolve_right fun longer =>
      not_isUnsafe_of_longer noUp longer isUnsafe
  · exact fun spelled => ⟨begins_iff.mpr (Or.inl spelled), isUnsafe_of_spelled noUp spelled⟩
  · rintro ⟨begins, safe⟩
    exact (begins_iff.mp begins).resolve_left fun spelled => safe (isUnsafe_of_spelled noUp spelled)
  · exact fun longer => ⟨begins_iff.mpr (Or.inr longer), not_isUnsafe_of_longer noUp longer⟩

/-- `..` leads out of the directory of the host. -/
example : Astray "/lib/../opt/include".toList ∧ Disguised "/usr/../lib".toList :=
  ⟨⟨by decide, by decide⟩, by decide, by decide⟩

end Buildroot4G.Toolchain
