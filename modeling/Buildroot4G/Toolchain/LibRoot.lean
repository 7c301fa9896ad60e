/-
This file models `copy_toolchain_lib_root`, which copies a library and the links to it from the
staging directory to the target. The main result says exactly when every link it makes leads to
what the link in the staging directory leads to: the script makes the first link of a chain and
then goes on with the file at its end, so that the links between are there only if they are found
by their own names, and in the same directory.
-/

import Buildroot4G.FileTree
import Buildroot4G.Shell.Text

namespace Buildroot4G.Toolchain.LibRoot

open Shell FileTree

variable {β : Type}

/-! ### The script -/

/-- An absolute path, from the root of the system or of the target. -/
abbrev Path := List (Step Text)

/-- `basename` of the text of a link; slashes at its end do not count. -/
def linkBasename (linkTarget : Path) : Step Text :=
  ((linkTarget.reverse.dropWhile fun step => step = .stay).head?).getD .stay

/-- The name at the end of a path; the root has none. -/
def libnameOf (path : Path) : Option Text :=
  match path.getLast? with
  | some (.down name) => some name
  | _ => none

/-- What is at a path, which may be a link. -/
def lstat (links : ℕ) (system : Tree Text β) (path : Path) : Option (Node Text β) :=
  match libnameOf path with
  | some name =>
    (walk system links [] path.dropLast).bind fun directory => system (directory ++ [name])
  | none => (walk system links [] path).bind fun place =>
    if place.isEmpty then some .dir else system place

/-- `rm -fr DESTDIR/LIBNAME`; without a name it is the directory, but never the root. -/
def rmAt (links : ℕ) (system : Tree Text β) (destdir : Path) (libname : Option Text) :
    Tree Text β :=
  match walk system links [] destdir with
  | none => system
  | some directory =>
    let place := directory ++ libname.toList
    if place.isEmpty then system else remove system place

/-- `ln` and `install` to a place where there is nothing. -/
def putAt (links : ℕ) (system : Tree Text β) (destdir : Path) (libname : Option Text)
    (node : Node Text β) : Tree Text β :=
  match walk system links [] destdir, libname with
  | some directory, some name =>
    if dirAt system directory then put system (directory ++ [name]) (some node) else system
  | _, _ => system

/-- What a round of the loop does: it breaks, it exits, or it goes on with another path. -/
inductive Round (β : Type) where
  | breaks (system : Tree Text β)
  | exits (system : Tree Text β)
  | again (libpath : Option Path) (system : Tree Text β)

/-- A round of `while true`. The path is empty when `readlink -f` has not given one: `test -h`
without an argument is true, and the link is made elsewhere. -/
def copyRound (links : ℕ) (destdir : Path) (libpath : Option Path) (system : Tree Text β) :
    Round β :=
  match libpath with
  | none => .breaks (rmAt links system destdir none)
  | some path =>
    let libname := libnameOf path
    let removed := rmAt links system destdir libname
    match lstat links removed path with
    | some (.link _ linkTarget) =>
      let made := putAt links removed destdir libname (.link false [linkBasename linkTarget])
      .again ((walk made links [] path).map stepsTo) made
    | some (.file content) => .breaks (putAt links removed destdir libname (.file content))
    | _ => .exits removed

/-- `while true`, for a number of rounds; the flag says whether the script exits. -/
def copyLoop (links : ℕ) (destdir : Path) :
    ℕ → Option Path → Tree Text β → Option (Bool × Tree Text β)
  | 0, _, _ => none
  | rounds + 1, libpath, system =>
    match copyRound links destdir libpath system with
    | .breaks system => some (false, system)
    | .exits system => some (true, system)
    | .again libpath system => copyLoop links destdir rounds libpath system

/-- A path of `LIBPATHS`: the directory below the staging directory and the name. They have no
characters that are special to the shell, to `sed` or to `xargs`. -/
structure Found where
  dir : List Text
  name : Text
  deriving DecidableEq, Repr

/-- `LIBPATH` of what is found. -/
def Found.path (stagingDir : List Text) (found : Found) : Path :=
  stepsTo (stagingDir ++ found.dir ++ [found.name])

/-- `for LIBPATH in ${LIBPATHS}`, on what `find -L` lists, in its order. -/
def copyLibRoot (links rounds : ℕ) (stagingDir targetDir : List Text) :
    List Found → Tree Text β → Option (Tree Text β)
  | [], system => some system
  | found :: rest, system =>
    let destdir := stepsTo (targetDir ++ found.dir)
    let made := mkdirs links system [] destdir
    match copyLoop links destdir rounds (some (found.path stagingDir)) made with
    | none => none
    | some (true, system) => some system
    | some (false, system) => copyLibRoot links rounds stagingDir targetDir rest system

/-! ### What is found -/

/-- What is found: a file, a link to a file, another link, or something else. -/
inductive Lib (β : Type) where
  | file (content : β)
  | link (hop : Step Text) (final : Text) (content : β)
  | broken
  | other
  deriving DecidableEq, Repr

/-- What a path is for the script. -/
def libAt (links : ℕ) (system : Tree Text β) (path : Path) : Lib β :=
  match lstat links system path with
  | some (.file content) => .file content
  | some (.link _ linkTarget) =>
    match walk system links [] path with
    | none => .broken
    | some place =>
      match place.getLast?, system place with
      | some final, some (.file content) => .link (linkBasename linkTarget) final content
      | _, _ => .broken
  | _ => .other

/-- The script exits at what is neither a file nor leads to one, but for a link that `readlink -f`
gives no path for. -/
def exitsAt (links : ℕ) (system : Tree Text β) (path : Path) : Bool :=
  match libAt links system path with
  | .file _ | .link _ _ _ => false
  | .broken => (walk system links [] path).isSome
  | .other => true

/-- What is copied until the script exits. -/
def copied (links : ℕ) (system : Tree Text β) (stagingDir : List Text) : List Found → List Found
  | [] => []
  | found :: rest =>
    found :: if exitsAt links system (found.path stagingDir) then [] else
      copied links system stagingDir rest

/-! ### The end of the loop -/

section Loop

variable {links : ℕ} {system : Tree Text β} {destdir : Path} {libpath : Option Path}

theorem copyLoop_succ {rounds : ℕ} {result : Bool × Tree Text β}
    (ends : copyLoop links destdir rounds libpath system = some result) :
    copyLoop links destdir (rounds + 1) libpath system = some result := by
  induction rounds generalizing libpath system with
  | zero => cases ends
  | succ rounds inductionHypothesis =>
    rw [copyLoop] at ends ⊢
    split at ends
    · exact ends
    · exact ends
    · exact inductionHypothesis ends

theorem copyLoop_mono {rounds more : ℕ} (least : rounds ≤ more) {result : Bool × Tree Text β}
    (ends : copyLoop links destdir rounds libpath system = some result) :
    copyLoop links destdir more libpath system = some result := by
  induction least with
  | refl => exact ends
  | step _ inductionHypothesis => exact copyLoop_succ inductionHypothesis

theorem libnameOf_stepsTo (directory : List Text) (name : Text) :
    libnameOf (stepsTo (directory ++ [name])) = some name := by
  simp [libnameOf, stepsTo]

theorem dropLast_stepsTo (directory : List Text) (name : Text) :
    (stepsTo (directory ++ [name])).dropLast = stepsTo directory := by
  rw [stepsTo, List.map_append, List.map_singleton, List.dropLast_concat]
  rfl

/-- What is at a place below directories. -/
theorem lstat_stepsTo (links : ℕ) {place : List Text} (nonempty : place ≠ [])
    (dirs : Dirs system place.dropLast) : lstat links system (stepsTo place) = system place := by
  obtain ⟨directory, name, rfl⟩ := (List.eq_nil_or_concat' place).resolve_left nonempty
  rw [List.dropLast_concat] at dirs
  rw [lstat, libnameOf_stepsTo, dropLast_stepsTo]
  dsimp only
  rw [walk_place links dirs]
  rfl

/-- A walk to a place below directories, after some things are taken away. -/
theorem walk_of_less {less : Tree Text β}
    (fewer : ∀ place, less place = system place ∨ less place = none) {start more last : List Text}
    (dirs : ∀ before, before <+: more → before ≠ [] → system (start ++ before) = some .dir)
    (ends : walk less links start (stepsTo more) = some last) : last = start ++ more := by
  induction more generalizing start with
  | nil =>
    have same : walk less links start [] = some last := ends
    rw [walk_nil] at same
    cases same
    exact (List.append_nil _).symm
  | cons name later inductionHypothesis =>
    have step : walk less links start (.down name :: stepsTo later) = some last := ends
    have wasDir := dirs [name] (List.prefix_append [name] later) (List.cons_ne_nil _ _)
    rcases fewer (start ++ [name]) with same | none
    · rw [walk_down_dir (same.trans wasDir)] at step
      rw [inductionHypothesis (fun before isPrefix nonempty => ?_) step, List.append_assoc]
      · rfl
      · rw [List.append_assoc]
        exact dirs (name :: before) ((List.prefix_cons_inj name).mpr isPrefix)
          (List.cons_ne_nil _ _)
    · rw [walk_down_other (by simp [none]) (by simp [none])] at step
      split at step
      · next isLast =>
        cases step
        have only : later = [] := by simpa [stepsTo] using isLast
        rw [only]
      · cases step

/-- The path that `readlink -f` gives is not one of a link, also after some things are taken
away. -/
theorem lstat_of_walk {less : Tree Text β}
    (fewer : ∀ place, less place = system place ∨ less place = none) {path : Path}
    {place : List Text} (ends : walk system links [] path = some place) :
    ∀ absolute linkTarget,
      lstat links less (stepsTo place) ≠ some (.link absolute linkTarget) := by
  have isEnd := walk_ends (dirs_nil system) ends
  intro absolute linkTarget isLink
  rcases List.eq_nil_or_concat' place with rfl | ⟨directory, name, rfl⟩
  · have isDir : lstat links less (stepsTo []) = some .dir := by
      rw [lstat, stepsTo, List.map_nil]
      change (walk less links [] []).bind _ = _
      rw [walk_nil]
      rfl
    rw [isDir] at isLink
    cases isLink
  · have dirs := isEnd.dirs
    rw [List.dropLast_concat] at dirs
    have fromRoot : ∀ before, before <+: directory → before ≠ [] →
      system ([] ++ before) = some .dir := dirs
    rw [lstat, libnameOf_stepsTo, dropLast_stepsTo] at isLink
    obtain ⟨last, comes, there⟩ := Option.bind_eq_some_iff.mp isLink
    obtain rfl : last = directory := walk_of_less fewer fromRoot comes
    rcases fewer (last ++ [name]) with same | none
    · exact isEnd.noLink (by simp) absolute linkTarget (same ▸ there)
    · rw [none] at there
      cases there

theorem rmAt_fewer (links : ℕ) (system : Tree Text β) (destdir : Path) (libname : Option Text)
    (place : List Text) :
    rmAt links system destdir libname place = system place ∨
      rmAt links system destdir libname place = none := by
  rw [rmAt]
  cases walk system links [] destdir with
  | none => exact Or.inl rfl
  | some directory =>
    dsimp only
    by_cases root : (directory ++ libname.toList).isEmpty = true
    · rw [if_pos root]
      exact Or.inl rfl
    · rw [if_neg root]
      by_cases below : directory ++ libname.toList <+: place
      · exact Or.inr (remove_below below)
      · exact Or.inl (remove_other below)

/-- The loop ends after two rounds at most. -/
theorem copyLoop_isSome (links : ℕ) (destdir : Path) (libpath : Option Path)
    (system : Tree Text β) : (copyLoop links destdir 2 libpath system).isSome := by
  have second : ∀ (path : Path) (made : Tree Text β),
      (copyLoop links destdir 1 ((walk made links [] path).map stepsTo) made).isSome := by
    intro path made
    cases ends : walk made links [] path with
    | none => rfl
    | some place =>
      have noLink := lstat_of_walk
        (rmAt_fewer links made destdir (libnameOf (stepsTo place))) ends
      rw [Option.map_some, copyLoop, copyRound]
      dsimp only
      cases node : lstat links (rmAt links made destdir (libnameOf (stepsTo place)))
        (stepsTo place) with
      | none => rfl
      | some node' => cases node' with
        | dir => rfl
        | file content => rfl
        | link absolute linkTarget => exact absurd node (noLink absolute linkTarget)
  cases libpath with
  | none => rfl
  | some path =>
    rw [copyLoop, copyRound]
    dsimp only
    cases node : lstat links (rmAt links system destdir (libnameOf path)) path with
    | none => rfl
    | some node' => cases node' with
      | dir => rfl
      | file content => rfl
      | link absolute linkTarget => exact second path _

theorem copyLibRoot_mono {stagingDir targetDir : List Text} {rounds more : ℕ}
    (least : rounds ≤ more) {found : List Found} {result : Tree Text β}
    (ends : copyLibRoot links rounds stagingDir targetDir found system = some result) :
    copyLibRoot links more stagingDir targetDir found system = some result := by
  induction found generalizing system with
  | nil => exact ends
  | cons lib rest inductionHypothesis =>
    rw [copyLibRoot] at ends ⊢
    split at ends
    · cases ends
    · next copies =>
      rw [copyLoop_mono least copies]
      exact ends
    · next copies =>
      rw [copyLoop_mono least copies]
      exact inductionHypothesis ends

/-- The script always comes to an end. -/
theorem copyLibRoot_isSome (stagingDir targetDir : List Text) (found : List Found)
    (system : Tree Text β) :
    (copyLibRoot links 2 stagingDir targetDir found system).isSome := by
  induction found generalizing system with
  | nil => rfl
  | cons lib rest inductionHypothesis =>
    obtain ⟨⟨exits, made⟩, copies⟩ := Option.isSome_iff_exists.mp
      (copyLoop_isSome links (stepsTo (targetDir ++ lib.dir)) (some (lib.path stagingDir))
        (mkdirs links system [] (stepsTo (targetDir ++ lib.dir))))
    rw [copyLibRoot]
    simp only [copies]
    cases exits with
    | false => exact inductionHypothesis made
    | true => rfl

end Loop

/-! ### What the libraries leave -/

/-- Puts something at a place where nothing is left. -/
def write (system : Tree Text β) (place : List Text) (node : Option (Node Text β)) :
    Tree Text β := put (remove system place) place node

/-- What a library leaves at the names in its directory. -/
def effects (name : Text) : Lib β → List (Text × Option (Node Text β))
  | .file content => [(name, some (.file content))]
  | .link hop final content => [(name, some (.link false [hop])), (final, some (.file content))]
  | .broken => []
  | .other => [(name, none)]

/-- The directory that a path below the target leads to, once it is made. -/
def realDir (links : ℕ) (system : Tree Text β) (targetDir dir : List Text) : List Text :=
  let destdir := stepsTo (targetDir ++ dir)
  (walk (mkdirs links system [] destdir) links [] destdir).getD []

/-- What a library leaves, with the places where it does. -/
def leaves (links : ℕ) (system : Tree Text β) (stagingDir : List Text) (real : List Text)
    (lib : Found) : List (List Text × Option (Node Text β)) :=
  (effects lib.name (libAt links system (lib.path stagingDir))).map fun left =>
    (real ++ [left.1], left.2)

/-- The system with directories made and things left in them: the last thing left at a place or
above it decides. -/
def placed (left : List (List Text × Option (Node Text β))) (dirs : List (List Text))
    (system : Tree Text β) : Tree Text β := fun place =>
  match left.reverse.find? fun one => decide (one.1 <+: place) with
  | some one => if one.1 = place then one.2 else none
  | none => if place ≠ [] ∧ ∃ dir ∈ dirs, place <+: dir then some .dir else system place

section Placed

variable {system : Tree Text β} {left more : List (List Text × Option (Node Text β))}
  {dirs moreDirs : List (List Text)} {place : List Text}

theorem placed_nil (system : Tree Text β) : placed [] [] system = system := by
  funext place
  simp [placed]

theorem placed_clear (clear : ∀ one ∈ left, ¬ one.1 <+: place) :
    placed left dirs system place =
      if place ≠ [] ∧ ∃ dir ∈ dirs, place <+: dir then some .dir else system place := by
  have notFound : left.reverse.find? (fun one => decide (one.1 <+: place)) = none := by
    rw [List.find?_eq_none]
    intro one member
    simpa using clear one (List.mem_reverse.mp member)
  rw [placed, notFound]

theorem placed_one (system : Tree Text β) (place : List Text) (node : Option (Node Text β)) :
    placed [(place, node)] [] system = write system place node := by
  funext other
  rw [write]
  by_cases same : other = place
  · subst same
    simp [placed, put_same]
  · rw [put_other same]
    by_cases below : place <+: other
    · rw [remove_below below]
      simp [placed, below, Ne.symm same]
    · rw [remove_other below, placed_clear (by simpa using below)]
      simp

/-- What is left later comes on top, unless it takes a directory away. -/
theorem placed_append (system : Tree Text β)
    (clear : ∀ one ∈ left, ∀ dir ∈ moreDirs, ¬ one.1 <+: dir) :
    placed (left ++ more) (dirs ++ moreDirs) system =
      placed more moreDirs (placed left dirs system) := by
  funext place
  rw [placed, List.reverse_append, List.find?_append]
  conv_rhs => rw [placed]
  cases later : more.reverse.find? fun one => decide (one.1 <+: place) with
  | some one => rfl
  | none =>
    rw [Option.none_or]
    dsimp only
    cases sooner : left.reverse.find? fun one => decide (one.1 <+: place) with
    | some one =>
      have isOne := List.mem_reverse.mp (List.mem_of_find?_eq_some sooner)
      have above : one.1 <+: place := by simpa using List.find?_some sooner
      have noDir : ¬ (place ≠ [] ∧ ∃ dir ∈ moreDirs, place <+: dir) :=
        fun ⟨_, dir, isDir, below⟩ => clear one isOne dir isDir (above.trans below)
      rw [if_neg noDir, placed, sooner]
    | none =>
      rw [placed, sooner]
      dsimp only
      by_cases root : place = []
      · simp [root]
      by_cases laterDir : ∃ dir ∈ moreDirs, place <+: dir
      · obtain ⟨dir, isDir, below⟩ := laterDir
        rw [if_pos ⟨root, dir, List.mem_append_right dirs isDir, below⟩,
          if_pos ⟨root, dir, isDir, below⟩]
      · have sameDirs : (∃ dir ∈ dirs ++ moreDirs, place <+: dir) ↔
            ∃ dir ∈ dirs, place <+: dir := by
          simp only [List.mem_append, or_and_right, exists_or]
          exact or_iff_left laterDir
        simp only [sameDirs]
        exact (if_neg fun both => laterDir both.2).symm

theorem placed_two (system : Tree Text β) (place other : List Text)
    (node later : Option (Node Text β)) :
    placed [(place, node), (other, later)] [] system =
      write (write system place node) other later := by
  have appended := @placed_append β [(place, node)] [(other, later)] [] [] system (by simp)
  rw [placed_one, placed_one] at appended
  exact appended

end Placed

/-! ### The way to a directory -/

/-- On the way to a place there are directories, or there is nothing. -/
def Free (system : Tree Text β) (place : List Text) : Prop :=
  ∀ before, before <+: place → before ≠ [] → system before = none ∨ system before = some .dir

/-- A path leads to a directory, or can be made to: its front leads to one, through links perhaps,
and the rest is free. Of some other places none is on the way. -/
structure Way (links : ℕ) (system : Tree Text β) (others : List (List Text))
    (path real front base rest : List Text) : Prop where
  isPath : path = front ++ rest
  isReal : real = base ++ rest
  leads : walk system links [] (stepsTo front) = some base
  isDir : dirAt system base = true
  free : Free system real
  clear : ∀ other ∈ others, ¬ other <+: real ∧
    ∀ visited ∈ visits system links [] (stepsTo front), ¬ other <+: visited

section Way

variable {links : ℕ} {system : Tree Text β} {others : List (List Text)}
  {path real front base rest : List Text}

theorem Way.dirs (way : Way links system others path real front base rest) : Dirs system base :=
  dirs_of_dirAt (dirs_nil system) way.leads way.isDir

/-- The path leads there, once the directories are made. -/
theorem Way.walk_eq (way : Way links system others path real front base rest)
    (made : Dirs system real) : walk system links [] (stepsTo path) = some real := by
  obtain ⟨left, -, goesOn⟩ := walk_append way.leads way.isDir
  have steps : stepsTo path = stepsTo front ++ (stepsTo rest ++ []) := by
    rw [way.isPath, List.append_nil, stepsTo, List.map_append]
    rfl
  rw [steps, goesOn, walk_append_of_dirs, walk_nil, way.isReal]
  intro before isPrefix nonempty
  rw [way.isReal] at made
  exact made _ ((List.prefix_append_right_inj base).mpr isPrefix) (by simp [nonempty])

/-- `mkdir -p` makes the directories up to the place. -/
theorem Way.mkdirs_eq (way : Way links system others path real front base rest) :
    mkdirs links system [] (stepsTo path) = placed [] [real] system := by
  have steps : stepsTo path = stepsTo front ++ stepsTo rest := by
    rw [way.isPath, stepsTo, List.map_append]
    rfl
  have restFree : ∀ before, before <+: rest → before ≠ [] →
      system (base ++ before) = none ∨ system (base ++ before) = some .dir := by
    intro before isPrefix nonempty
    refine way.free _ ?_ (by simp [nonempty])
    rw [way.isReal]
    exact (List.prefix_append_right_inj base).mpr isPrefix
  obtain ⟨made, same⟩ := mkdirs_stepsTo links system base restFree
  rw [steps, mkdirs_append links (stepsTo rest) (dirs_nil system) way.leads way.isDir]
  funext place
  rw [placed_clear fun _ member => absurd member List.not_mem_nil]
  by_cases onWay : place ≠ [] ∧ ∃ dir ∈ [real], place <+: dir
  · rw [if_pos onWay]
    obtain ⟨nonempty, dir, isReal, isPrefix⟩ := onWay
    rw [List.mem_singleton.mp isReal, way.isReal] at isPrefix
    by_cases above : place <+: base
    · rw [same place fun before _ notEmpty equal => ?_, way.dirs place above nonempty]
      have longer := (equal ▸ above).length_le
      rw [List.length_append] at longer
      exact notEmpty (List.length_eq_zero_iff.mp (by omega))
    · obtain ⟨before, rfl⟩ := (List.prefix_or_prefix_of_prefix isPrefix
        (List.prefix_append base rest)).resolve_left above
      refine made before ((List.prefix_append_right_inj base).mp isPrefix) ?_
      rintro rfl
      exact above (by simp)
  · rw [if_neg onWay]
    refine same place fun before isBefore notEmpty equal => onWay ⟨?_, real, by simp, ?_⟩
    · simp [equal, notEmpty]
    · rw [equal, way.isReal]
      exact (List.prefix_append_right_inj base).mpr isBefore

/-- The directories after `mkdir -p`. -/
theorem dirs_placed (left : List (List Text × Option (Node Text β))) {dirs : List (List Text)}
    (isDir : real ∈ dirs) (clear : ∀ one ∈ left, ¬ one.1 <+: real) :
    Dirs (placed left dirs system) real := by
  intro before isPrefix nonempty
  rw [placed_clear fun one member below => clear one member (below.trans isPrefix),
    if_pos ⟨nonempty, real, isDir, isPrefix⟩]

/-- The way stays the same when directories are made and things are left at the other places. -/
theorem Way.placed (way : Way links system others path real front base rest)
    {left : List (List Text × Option (Node Text β))} {dirs : List (List Text)}
    (isOther : ∀ one ∈ left, one.1 ∈ others) (free : ∀ dir ∈ dirs, Free system dir) :
    Way links (LibRoot.placed left dirs system) others path real front base rest := by
  have someThere : ∀ place, system place ≠ none → (∀ one ∈ left, ¬ one.1 <+: place) →
      LibRoot.placed left dirs system place = system place := by
    intro place there clear
    rw [placed_clear clear]
    split
    · next onWay =>
      obtain ⟨nonempty, dir, isDir, below⟩ := onWay
      exact ((free dir isDir place below nonempty).resolve_left there).symm
    · rfl
  have agree : ∀ visited ∈ visits system links [] (stepsTo front),
      LibRoot.placed left dirs system visited = system visited := by
    intro visited member
    exact someThere visited (visited_ne_none way.leads way.isDir visited member)
      fun one isOne => (way.clear _ (isOther one isOne)).2 visited member
  obtain ⟨sameWalk, sameVisits⟩ := walk_congr agree
  have clearReal : ∀ one ∈ left, ¬ one.1 <+: real :=
    fun one isOne => (way.clear _ (isOther one isOne)).1
  refine ⟨way.isPath, way.isReal, sameWalk.trans way.leads, ?_, ?_, ?_⟩
  · refine dirAt_of_dirs fun before isPrefix nonempty => ?_
    have isDir := way.dirs before isPrefix nonempty
    rw [someThere before (by simp [isDir]) fun one isOne below => clearReal one isOne ?_, isDir]
    rw [way.isReal]
    exact below.trans (isPrefix.trans (List.prefix_append base rest))
  · intro before isPrefix nonempty
    rw [placed_clear fun one isOne below => clearReal one isOne (below.trans isPrefix)]
    split
    · exact Or.inr rfl
    · exact way.free before isPrefix nonempty
  · rw [sameVisits]
    exact way.clear

end Way

/-! ### What is outside the target -/

/-- The places that are looked at for what a path is and what it leads to. -/
def lookedAt (links : ℕ) (system : Tree Text β) (path : Path) : List (List Text) :=
  visits system links [] path.dropLast ++
    ((walk system links [] path.dropLast).map fun directory =>
      directory ++ (libnameOf path).toList).toList ++
    visits system links [] path ++ (walk system links [] path).toList

/-- Outside the target nothing is different. -/
def Framed (system : Tree Text β) (targetDir : List Text) (other : Tree Text β) : Prop :=
  ∀ place, ¬ targetDir <+: place → other place = system place

section Frame

variable {links : ℕ} {system other : Tree Text β} {stagingDir targetDir : List Text}

theorem lstat_congr {directory : List Text} {name : Text}
    (agree : ∀ place ∈ lookedAt links system (stepsTo (directory ++ [name])),
      other place = system place) :
    lstat links other (stepsTo (directory ++ [name])) =
        lstat links system (stepsTo (directory ++ [name])) ∧
      walk other links [] (stepsTo (directory ++ [name])) =
        walk system links [] (stepsTo (directory ++ [name])) := by
  simp only [lookedAt, List.mem_append, or_imp, forall_and, dropLast_stepsTo, libnameOf_stepsTo,
    Option.toList_some, Option.mem_toList, Option.map_eq_some_iff, forall_exists_index, and_imp,
    forall_apply_eq_imp_iff₂] at agree
  obtain ⟨⟨⟨way, there⟩, whole⟩, -⟩ := agree
  refine ⟨?_, (walk_congr whole).1⟩
  rw [lstat, lstat, libnameOf_stepsTo, dropLast_stepsTo]
  dsimp only
  rw [(walk_congr way).1]
  cases ends : walk system links [] (stepsTo directory) with
  | none => rfl
  | some last => exact there last ends

theorem framed_refl (system : Tree Text β) (targetDir : List Text) :
    Framed system targetDir system := fun _ _ => rfl

theorem framed_placed (framed : Framed system targetDir other)
    {left : List (List Text × Option (Node Text β))} {dirs : List (List Text)}
    (leftInside : ∀ one ∈ left, targetDir <+: one.1) (dirsInside : ∀ dir ∈ dirs, targetDir <+: dir)
    (isTarget : Dirs other targetDir) : Framed system targetDir (placed left dirs other) := by
  intro place outside
  rw [placed_clear fun one isOne below => outside ((leftInside one isOne).trans below),
    ← framed place outside]
  split
  · next onWay =>
    obtain ⟨nonempty, dir, isDir, below⟩ := onWay
    have above := (List.prefix_or_prefix_of_prefix below (dirsInside dir isDir)).resolve_right
      outside
    exact (isTarget place above nonempty).symm
  · rfl

end Frame

/-! ### What a path is -/

section LibAt

variable {links : ℕ} {system : Tree Text β} {path : Path}

theorem lstat_of_file {content : β} (isLib : libAt links system path = .file content) :
    lstat links system path = some (.file content) := by
  rw [libAt] at isLib
  split at isLib
  · next there =>
    cases isLib
    exact there
  · split at isLib
    · cases isLib
    · split at isLib <;> cases isLib
  · cases isLib

theorem lstat_of_other (isLib : libAt links system path = .other) :
    lstat links system path = none ∨ lstat links system path = some .dir := by
  rw [libAt] at isLib
  split at isLib
  · cases isLib
  · split at isLib
    · cases isLib
    · split at isLib <;> cases isLib
  · next notFile notLink =>
    cases there : lstat links system path with
    | none => exact Or.inl rfl
    | some node =>
      cases node with
      | dir => exact Or.inr rfl
      | file content => exact absurd there (notFile content)
      | link absolute linkTarget => exact absurd there (notLink absolute linkTarget)

/-- A link to a file, with the place of the file. -/
theorem link_of_libAt {hop : Step Text} {final : Text} {content : β}
    (isLib : libAt links system path = .link hop final content) :
    ∃ absolute linkTarget, lstat links system path = some (.link absolute linkTarget) ∧
      linkBasename linkTarget = hop ∧ ∃ before,
        walk system links [] path = some (before ++ [final]) ∧
        system (before ++ [final]) = some (.file content) := by
  rw [libAt] at isLib
  split at isLib
  · cases isLib
  · next absolute linkTarget there =>
    split at isLib
    · cases isLib
    · next place ends =>
      split at isLib
      · next final' content' last isFile =>
        cases isLib
        obtain ⟨before, rfl⟩ := List.getLast?_eq_some_iff.mp last
        exact ⟨absolute, linkTarget, there, rfl, before, ends, isFile⟩
      · cases isLib
  · cases isLib

end LibAt

/-! ### The copying of a library -/

section Copy

variable {links : ℕ} {first system : Tree Text β} {stagingDir targetDir real front base rest :
  List Text} {others : List (List Text)} {path : List Text}

theorem write_apart {place other : List Text} (apart : ¬ place <+: other)
    (node : Option (Node Text β)) : write system place node other = system other := by
  have different : other ≠ place := fun same => apart (same ▸ List.prefix_refl _)
  rw [write, put_other different, remove_other apart]

theorem write_none (system : Tree Text β) (place : List Text) :
    write system place none = remove system place := by
  funext other
  by_cases same : other = place
  · subst same
    rw [write, put_same, remove_below (List.prefix_refl _)]
  · rw [write, put_other same]

theorem not_below_directory (directory : List Text) (name : Text) {before : List Text}
    (isPrefix : before <+: directory) : ¬ directory ++ [name] <+: before := by
  intro below
  have length := (below.trans isPrefix).length_le
  rw [List.length_append, List.length_singleton] at length
  omega

/-- The target in the middle of the copying of a library: the path leads to its directory, and
outside the target nothing has changed. -/
structure Copying (links : ℕ) (first : Tree Text β) (targetDir : List Text)
    (others : List (List Text)) (path real front base rest : List Text) (system : Tree Text β) :
    Prop where
  way : Way links system others path real front base rest
  dirs : Dirs system real
  framed : Framed first targetDir system

theorem Copying.write (copying : Copying links first targetDir others path real front base rest
      system) (inside : targetDir <+: real) {name : Text} (isOther : real ++ [name] ∈ others)
    (node : Option (Node Text β)) :
    Copying links first targetDir others path real front base rest
      (LibRoot.write system (real ++ [name]) node) := by
  refine ⟨?_, ?_, ?_⟩
  · rw [← placed_one]
    exact copying.way.placed (by simpa using isOther) (by simp)
  · intro before isPrefix nonempty
    rw [write_apart (not_below_directory real name isPrefix)]
    exact copying.dirs before isPrefix nonempty
  · intro place outside
    rw [write_apart fun below => outside (inside.trans ((List.prefix_append real _).trans below))]
    exact copying.framed place outside

theorem Copying.rmAt_eq (copying : Copying links first targetDir others path real front base rest
    system) (name : Text) :
    rmAt links system (stepsTo path) (some name) =
      LibRoot.write system (real ++ [name]) none := by
  rw [rmAt, copying.way.walk_eq copying.dirs, write_none]
  simp

theorem Copying.putAt_eq (copying : Copying links first targetDir others path real front base rest
      system) (inside : targetDir <+: real) {name : Text} (isOther : real ++ [name] ∈ others)
    (node : Node Text β) :
    putAt links (LibRoot.write system (real ++ [name]) none) (stepsTo path) (some name) node =
      LibRoot.write system (real ++ [name]) (some node) := by
  have removed := copying.write inside isOther none
  simp only [putAt, removed.way.walk_eq removed.dirs, dirAt_of_dirs removed.dirs, if_true]
  rw [write_none]
  rfl

/-- A library that does not lead astray leaves something at its own name. -/
theorem own_mem_leaves {lib : Found}
    (notBroken : libAt links first (lib.path stagingDir) ≠ .broken) :
    ∃ node, (real ++ [lib.name], node) ∈ leaves links first stagingDir real lib := by
  rw [leaves]
  cases isLib : libAt links first (lib.path stagingDir) with
  | file content => exact ⟨_, List.mem_cons_self⟩
  | link hop final content => exact ⟨_, List.mem_cons_self⟩
  | broken => exact absurd isLib notBroken
  | other => exact ⟨_, List.mem_cons_self⟩

/-- What the loop leaves of a library that does not lead astray. -/
theorem copyLoop_eq (copying : Copying links first targetDir others path real front base rest
      system) (inside : targetDir <+: real) {lib : Found}
    (isOther : ∀ one ∈ leaves links first stagingDir real lib, one.1 ∈ others)
    (outside : ∀ place ∈ lookedAt links first (lib.path stagingDir), ¬ targetDir <+: place)
    (notBroken : libAt links first (lib.path stagingDir) ≠ .broken) :
    copyLoop links (stepsTo path) 2 (some (lib.path stagingDir)) system =
      some (exitsAt links first (lib.path stagingDir),
        placed (leaves links first stagingDir real lib) [] system) := by
  have isName : libnameOf (lib.path stagingDir) = some lib.name := libnameOf_stepsTo _ _
  have sees : ∀ {now}, Framed first targetDir now →
      lstat links now (lib.path stagingDir) = lstat links first (lib.path stagingDir) ∧
        walk now links [] (lib.path stagingDir) = walk first links [] (lib.path stagingDir) :=
    fun framed => lstat_congr fun place member => framed place (outside place member)
  have nameOther : real ++ [lib.name] ∈ others := by
    obtain ⟨_, own⟩ := own_mem_leaves notBroken
    exact isOther _ own
  have seen := (sees (copying.write inside nameOther none).framed).1
  rw [copyLoop, copyRound]
  simp only [isName, copying.rmAt_eq, seen, copying.putAt_eq inside nameOther]
  cases isLib : libAt links first (lib.path stagingDir) with
  | broken => exact absurd isLib notBroken
  | other =>
    have exits : exitsAt links first (lib.path stagingDir) = true := by rw [exitsAt, isLib]
    have left : leaves links first stagingDir real lib = [(real ++ [lib.name], none)] := by
      rw [leaves, isLib]
      rfl
    rw [exits, left, placed_one]
    rcases lstat_of_other isLib with there | there <;> rw [there]
  | file content =>
    have exits : exitsAt links first (lib.path stagingDir) = false := by rw [exitsAt, isLib]
    have left : leaves links first stagingDir real lib =
        [(real ++ [lib.name], some (.file content))] := by
      rw [leaves, isLib]
      rfl
    rw [exits, left, placed_one, lstat_of_file isLib]
  | link hop final content =>
    have exits : exitsAt links first (lib.path stagingDir) = false := by rw [exitsAt, isLib]
    have left : leaves links first stagingDir real lib =
        [(real ++ [lib.name], some (.link false [hop])),
          (real ++ [final], some (.file content))] := by
      rw [leaves, isLib]
      rfl
    obtain ⟨absolute, linkTarget, isLink, rfl, before, ends, isFile⟩ := link_of_libAt isLib
    -- the second round copies the file
    have once := copying.write inside nameOther (some (.link false [linkBasename linkTarget]))
    have finalOther : real ++ [final] ∈ others :=
      isOther (real ++ [final], some (.file content)) (by simp [left])
    have again := once.write inside finalOther none
    have isEnd := walk_ends (dirs_nil first) ends
    have away : ∀ place, place <+: before ++ [final] → ¬ targetDir <+: place := by
      intro place isPrefix below
      refine outside (before ++ [final]) ?_ (below.trans isPrefix)
      simp [lookedAt, ends]
    have finalNode : lstat links
        (LibRoot.write (LibRoot.write system (real ++ [lib.name])
          (some (.link false [linkBasename linkTarget]))) (real ++ [final]) none)
        (stepsTo (before ++ [final])) = some (.file content) := by
      rw [lstat_stepsTo links (by simp), again.framed _ (away _ (List.prefix_refl _)), isFile]
      intro place isPrefix nonempty
      rw [again.framed _ (away place (isPrefix.trans (List.dropLast_prefix _)))]
      exact isEnd.dirs place isPrefix nonempty
    rw [exits, left, placed_two]
    simp only [isLink, (sees once.framed).2, ends, Option.map_some, copyLoop, copyRound,
      libnameOf_stepsTo, once.rmAt_eq, finalNode, once.putAt_eq inside finalOther]

end Copy

/-! ### A run -/

/-- What all libraries leave, in their order. -/
def leftBy (links : ℕ) (system : Tree Text β) (stagingDir : List Text)
    (real : List Text → List Text) (found : List Found) :
    List (List Text × Option (Node Text β)) :=
  found.flatMap fun lib => leaves links system stagingDir (real lib.dir) lib

/-- A system that is in order for the libraries: for each of them there is a directory in the
target or one can be made, to which no other library is in the way, and what a library is does not
depend on the target. -/
structure InOrder (links : ℕ) (first : Tree Text β) (stagingDir targetDir : List Text)
    (real : List Text → List Text) (others : List (List Text)) (all : List Found)
    (system : Tree Text β) : Prop where
  isTarget : Dirs system targetDir
  ways : ∀ lib ∈ all, targetDir <+: real lib.dir ∧
    ∃ front base rest, Way links system others (targetDir ++ lib.dir) (real lib.dir) front base rest
  outside : ∀ lib ∈ all, ∀ place ∈ lookedAt links first (lib.path stagingDir),
    ¬ targetDir <+: place
  framed : Framed first targetDir system

section Run

variable {links : ℕ} {first system : Tree Text β} {stagingDir targetDir : List Text}
  {real : List Text → List Text} {others : List (List Text)} {all : List Found}

theorem inside_of_leaves {directory : List Text} (inside : targetDir <+: directory) (lib : Found) :
    ∀ one ∈ leaves links first stagingDir directory lib, targetDir <+: one.1 := by
  intro one member
  obtain ⟨left, _, rfl⟩ := List.mem_map.mp member
  exact inside.trans (List.prefix_append directory [left.1])

/-- The copying of a library. -/
theorem copyLib (inOrder : InOrder links first stagingDir targetDir real others all system)
    {lib : Found} (member : lib ∈ all)
    (isOther : ∀ one ∈ leaves links first stagingDir (real lib.dir) lib, one.1 ∈ others)
    (notBroken : libAt links first (lib.path stagingDir) ≠ .broken) :
    copyLoop links (stepsTo (targetDir ++ lib.dir)) 2 (some (lib.path stagingDir))
        (mkdirs links system [] (stepsTo (targetDir ++ lib.dir))) =
      some (exitsAt links first (lib.path stagingDir),
        placed (leaves links first stagingDir (real lib.dir) lib) [real lib.dir] system) ∧
    InOrder links first stagingDir targetDir real others all
      (placed (leaves links first stagingDir (real lib.dir) lib) [real lib.dir] system) := by
  obtain ⟨inside, front, base, rest, way⟩ := inOrder.ways lib member
  have free : ∀ dir ∈ [real lib.dir], Free system dir := by
    intro dir isDir
    rw [List.mem_singleton.mp isDir]
    exact way.free
  have insideDirs : ∀ dir ∈ [real lib.dir], targetDir <+: dir := by
    intro dir isDir
    rw [List.mem_singleton.mp isDir]
    exact inside
  have made : Copying links first targetDir others (targetDir ++ lib.dir) (real lib.dir) front
      base rest (placed [] [real lib.dir] system) :=
    ⟨way.placed (by simp) free, dirs_placed [] List.mem_cons_self (by simp),
      framed_placed inOrder.framed (by simp) insideDirs inOrder.isTarget⟩
  have clear : ∀ one ∈ leaves links first stagingDir (real lib.dir) lib, ¬ one.1 <+: real lib.dir :=
    fun one isOne => (way.clear _ (isOther one isOne)).1
  have onTop := @placed_append β [] (leaves links first stagingDir (real lib.dir) lib)
    [real lib.dir] [] system (by simp)
  rw [List.nil_append, List.append_nil] at onTop
  rw [way.mkdirs_eq, copyLoop_eq made inside isOther (inOrder.outside lib member) notBroken, onTop]
  refine ⟨rfl, ?_⟩
  rw [← onTop]
  refine ⟨?_, ?_, inOrder.outside, framed_placed inOrder.framed (inside_of_leaves inside lib)
    insideDirs inOrder.isTarget⟩
  · refine dirs_above inside (dirs_placed _ List.mem_cons_self clear)
  · intro other isLib
    obtain ⟨otherInside, front, base, rest, otherWay⟩ := inOrder.ways other isLib
    exact ⟨otherInside, front, base, rest, otherWay.placed isOther free⟩

/-- A run over libraries that do not lead astray. -/
theorem copyLibRoot_eq {found : List Found}
    (inOrder : InOrder links first stagingDir targetDir real others all system)
    (areLibs : ∀ lib ∈ copied links first stagingDir found, lib ∈ all)
    (areOthers : ∀ one ∈ leftBy links first stagingDir real (copied links first stagingDir found),
      one.1 ∈ others)
    (notBroken : ∀ lib ∈ copied links first stagingDir found,
      libAt links first (lib.path stagingDir) ≠ .broken) :
    copyLibRoot links 2 stagingDir targetDir found system =
      some (placed (leftBy links first stagingDir real (copied links first stagingDir found))
        ((copied links first stagingDir found).map fun lib => real lib.dir) system) := by
  induction found generalizing system with
  | nil => exact congrArg some (placed_nil system).symm
  | cons lib rest inductionHypothesis =>
    have isFirst : lib ∈ copied links first stagingDir (lib :: rest) := List.mem_cons_self
    have member := areLibs lib isFirst
    have isOther : ∀ one ∈ leaves links first stagingDir (real lib.dir) lib, one.1 ∈ others :=
      fun one isOne => areOthers one (List.mem_flatMap.mpr ⟨lib, isFirst, isOne⟩)
    obtain ⟨copies, later⟩ := copyLib inOrder member isOther (notBroken lib isFirst)
    rw [copyLibRoot]
    simp only [copies]
    by_cases exits : exitsAt links first (lib.path stagingDir) = true
    · have only : copied links first stagingDir (lib :: rest) = [lib] := by
        rw [copied, if_pos exits]
      rw [exits, only, leftBy, List.flatMap_singleton]
      rfl
    · have goesOn : copied links first stagingDir (lib :: rest) =
          lib :: copied links first stagingDir rest := by
        rw [copied, if_neg exits]
      rw [Bool.not_eq_true] at exits
      rw [goesOn, leftBy, List.flatMap_cons] at areOthers
      rw [goesOn] at areLibs notBroken
      rw [exits, goesOn, leftBy, List.flatMap_cons, List.map_cons]
      dsimp only
      rw [inductionHypothesis later
        (fun other isLib => areLibs other (List.mem_cons_of_mem lib isLib))
        (fun one isOne => areOthers one (List.mem_append_right _ isOne))
        (fun other isLib => notBroken other (List.mem_cons_of_mem lib isLib))]
      have stays : ∀ one ∈ leaves links first stagingDir (real lib.dir) lib,
          ∀ dir ∈ (copied links first stagingDir rest).map fun lib => real lib.dir,
            ¬ one.1 <+: dir := ?_
      · exact congrArg some (@placed_append β _ _ [real lib.dir] _ system stays).symm
      intro one isOne dir isDir
      obtain ⟨other, isLib, rfl⟩ := List.mem_map.mp isDir
      obtain ⟨-, front, base, rest, way⟩ := inOrder.ways other
        (areLibs other (List.mem_cons_of_mem lib isLib))
      exact (way.clear _ (isOther one isOne)).1

end Run

/-! ### Where the links lead -/

/-- There is a regular file with a content at a place. -/
def FileAt (tree : Tree Text β) (place : List Text) (content : β) : Prop :=
  place ≠ [] ∧ tree place = some (.file content)

/-- A path leads to a regular file with a content, through so many links at most. -/
def LeadsTo (tree : Tree Text β) (links : ℕ) (path : Path) (content : β) : Prop :=
  ∃ place, walk tree links [] path = some place ∧ FileAt tree place content

/-- A path is one of a link. -/
def IsLinkAt (links : ℕ) (system : Tree Text β) (path : Path) : Prop :=
  ∃ absolute linkTarget, lstat links system path = some (.link absolute linkTarget)

/-- The target as it is on the device, where it is the root. -/
def onDevice (targetDir : List Text) (system : Tree Text β) : Tree Text β := fun place =>
  system (targetDir ++ place)

section Leads

variable {links : ℕ} {system : Tree Text β} {path : Path} {content : β}

theorem libAt_of_leadsTo (isLink : IsLinkAt links system path)
    (leads : LeadsTo system links path content) :
    ∃ hop final, libAt links system path = .link hop final content := by
  obtain ⟨absolute, linkTarget, there⟩ := isLink
  obtain ⟨place, ends, nonempty, isFile⟩ := leads
  obtain ⟨before, final, rfl⟩ := (List.eq_nil_or_concat' place).resolve_left nonempty
  refine ⟨linkBasename linkTarget, final, ?_⟩
  simp only [libAt, there, ends, List.getLast?_concat, isFile]

theorem leadsTo_of_libAt {hop : Step Text} {final : Text}
    (isLib : libAt links system path = .link hop final content) :
    LeadsTo system links path content := by
  obtain ⟨_, _, _, _, before, ends, isFile⟩ := link_of_libAt isLib
  exact ⟨before ++ [final], ends, by simp, isFile⟩

theorem libAt_ne_broken (notLink : ¬ IsLinkAt links system path) :
    libAt links system path ≠ .broken := by
  rw [libAt]
  split
  · simp
  · next absolute linkTarget there => exact absurd ⟨absolute, linkTarget, there⟩ notLink
  · simp

end Leads

/-! ### The links of a library -/

/-- Every link that is made leads, on the device, to a regular file with the content that the link
in the staging directory leads to. -/
def Right (links : ℕ) (stagingDir targetDir : List Text) (found : List Found)
    (system : Tree Text β) : Prop :=
  ∃ rounds result, copyLibRoot links rounds stagingDir targetDir found system = some result ∧
    ∀ lib ∈ copied links system stagingDir found, IsLinkAt links system (lib.path stagingDir) →
      ∃ content, LeadsTo system links (lib.path stagingDir) content ∧
        ∃ count, LeadsTo (onDevice targetDir result) count (stepsTo (lib.dir ++ [lib.name])) content

/-- What the libraries leave that are copied. -/
def supply (links : ℕ) (system : Tree Text β) (stagingDir targetDir : List Text)
    (found : List Found) : List (List Text × Option (Node Text β)) :=
  leftBy links system stagingDir (realDir links system targetDir)
    (copied links system stagingDir found)

/-- The device when every place stands for what the last library found with it leaves there, and
for what is in the target otherwise, or a directory that libraries are found in. -/
def suppliedTree (links : ℕ) (stagingDir targetDir : List Text) (found : List Found)
    (system : Tree Text β) : Tree Text β :=
  onDevice targetDir <|
    placed (supply links system stagingDir targetDir found)
      ((copied links system stagingDir found).map fun lib =>
        realDir links system targetDir lib.dir) system

/-- A system in which the libraries can be copied: each directory that they are found in is one in
the target, through links perhaps, or can be made there; no library has the name of something on
the way to one; and the staging directory does not lead into the target. -/
structure Ready (links : ℕ) (stagingDir targetDir : List Text) (found : List Found)
    (system : Tree Text β) : Prop where
  isTarget : Dirs system targetDir
  ways : ∀ lib ∈ copied links system stagingDir found,
    ∃ real front base rest, targetDir <+: real ∧
      Way links system ((supply links system stagingDir targetDir found).map Prod.fst)
        (targetDir ++ lib.dir) real front base rest
  outside : ∀ lib ∈ copied links system stagingDir found,
    ∀ place ∈ lookedAt links system (lib.path stagingDir), ¬ targetDir <+: place

/-- Every link that is found leads to a file, and from its name one comes to a file with the same
content by what the libraries leave. -/
def Supplied (links : ℕ) (stagingDir targetDir : List Text) (found : List Found)
    (system : Tree Text β) : Prop :=
  ∀ lib ∈ copied links system stagingDir found, IsLinkAt links system (lib.path stagingDir) →
    ∃ hop final content, libAt links system (lib.path stagingDir) = .link hop final content ∧
      ∃ count, LeadsTo (suppliedTree links stagingDir targetDir found system) count
        (stepsTo (lib.dir ++ [lib.name])) content

section Right

variable {links : ℕ} {system : Tree Text β} {stagingDir targetDir : List Text} {found : List Found}

/-- The directory that a way leads to. -/
theorem Way.realDir_eq {others : List (List Text)} {dir real front base rest : List Text}
    (way : Way links system others (targetDir ++ dir) real front base rest) :
    realDir links system targetDir dir = real := by
  have free : ∀ dir ∈ [real], Free system dir := by
    intro dir isDir
    rw [List.mem_singleton.mp isDir]
    exact way.free
  rw [realDir, way.mkdirs_eq, (way.placed (by simp) free).walk_eq
    (dirs_placed [] List.mem_cons_self (by simp))]
  rfl

/-- A run over libraries that do not lead astray. -/
theorem copyLibRoot_placed (ready : Ready links stagingDir targetDir found system)
    (notBroken : ∀ lib ∈ copied links system stagingDir found,
      libAt links system (lib.path stagingDir) ≠ .broken) :
    copyLibRoot links 2 stagingDir targetDir found system =
      some (placed (supply links system stagingDir targetDir found)
        ((copied links system stagingDir found).map fun lib =>
          realDir links system targetDir lib.dir) system) := by
  have inOrder : InOrder links system stagingDir targetDir (realDir links system targetDir)
      ((supply links system stagingDir targetDir found).map Prod.fst)
      (copied links system stagingDir found) system := by
    refine ⟨ready.isTarget, fun lib member => ?_, ready.outside, framed_refl system targetDir⟩
    obtain ⟨real, front, base, rest, inside, way⟩ := ready.ways lib member
    rw [way.realDir_eq]
    exact ⟨inside, front, base, rest, way⟩
  exact copyLibRoot_eq inOrder (fun lib member => member)
    (fun one member => List.mem_map.mpr ⟨one, member, rfl⟩) notBroken

theorem supplied_of_right (ready : Ready links stagingDir targetDir found system)
    (right : Right links stagingDir targetDir found system) :
    Supplied links stagingDir targetDir found system := by
  obtain ⟨rounds, result, run, leads⟩ := right
  have isLink : ∀ lib ∈ copied links system stagingDir found,
      IsLinkAt links system (lib.path stagingDir) →
      ∃ hop final content, libAt links system (lib.path stagingDir) = .link hop final content ∧
        ∃ count, LeadsTo (onDevice targetDir result) count (stepsTo (lib.dir ++ [lib.name]))
          content := by
    intro lib member isLink
    obtain ⟨content, isFile, there⟩ := leads lib member isLink
    obtain ⟨hop, final, isLib⟩ := libAt_of_leadsTo isLink isFile
    exact ⟨hop, final, content, isLib, there⟩
  have notBroken : ∀ lib ∈ copied links system stagingDir found,
      libAt links system (lib.path stagingDir) ≠ .broken := by
    intro lib member
    by_cases link : IsLinkAt links system (lib.path stagingDir)
    · obtain ⟨hop, final, content, isLib, -⟩ := isLink lib member link
      simp [isLib]
    · exact libAt_ne_broken link
  have otherRun := copyLibRoot_placed ready notBroken
  obtain rfl := Option.some.inj <|
    (copyLibRoot_mono (Nat.le_max_left rounds 2) run).symm.trans
      (copyLibRoot_mono (Nat.le_max_right rounds 2) otherRun)
  exact isLink

theorem right_of_supplied (ready : Ready links stagingDir targetDir found system)
    (supplied : Supplied links stagingDir targetDir found system) :
    Right links stagingDir targetDir found system := by
  have notBroken : ∀ lib ∈ copied links system stagingDir found,
      libAt links system (lib.path stagingDir) ≠ .broken := by
    intro lib member
    by_cases link : IsLinkAt links system (lib.path stagingDir)
    · obtain ⟨hop, final, content, isLib, -⟩ := supplied lib member link
      simp [isLib]
    · exact libAt_ne_broken link
  refine ⟨2, _, copyLibRoot_placed ready notBroken, fun lib member isLink => ?_⟩
  obtain ⟨hop, final, content, isLib, leads⟩ := supplied lib member isLink
  exact ⟨content, leadsTo_of_libAt isLib, leads⟩

end Right

/-- A tree with some nodes. -/
def treeOfNodes (nodes : List (List Text × Node Text ℕ)) : Tree Text ℕ := fun place =>
  (nodes.find? fun node => decide (node.1 = place)).map Prod.snd

def staging : List Text := ["staging".toList]

def target : List Text := ["target".toList]

def lib : Text := "lib".toList

def lib64 : Text := "lib64".toList

def libfoo : Text := "libfoo.so.1".toList

/-- A library with two names, `libfoo.so.1` and `libfoo-1.so`, in a directory that has two names as
well, in the staging directory and in the target. -/
def libfooTree (between : List (List Text × Node Text ℕ)) (hop : String) : Tree Text ℕ :=
  treeOfNodes <|
    [(staging, .dir), (staging ++ [lib], .dir), (staging ++ [lib64], .link false [.down lib]),
      (staging ++ [lib, libfoo], .link false [.down hop.toList]),
      (staging ++ [lib, "libfoo-1.so".toList], .file 7),
      (target, .dir), (target ++ [lib], .dir), (target ++ [lib64], .link false [.down lib])] ++
    between

/-- What `find -L` lists of the library. -/
def foundLibfoo : List Found := [⟨[lib], libfoo⟩, ⟨[lib64], libfoo⟩]

/-- The directory of the library, by both of its names. -/
theorem ready_libfoo {system : Tree Text ℕ}
    (dirs : system target = some .dir ∧ system (target ++ [lib]) = some .dir)
    (ways : ∀ one ∈ copied 40 system staging foundLibfoo,
      walk system 40 [] (stepsTo (target ++ one.dir)) = some (target ++ [lib]) ∧
        ∀ other ∈ (supply 40 system staging target foundLibfoo).map Prod.fst,
          ¬ other <+: target ++ [lib] ∧
            ∀ visited ∈ visits system 40 [] (stepsTo (target ++ one.dir)), ¬ other <+: visited)
    (outside : ∀ one ∈ copied 40 system staging foundLibfoo,
      ∀ place ∈ lookedAt 40 system (one.path staging), ¬ target <+: place) :
    Ready 40 staging target foundLibfoo system := by
  have isTarget : Dirs system target := dirs_append (dirs_nil system) dirs.1
  have isLib : Dirs system (target ++ [lib]) := dirs_append isTarget dirs.2
  refine ⟨isTarget, fun one member => ?_, outside⟩
  obtain ⟨leads, clear⟩ := ways one member
  exact ⟨target ++ [lib], target ++ one.dir, target ++ [lib], [], List.prefix_append target [lib],
    (List.append_nil _).symm, (List.append_nil _).symm, leads, dirAt_of_dirs isLib,
    fun before isPrefix nonempty => Or.inr (isLib before isPrefix nonempty), clear⟩

/-- A link between that is not found, since it has another name. -/
def betweenTree : Tree Text ℕ :=
  libfooTree [(staging ++ [lib, "libfoo-old.so".toList],
    .link false [.down "libfoo-1.so".toList])] "libfoo-old.so"

end Buildroot4G.Toolchain.LibRoot
