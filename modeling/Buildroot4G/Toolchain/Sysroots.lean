/-
This file models how `copy_toolchain_sysroot` relates the main sysroot of a toolchain and the one of
the selected variant, and the symbolic link it makes in the staging directory for the variant. The
relation is decided on the texts of the two paths. The main result says exactly when it is the
right one and the link leads to the staging directory: a sysroot beside the main one whose name
begins with the main one's name counts as nested, and its link is not made.
-/

import Buildroot4G.Shell.Path
import Buildroot4G.Toolchain.External

namespace Buildroot4G.Toolchain

open Shell FileTree

variable {β : Type}

/-- The characters that the expression of sed does not take as they are; the dot is any character
there. -/
def sedSpecials : Text := "()\x7b+^$|:".toList

def isLiteral (path : Text) : Bool := path.all fun c => decide (c ∉ sedSpecials)

/-- The text behind a pattern of ordinary characters and dots. -/
def afterPattern : Text → Text → Option Text
  | [], text => some text
  | _ :: _, [] => none
  | p :: pattern, c :: text => if p = c ∨ p = '.' then afterPattern pattern text else none

/-- `echo ${ARCH_SYSROOT_DIR} | sed -r -e "s:^${SYSROOT_DIR}(.*)/$:\1:"`, where `sed` is what it
makes of a main sysroot with special characters. -/
def archSubdirOf (sed : Text → Text → Text) (sysrootDir archSysrootDir : Text) : Text :=
  if isLiteral sysrootDir then
    match afterPattern sysrootDir archSysrootDir with
    | none => archSysrootDir
    | some after => if after.getLast? = some '/' then after.dropLast else archSysrootDir
  else sed sysrootDir archSysrootDir

/-- How the script takes two sysroots. -/
inductive Relation where
  | same
  | nested
  | sideBySide
  | apart
  deriving DecidableEq, Repr

/-- `[ A != B ]`, `[ ${A:0:${#B}} == B ]` and the test of the directories. -/
def relationOf (sysrootDirCanon archSysrootDirCanon : Text) : Relation :=
  if sysrootDirCanon = archSysrootDirCanon then .same
  else if archSysrootDirCanon.take sysrootDirCanon.length = sysrootDirCanon then .nested
  else if dirname archSysrootDirCanon = dirname sysrootDirCanon then .sideBySide
  else .apart

/-- `readlink -f`, and nothing when a directory on the way is not there. -/
def readlinkF (links : ℕ) (tree : Tree Text β) (path : Text) : Option Text :=
  (walk tree links [] (steps path)).map pathText

/-- `[ -d path ]`. -/
def isDir (links : ℕ) (tree : Tree Text β) (path : Text) : Bool :=
  match walk tree links [] (steps path) with
  | none => false
  | some place => dirAt tree place

/-- What `printf` writes of the slashes of a text: a text that begins with a dash is an option. -/
def nbslashs (archSubdir : Text) : ℕ :=
  if archSubdir.head? = some '-' then 0 else archSubdir.count '/'

/-- `./` and so many `../`. -/
def relpath : ℕ → Text
  | 0 => "./".toList
  | count + 1 => relpath count ++ "../".toList

/-- The tree after `ln`, and the place of the link it made. -/
structure Linked (β : Type) where
  tree : Tree Text β
  link : Option (List Text)

/-- What is at the place of a link does not keep `ln` from making it. -/
def isFree (replaces : Bool) : Option (Node Text β) → Bool
  | none => true
  | some .dir => false
  | some _ => replaces

/-- `ln -s target path`, and `ln -snf` when it replaces what is there. The target ends at `.` or
`..`: with such a name nothing is linked into a directory. -/
def ln (replaces : Bool) (links : ℕ) (tree : Tree Text β) (target path : Text) : Linked β :=
  match strrchr path with
  | none => ⟨tree, none⟩
  | some (directory, name) =>
    match walk tree links [] (steps directory) with
    | none => ⟨tree, none⟩
    | some there =>
      if step name = .down name ∧ dirAt tree there ∧ isFree replaces (tree (there ++ [name])) then
        ⟨put tree (there ++ [name]) (some (.link false (steps target))), some (there ++ [name])⟩
      else ⟨tree, none⟩

/-- What the script makes of two sysroots. -/
structure Copied (β : Type) where
  relation : Relation
  linked : Linked β

/-- The tree after the headers of the main sysroot are copied, if the variant has none. -/
def headersTree (links : ℕ) (copyHeaders : Tree Text β → Tree Text β) (tree : Tree Text β)
    (archSysrootDir : Text) : Tree Text β :=
  if isDir links tree (archSysrootDir ++ "/usr/include".toList) then tree else copyHeaders tree

/-- The link to a variant below the main sysroot. -/
def linkNested (links : ℕ) (tree : Tree Text β) (stagingDir : List Text) (archSubdir : Text) :
    Linked β :=
  let path := pathText stagingDir ++ '/' :: archSubdir
  let made := mkdirs links tree [] (steps (dirname path))
  ln false links made (relpath (nbslashs archSubdir)) path

/-- The link to a variant beside the main sysroot. -/
def linkSideBySide (links : ℕ) (tree : Tree Text β) (stagingDir : List Text)
    (archSysrootDirCanon : Text) : Linked β :=
  ln true links tree (relpath 0) (pathText stagingDir ++ '/' :: basename archSysrootDirCanon)

/-- `copy_toolchain_sysroot`, on the tree after the library directories are copied and up to the
support libraries. `copyHeaders` is what `cp -a` of the main sysroot's headers makes of the tree;
`unreadable` is what comes of a sysroot that `readlink` gives no path for. -/
def copyToolchainSysroot (links : ℕ) (copyHeaders : Tree Text β → Tree Text β)
    (unreadable : Copied β) (tree : Tree Text β) (stagingDir : List Text)
    (sysrootDir archSysrootDir archSubdir : Text) : Copied β :=
  match readlinkF links tree sysrootDir, readlinkF links tree archSysrootDir with
  | some sysrootDirCanon, some archSysrootDirCanon =>
    let relation := relationOf sysrootDirCanon archSysrootDirCanon
    ⟨relation, match relation with
      | .nested =>
        linkNested links (headersTree links copyHeaders tree archSysrootDir) stagingDir archSubdir
      | .sideBySide => linkSideBySide links tree stagingDir archSysrootDirCanon
      | .same | .apart => ⟨tree, none⟩⟩
  | _, _ => unreadable

/-- The sysroot directory as the callers have it: `toolchain_find_sysroot` leaves the slash before
the library directory. -/
def sysrootPath (place : List Text) : Text := slashed place ++ ['/']

/-- `TOOLCHAIN_EXTERNAL_INSTALL_SYSROOT_LIBS` on a main sysroot and the sysroot of a variant.
`special` is what the script makes of paths that are more than one word to the shell. -/
def installSysrootLibs (links : ℕ) (copyHeaders : Tree Text β → Tree Text β)
    (sed : Text → Text → Text) (special unreadable : Copied β) (tree : Tree Text β)
    (stagingDir main arch : List Text) : Copied β :=
  let sysrootDir := sysrootPath main
  let archSysrootDir := sysrootPath arch
  if isPlain sysrootDir ∧ isPlain archSysrootDir then
    copyToolchainSysroot links copyHeaders unreadable tree stagingDir sysrootDir archSysrootDir
      (archSubdirOf sed sysrootDir archSysrootDir)
  else special

/-! ### The texts -/

theorem afterPattern_append (pattern rest : Text) :
    afterPattern pattern (pattern ++ rest) = some rest := by
  induction pattern with
  | nil => rfl
  | cons p pattern inductionHypothesis =>
    rw [List.cons_append, afterPattern, if_pos (Or.inl rfl), inductionHypothesis]

theorem slashed_append_list (place below : List Text) :
    slashed (place ++ below) = slashed place ++ slashed below := List.flatMap_append

/-- The subdirectory of a variant below the main sysroot. -/
theorem archSubdirOf_below (sed : Text → Text → Text) {main : List Text}
    (literal : isLiteral (sysrootPath main) = true) (first : Text) (rest : List Text) :
    archSubdirOf sed (sysrootPath main) (sysrootPath (main ++ first :: rest)) =
      first ++ slashed rest := by
  have split : sysrootPath (main ++ first :: rest) =
      sysrootPath main ++ (first ++ slashed rest ++ ['/']) := by
    have cons : slashed (first :: rest) = '/' :: (first ++ slashed rest) := rfl
    rw [sysrootPath, sysrootPath, slashed_append_list, cons]
    simp
  rw [archSubdirOf, if_pos literal, split, afterPattern_append]
  simp

/-- So many `..` as there are names above the last one. -/
theorem nbslashs_below {first : Text} {rest : List Text}
    (areNames : ∀ name ∈ first :: rest, IsName name) :
    nbslashs (first ++ slashed rest) = if first.head? = some '-' then 0 else rest.length := by
  have isName := areNames first List.mem_cons_self
  have head : (first ++ slashed rest).head? = first.head? := by
    obtain ⟨c, later, rfl⟩ := List.exists_cons_of_ne_nil isName.ne_nil
    rfl
  rw [nbslashs, head, List.count_append, List.count_eq_zero.mpr isName.noSlash,
    count_slashed fun name member => areNames name (List.mem_cons_of_mem first member),
    Nat.zero_add]

theorem steps_relpath (count : ℕ) :
    steps (relpath count) = .stay :: (List.replicate count .up ++ [.stay]) := by
  have ends : ∃ before, relpath count = before ++ ['/'] ∧
      steps before = .stay :: List.replicate count .up := by
    induction count with
    | zero => exact ⟨['.'], rfl, rfl⟩
    | succ count inductionHypothesis =>
      obtain ⟨before, split, same⟩ := inductionHypothesis
      refine ⟨before ++ "/..".toList, ?_, ?_⟩
      · rw [relpath, split]
        simp
      · have up : steps "..".toList = [.up] := rfl
        change steps (before ++ '/' :: "..".toList) = _
        rw [steps_append, same, up, List.replicate_succ']
        rfl
  obtain ⟨before, split, same⟩ := ends
  rw [split, steps_append, same]
  rfl

theorem sysrootPath_steps {place : List Text} (areNames : ∀ name ∈ place, IsName name) :
    steps (sysrootPath place) = .stay :: (stepsTo place ++ [.stay]) := by
  rw [sysrootPath, steps_append, steps_slashed areNames]
  rfl

/-- A sysroot that is there is canonical but for the slash at its end. -/
theorem readlinkF_sysrootPath {tree : Tree Text β} {place : List Text} (links : ℕ)
    (areNames : ∀ name ∈ place, IsName name) (dirs : Dirs tree place) :
    readlinkF links tree (sysrootPath place) = some (pathText place) := by
  rw [readlinkF, sysrootPath_steps areNames, walk_stay, walk_stepsTo dirs, walk_stay, walk_nil]
  rfl

/-! ### The relation -/

section Relation

variable {main arch : List Text} (mainNames : ∀ name ∈ main, IsName name)
  (archNames : ∀ name ∈ arch, IsName name)

theorem not_continues_below (below : main <+: arch) : ¬ Continues main arch := by
  rintro ⟨before, name, longer, rest, rfl, rfl, -, different⟩
  rw [List.prefix_append_right_inj, List.cons_prefix_cons] at below
  exact different below.1

include mainNames archNames

theorem pathText_prefix_iff :
    pathText main <+: pathText arch ↔ main <+: arch ∨ Continues main arch := by
  by_cases mainRoot : main = []
  · subst mainRoot
    have starts : pathText [] <+: pathText arch := by
      cases arch with
      | nil => exact List.prefix_refl _
      | cons first rest => exact ⟨first ++ slashed rest, rfl⟩
    simp [starts]
  · rw [pathText_eq_slashed mainRoot]
    by_cases archRoot : arch = []
    · subst archRoot
      obtain ⟨first, rest, rfl⟩ := List.exists_cons_of_ne_nil mainRoot
      have nonempty := (mainNames first List.mem_cons_self).ne_nil
      have cons : slashed (first :: rest) = '/' :: (first ++ slashed rest) := rfl
      have noContinues : ¬ Continues (first :: rest) [] := by
        rintro ⟨before, _, longer, _, _, other, _⟩
        simp at other
      simp [cons, pathText, nonempty, noContinues]
    · rw [pathText_eq_slashed archRoot, slashed_prefix_iff mainNames archNames]

/-- How the script takes two different sysroots. -/
theorem relationOf_cases (different : main ≠ arch) :
    (main <+: arch ∨ Continues main arch) ∧
        relationOf (pathText main) (pathText arch) = .nested ∨
      ¬ main <+: arch ∧ ¬ Continues main arch ∧ main.dropLast = arch.dropLast ∧
        relationOf (pathText main) (pathText arch) = .sideBySide ∨
      ¬ main <+: arch ∧ ¬ Continues main arch ∧ main.dropLast ≠ arch.dropLast ∧
        relationOf (pathText main) (pathText arch) = .apart := by
  have canonical : pathText main ≠ pathText arch := fun same =>
    different (pathText_injective mainNames archNames same)
  have starts : (pathText arch).take (pathText main).length = pathText main ↔
      main <+: arch ∨ Continues main arch := by
    rw [← pathText_prefix_iff mainNames archNames, List.prefix_iff_eq_take]
    exact eq_comm
  have parents : dirname (pathText arch) = dirname (pathText main) ↔
      main.dropLast = arch.dropLast := by
    rw [dirname_pathText mainNames, dirname_pathText archNames]
    constructor
    · intro same
      exact pathText_injective (fun name member => mainNames name (List.mem_of_mem_dropLast member))
        (fun name member => archNames name (List.mem_of_mem_dropLast member)) same.symm
    · intro same
      rw [same]
  rw [relationOf, if_neg canonical]
  by_cases nested : main <+: arch ∨ Continues main arch
  · exact Or.inl ⟨nested, if_pos (starts.mpr nested)⟩
  · obtain ⟨notBelow, notContinues⟩ := not_or.mp nested
    rw [if_neg fun same => nested (starts.mp same)]
    by_cases same : main.dropLast = arch.dropLast
    · exact Or.inr (Or.inl ⟨notBelow, notContinues, same, if_pos (parents.mpr same)⟩)
    · exact Or.inr (Or.inr ⟨notBelow, notContinues, same, if_neg fun equal =>
        same (parents.mp equal)⟩)

end Relation

/-! ### The link -/

section Link

variable {tree : Tree Text β} {place : List Text} {name : Text}

/-- `ln` at a place in a directory. -/
theorem ln_slashed (replaces : Bool) (links : ℕ) (target : Text) (dirs : Dirs tree place)
    (areNames : ∀ other ∈ place, IsName other) (isName : IsName name) :
    ln replaces links tree target (slashed (place ++ [name])) =
      if isFree replaces (tree (place ++ [name])) then
        ⟨put tree (place ++ [name]) (some (.link false (steps target))), some (place ++ [name])⟩
      else ⟨tree, none⟩ := by
  have ends : walk tree links [] (steps (slashed place)) = some place := by
    rw [steps_slashed areNames, walk_stay, walk_place links dirs]
  rw [ln, slashed_append, strrchr_append isName.noSlash]
  simp only [ends, isName.down, dirAt_of_dirs dirs, true_and]

/-- `ln` at a path that ends at a slash. -/
theorem ln_of_slash (replaces : Bool) (links : ℕ) (tree : Tree Text β) (target before : Text) :
    ln replaces links tree target (before ++ ['/']) = ⟨tree, none⟩ := by
  have noName : step [] ≠ .down [] := by decide
  rw [ln, strrchr_append List.not_mem_nil]
  dsimp only
  split
  · rfl
  · exact if_neg fun free => noName free.1

/-- A link of so many `..` leads as far up from its directory. -/
theorem walk_linked (links count : ℕ) (dirs : Dirs tree place) :
    walk (put tree (place ++ [name]) (some (.link false (steps (relpath count))))) (links + 1) []
        (stepsTo (place ++ [name])) =
      some (place.take (place.length - count)) := by
  have stays : Dirs (put tree (place ++ [name]) (some (.link false (steps (relpath count)))))
      place := by
    intro before isPrefix nonempty
    have different : before ≠ place ++ [name] := fun same => by
      have length := isPrefix.length_le
      rw [same, List.length_append, List.length_singleton] at length
      omega
    rw [put_other different]
    exact dirs before isPrefix nonempty
  rw [stepsTo, List.map_append, ← stepsTo, walk_stepsTo stays, List.map_singleton,
    walk_down_link (put_same _ _ _), steps_relpath]
  simp only [Bool.false_eq_true, if_false, List.cons_append, List.append_assoc]
  rw [walk_stay, walk_replicate_up, List.nil_append, walk_stay, walk_nil]

end Link

/-! ### The relation and the link together -/

/-- Both sysroots are directories in one directory. -/
def Siblings (main arch : List Text) : Prop :=
  main ≠ [] ∧ arch ≠ [] ∧ main.dropLast = arch.dropLast

/-- The relation is the one of the places, and the link leads to the staging directory. -/
structure Right (links : ℕ) (stagingDir main arch : List Text) (copied : Copied β) : Prop where
  nested : copied.relation = .nested ↔ main <+: arch
  sideBySide : copied.relation = .sideBySide ↔ Siblings main arch
  leads : copied.relation = .nested ∨ copied.relation = .sideBySide →
    ∃ place ∈ copied.linked.link,
      walk copied.linked.tree (links + 1) [] (stepsTo place) = some stagingDir

/-- Two sysroots of a toolchain and a staging directory that are there. The main sysroot's path is
taken literally by sed where the variant is below it. -/
structure Ready (tree : Tree Text β) (stagingDir main arch : List Text) : Prop where
  mainNames : ∀ name ∈ main, IsName name
  archNames : ∀ name ∈ arch, IsName name
  stagingNames : ∀ name ∈ stagingDir, IsName name
  mainPlain : isPlain (sysrootPath main) = true
  archPlain : isPlain (sysrootPath arch) = true
  literal : main <+: arch → isLiteral (sysrootPath main) = true
  different : main ≠ arch
  mainDirs : Dirs tree main
  archDirs : Dirs tree arch
  staging : stagingDir ≠ []
  stagingDirs : Dirs tree stagingDir

/-- The directory that `mkdir -p` makes for the link of a variant is as far below the staging
directory as slashes are counted, and nothing has the name of the link in it. A text that begins
with a dash has no slashes for `printf`. -/
def HasRoom (links : ℕ) (tree : Tree Text β) (stagingDir : List Text) (first : Text)
    (rest : List Text) : Prop :=
  let way := stagingDir ++ (first :: rest).dropLast
  let made := mkdirs links tree [] (stepsTo way)
  ∃ place, walk made links [] (stepsTo way) = some place ∧ dirAt made place = true ∧
    made (place ++ [(first :: rest).getLast (List.cons_ne_nil _ _)]) = none ∧
    place.take (place.length - if first.head? = some '-' then 0 else rest.length) = stagingDir

/-- The script takes the sysroots for what they are and has room for the link. -/
structure Fits (links : ℕ) (copyHeaders : Tree Text β → Tree Text β) (tree : Tree Text β)
    (stagingDir main arch : List Text) : Prop where
  notContinues : ¬ Continues main arch
  notRoot : ¬ (arch = [] ∧ main.length = 1)
  room : ∀ first rest, arch = main ++ first :: rest →
    HasRoom links (headersTree links copyHeaders tree (sysrootPath arch)) stagingDir first rest
  noDir : ∀ before other name, main = before ++ [other] → arch = before ++ [name] →
    tree (stagingDir ++ [name]) ≠ some .dir

section Ready

variable {links : ℕ} {copyHeaders : Tree Text β → Tree Text β} {tree : Tree Text β}
  {stagingDir main arch : List Text}

/-- The script on two sysroots. -/
theorem installSysrootLibs_ready (ready : Ready tree stagingDir main arch)
    (sed : Text → Text → Text) (special unreadable : Copied β) :
    installSysrootLibs links copyHeaders sed special unreadable tree stagingDir main arch =
      ⟨relationOf (pathText main) (pathText arch),
        match relationOf (pathText main) (pathText arch) with
        | .nested =>
          linkNested links (headersTree links copyHeaders tree (sysrootPath arch)) stagingDir
            (archSubdirOf sed (sysrootPath main) (sysrootPath arch))
        | .sideBySide => linkSideBySide links tree stagingDir (pathText arch)
        | .same | .apart => ⟨tree, none⟩⟩ := by
  rw [installSysrootLibs, if_pos ⟨ready.mainPlain, ready.archPlain⟩, copyToolchainSysroot,
    readlinkF_sysrootPath links ready.mainNames ready.mainDirs,
    readlinkF_sysrootPath links ready.archNames ready.archDirs]

/-- `ln -s` of so many `..` leads to a place exactly when it is made that far below. -/
theorem ln_leads_iff (links count : ℕ) (tree : Tree Text β) {way : List Text} {last : Text}
    (wayNames : ∀ name ∈ way, IsName name) (lastName : IsName last) (target : List Text) :
    (∃ place ∈ (ln false links tree (relpath count) (slashed (way ++ [last]))).link,
        walk (ln false links tree (relpath count) (slashed (way ++ [last]))).tree (links + 1) []
          (stepsTo place) = some target) ↔
      ∃ place, walk tree links [] (stepsTo way) = some place ∧ dirAt tree place = true ∧
        tree (place ++ [last]) = none ∧ place.take (place.length - count) = target := by
  have free : ∀ node : Option (Node Text β), isFree false node = true ↔ node = none := by
    rintro (_ | _ | _ | _) <;> simp [isFree]
  rw [ln, slashed_append, strrchr_append lastName.noSlash]
  simp only [steps_slashed wayNames, walk_stay]
  cases ends : walk tree links [] (stepsTo way) with
  | none => simp
  | some there =>
    simp only [lastName.down, true_and, Option.some.injEq, exists_eq_left']
    by_cases room : dirAt tree there = true ∧ isFree false (tree (there ++ [last])) = true
    · obtain ⟨isDir, isFree'⟩ := room
      have dirs : Dirs tree there := by
        by_cases root : there = []
        · rw [root]
          exact dirs_nil tree
        · obtain ⟨above, name, rfl⟩ := (List.eq_nil_or_concat' there).resolve_left root
          have before := (walk_ends (dirs_nil tree) ends).dirs
          rw [List.dropLast_concat] at before
          exact dirs_append before (eq_dir_of_dirAt root isDir)
      rw [if_pos ⟨isDir, isFree'⟩]
      simp only [Option.mem_def, Option.some.injEq, exists_eq_left']
      rw [walk_linked links count dirs, Option.some.injEq, and_iff_right isDir,
        and_iff_right ((free _).mp isFree')]
    · rw [if_neg room]
      refine iff_of_false (fun ⟨place, isLink, _⟩ => by cases isLink) fun both => room ?_
      exact ⟨both.1, (free _).mpr both.2.1⟩

/-- Below the main sysroot, the link leads to the staging directory when there is room for it. -/
theorem linkNested_leads_iff (links : ℕ) (tree : Tree Text β) {first : Text} {rest : List Text}
    (stagingNames : ∀ name ∈ stagingDir, IsName name) (staging : stagingDir ≠ [])
    (areNames : ∀ name ∈ first :: rest, IsName name) :
    (∃ place ∈ (linkNested links tree stagingDir (first ++ slashed rest)).link,
        walk (linkNested links tree stagingDir (first ++ slashed rest)).tree (links + 1) []
          (stepsTo place) = some stagingDir) ↔ HasRoom links tree stagingDir first rest := by
  have nonempty : first :: rest ≠ [] := List.cons_ne_nil _ _
  have lastName := areNames _ (List.getLast_mem nonempty)
  have wayNames : ∀ name ∈ stagingDir ++ (first :: rest).dropLast, IsName name :=
    List.forall_mem_append.mpr ⟨stagingNames, fun name member =>
      areNames name (List.mem_of_mem_dropLast member)⟩
  have path : pathText stagingDir ++ '/' :: (first ++ slashed rest) =
      slashed ((stagingDir ++ (first :: rest).dropLast) ++ [(first :: rest).getLast nonempty]) := by
    rw [pathText_eq_slashed staging, List.append_assoc, List.dropLast_concat_getLast,
      slashed_append_list]
    rfl
  have directory : steps (dirname (slashed ((stagingDir ++ (first :: rest).dropLast) ++
      [(first :: rest).getLast nonempty]))) =
      .stay :: stepsTo (stagingDir ++ (first :: rest).dropLast) := by
    rw [← pathText_eq_slashed (by simp), dirname_pathText, List.dropLast_concat,
      pathText_eq_slashed (by simp [staging]), steps_slashed wayNames]
    exact List.forall_mem_append.mpr ⟨wayNames, List.forall_mem_singleton.mpr lastName⟩
  rw [linkNested, path, directory]
  simp only [mkdirs]
  rw [ln_leads_iff links _ _ wayNames lastName, nbslashs_below areNames, HasRoom]

/-- Where nothing but directories are on the way, there is room when the place of the link is free,
and the name in front has no dash at its head or no other name behind it. -/
theorem hasRoom_iff_of_free (links : ℕ) {first : Text} {rest : List Text}
    (staging : stagingDir ≠ []) (dirs : Dirs tree stagingDir)
    (way : ∀ before, before <+: (first :: rest).dropLast → before ≠ [] →
      tree (stagingDir ++ before) = none ∨ tree (stagingDir ++ before) = some .dir) :
    HasRoom links tree stagingDir first rest ↔
      tree (stagingDir ++ first :: rest) = none ∧ (rest = [] ∨ first.head? ≠ some '-') := by
  have nonempty : first :: rest ≠ [] := List.cons_ne_nil _ _
  have split : (first :: rest).dropLast ++ [(first :: rest).getLast nonempty] = first :: rest :=
    List.dropLast_concat_getLast nonempty
  have initLength : (first :: rest).dropLast.length = rest.length := by
    rw [List.length_dropLast, List.length_cons, Nat.add_sub_cancel]
  rw [HasRoom]
  generalize (first :: rest).getLast nonempty = last at split ⊢
  generalize (first :: rest).dropLast = init at split initLength way ⊢
  have free : ∀ before, before <+: stagingDir ++ init → before ≠ [] →
      tree ([] ++ before) = none ∨ tree ([] ++ before) = some .dir := by
    intro before isPrefix notRoot
    rw [List.nil_append]
    rcases List.prefix_or_prefix_of_prefix isPrefix (List.prefix_append stagingDir init) with
      above | ⟨below, rfl⟩
    · exact Or.inr (dirs before above notRoot)
    · by_cases same : below = []
      · rw [same, List.append_nil]
        exact Or.inr (dirs stagingDir (List.prefix_refl _) staging)
      · exact way below ((List.prefix_append_right_inj stagingDir).mp isPrefix) same
  obtain ⟨made, others⟩ := mkdirs_stepsTo links tree [] free
  have madeDirs : Dirs (mkdirs links tree [] (stepsTo (stagingDir ++ init)))
      (stagingDir ++ init) := made
  have lastFree : mkdirs links tree [] (stepsTo (stagingDir ++ init))
      (stagingDir ++ init ++ [last]) = tree (stagingDir ++ first :: rest) := by
    rw [← split, ← List.append_assoc]
    refine others _ fun before isPrefix _ same => ?_
    have length := isPrefix.length_le
    rw [List.nil_append] at same
    rw [← same, List.length_append, List.length_singleton] at length
    omega
  simp only [walk_place links madeDirs, Option.some.injEq, exists_eq_left', dirAt_of_dirs madeDirs,
    true_and, lastFree]
  refine and_congr_right' ?_
  rw [List.length_append, ← initLength]
  by_cases dash : first.head? = some '-'
  · -- no step up from the directory of the link
    rw [if_pos dash, Nat.sub_zero, ← List.length_append, List.take_length]
    simp only [dash, ne_eq, not_true, or_false]
    rw [List.append_right_eq_self, ← List.length_eq_zero_iff, initLength, List.length_eq_zero_iff]
  · rw [if_neg dash, Nat.add_sub_cancel, List.take_left]
    simp [dash]

/-- Beside the main sysroot, the link is made where there is no directory, and it leads to the
staging directory. -/
theorem linkSideBySide_leads_iff (links : ℕ) (before : List Text) {name : Text}
    (stagingNames : ∀ name ∈ stagingDir, IsName name) (staging : stagingDir ≠ [])
    (isName : IsName name) (dirs : Dirs tree stagingDir) :
    (∃ place ∈ (linkSideBySide links tree stagingDir (pathText (before ++ [name]))).link,
        walk (linkSideBySide links tree stagingDir (pathText (before ++ [name]))).tree (links + 1)
          [] (stepsTo place) = some stagingDir) ↔
      tree (stagingDir ++ [name]) ≠ some .dir := by
  rw [linkSideBySide, basename_pathText before isName, pathText_eq_slashed staging,
    ← slashed_append, ln_slashed true links _ dirs stagingNames isName]
  by_cases taken : tree (stagingDir ++ [name]) = some .dir
  · simp [taken, isFree]
  · have free : isFree true (tree (stagingDir ++ [name])) = true := by
      cases there : tree (stagingDir ++ [name]) with
      | none => rfl
      | some node => cases node with
        | dir => exact absurd there taken
        | file content => rfl
        | link absolute target => rfl
    simp only [free, if_true, Option.mem_def, Option.some.injEq, exists_eq_left']
    rw [walk_linked links 0 dirs, Nat.sub_zero, List.take_length]
    simp [taken]

/-- A variant below the main sysroot. -/
theorem right_nested_iff {first : Text} {rest : List Text}
    (ready : Ready tree stagingDir main (main ++ first :: rest)) :
    Right links stagingDir main (main ++ first :: rest)
        ⟨.nested, linkNested links
          (headersTree links copyHeaders tree (sysrootPath (main ++ first :: rest))) stagingDir
          (first ++ slashed rest)⟩ ↔
      Fits links copyHeaders tree stagingDir main (main ++ first :: rest) := by
  have leads := linkNested_leads_iff links
    (headersTree links copyHeaders tree (sysrootPath (main ++ first :: rest)))
    ready.stagingNames ready.staging
    (fun name member => ready.archNames name (List.mem_append_right main member))
  constructor
  · intro right
    refine ⟨not_continues_below (List.prefix_append _ _), ?_, ?_, ?_⟩
    · rintro ⟨root, -⟩
      simp at root
    · intro head others split
      obtain ⟨rfl, rfl⟩ := List.cons.inj (List.append_cancel_left split)
      exact leads.mp (right.leads (Or.inl rfl))
    · intro before other name split otherSplit
      have length := congrArg List.length otherSplit
      rw [split] at length
      simp at length
  · intro fits
    refine ⟨⟨fun _ => List.prefix_append _ _, fun _ => rfl⟩, ?_, fun _ => leads.mpr ?_⟩
    · refine ⟨fun impossible => (by cases impossible), ?_⟩
      rintro ⟨nonempty, -, parents⟩
      have length := congrArg List.length parents
      simp only [List.length_dropLast, List.length_append, List.length_cons] at length
      have positive : 0 < main.length := List.length_pos_of_ne_nil nonempty
      omega
    · exact fits.room first rest rfl

/-- A sysroot that has the directory of the main one for its own directory: a sibling, or the root
when the main one is right below it. -/
theorem right_sideBySide_iff (ready : Ready tree stagingDir main arch)
    (notBelow : ¬ main <+: arch) (notContinues : ¬ Continues main arch)
    (same : main.dropLast = arch.dropLast) :
    Right links stagingDir main arch
        ⟨.sideBySide, linkSideBySide links tree stagingDir (pathText arch)⟩ ↔
      Fits links copyHeaders tree stagingDir main arch := by
  have mainNonempty : main ≠ [] := fun none => notBelow (none ▸ List.nil_prefix)
  obtain ⟨before, other, rfl⟩ := (List.eq_nil_or_concat' main).resolve_left mainNonempty
  rw [List.dropLast_concat] at same
  rcases List.eq_nil_or_concat' arch with rfl | ⟨parent, name, rfl⟩
  · have root : before = [] := same
    subst root
    exact ⟨fun right => absurd rfl (right.sideBySide.mp rfl).2.1,
      fun fits => absurd ⟨rfl, rfl⟩ fits.notRoot⟩
  · rw [List.dropLast_concat] at same
    subst same
    have leads := linkSideBySide_leads_iff links before ready.stagingNames ready.staging
      (ready.archNames name (by simp)) ready.stagingDirs
    have siblings : Siblings (before ++ [other]) (before ++ [name]) := by simp [Siblings]
    constructor
    · intro right
      refine ⟨notContinues, ?_, fun first rest split => absurd ⟨_, split.symm⟩ notBelow, ?_⟩
      · rintro ⟨root, -⟩
        simp at root
      · intro parent first last split otherSplit
        have lastName : name = last :=
          List.singleton_inj.mp (List.append_inj' otherSplit rfl).2
        rw [← lastName]
        exact leads.mp (right.leads (Or.inr rfl))
    · intro fits
      exact ⟨⟨fun impossible => (by cases impossible), fun below => absurd below notBelow⟩,
        ⟨fun _ => siblings, fun _ => rfl⟩, fun _ => leads.mpr (fits.noDir _ _ _ rfl rfl)⟩

/-- Other sysroots have nothing to do with each other. -/
theorem right_apart (notBelow : ¬ main <+: arch) (notContinues : ¬ Continues main arch)
    (apart : main.dropLast ≠ arch.dropLast) (linked : Linked β) :
    Right links stagingDir main arch ⟨.apart, linked⟩ ∧
      Fits links copyHeaders tree stagingDir main arch := by
  constructor
  · refine ⟨⟨fun impossible => (by cases impossible), fun below => absurd below notBelow⟩,
      ⟨fun impossible => (by cases impossible), fun siblings => absurd siblings.2.2 apart⟩, ?_⟩
    rintro (impossible | impossible) <;> cases impossible
  · refine ⟨notContinues, ?_, fun first rest split => absurd ⟨_, split.symm⟩ notBelow,
      fun before other name split otherSplit => absurd ?_ apart⟩
    · rintro ⟨root, one⟩
      apply apart
      obtain ⟨only, rfl⟩ := List.length_eq_one_iff.mp one
      rw [root]
      rfl
    · rw [split, otherSplit, List.dropLast_concat, List.dropLast_concat]

/-- The script takes two sysroots for what they are and makes a link to the staging directory if and
only if the variant does not continue the main sysroot, is not the root with the main sysroot
right below it, and there is room for the link in the staging directory. -/
theorem installSysrootLibs_right_iff (ready : Ready tree stagingDir main arch)
    (sed : Text → Text → Text) (special unreadable : Copied β) :
    Right links stagingDir main arch
        (installSysrootLibs links copyHeaders sed special unreadable tree stagingDir main arch) ↔
      Fits links copyHeaders tree stagingDir main arch := by
  rw [installSysrootLibs_ready ready]
  rcases relationOf_cases ready.mainNames ready.archNames ready.different with
    ⟨nested, relation⟩ | ⟨notBelow, notContinues, same, relation⟩ |
    ⟨notBelow, notContinues, apart, relation⟩
  · rw [relation]
    by_cases below : main <+: arch
    · have literal := ready.literal below
      obtain ⟨more, rfl⟩ := below
      have nonempty : more ≠ [] := fun none => ready.different (by rw [none, List.append_nil])
      obtain ⟨first, rest, rfl⟩ := List.exists_cons_of_ne_nil nonempty
      rw [archSubdirOf_below sed literal]
      exact right_nested_iff ready
    · -- the prefix of the text is not one of the components
      have continues : Continues main arch := nested.resolve_left below
      exact ⟨fun right => absurd (right.nested.mp rfl) below,
        fun fits => absurd continues fits.notContinues⟩
  · rw [relation]
    exact right_sideBySide_iff ready notBelow notContinues same
  · rw [relation]
    obtain ⟨right, fits⟩ := right_apart notBelow notContinues apart ⟨tree, none⟩
    exact ⟨fun _ => fits, fun _ => right⟩

end Ready

/-- The directories on the way to some places. -/
def dirsTree (places : List (List Text)) : Tree Text Unit := fun other =>
  if places.any (other.isPrefixOf ·) then some .dir else none

theorem dirs_dirsTree {places : List (List Text)} {place : List Text} (member : place ∈ places) :
    Dirs (dirsTree places) place := fun _ isPrefix _ =>
  if_pos (List.any_eq_true.mpr ⟨place, member, List.isPrefixOf_iff_prefix.mpr isPrefix⟩)

/-- A staging directory beside a toolchain with two sysroots. -/
def toolchainTree (main arch stagingDir : List Text) : Tree Text Unit :=
  dirsTree [main, arch, stagingDir]

def outStaging : List Text := ["out".toList, "staging".toList]

theorem ready_toolchainTree {main arch : List Text} (mainNames : ∀ name ∈ main, IsName name)
    (archNames : ∀ name ∈ arch, IsName name) (mainPlain : isPlain (sysrootPath main) = true)
    (archPlain : isPlain (sysrootPath arch) = true)
    (literal : isLiteral (sysrootPath main) = true) (different : main ≠ arch) :
    Ready (toolchainTree main arch outStaging) outStaging main arch :=
  ⟨mainNames, archNames, by decide, mainPlain, archPlain, fun _ => literal, different,
    dirs_dirsTree (by simp), dirs_dirsTree (by simp), by decide, dirs_dirsTree (by simp)⟩

def libc : List Text := ["tc".toList, "libc".toList]

def libcThumb2 : List Text := ["tc".toList, "libc".toList, "thumb2".toList]

theorem installSysrootLibs_right_thumb2 :
    Right 40 outStaging libc libcThumb2
      (installSysrootLibs 40 id (fun _ arch => arch) ⟨.apart, ⟨fun _ => none, none⟩⟩
        ⟨.apart, ⟨fun _ => none, none⟩⟩ (toolchainTree libc libcThumb2 outStaging) outStaging libc
        libcThumb2) := by
  have ready : Ready (toolchainTree libc libcThumb2 outStaging) outStaging libc libcThumb2 :=
    ready_toolchainTree (by decide) (by decide) (by decide) (by decide) (by decide) (by decide)
  refine (installSysrootLibs_right_iff ready _ _ _).mpr ⟨?_, by decide, ?_, ?_⟩
  · exact not_continues_below ⟨["thumb2".toList], rfl⟩
  · intro first rest split
    have whole : libc ++ ["thumb2".toList] = libc ++ first :: rest := split
    obtain ⟨rfl, rfl⟩ := List.cons.inj (List.append_cancel_left whole)
    rw [headersTree, id, ite_self, hasRoom_iff_of_free 40 (by decide) ready.stagingDirs]
    · exact ⟨by decide, Or.inl rfl⟩
    · exact fun before isPrefix nonempty => absurd (List.prefix_nil.mp isPrefix) nonempty
  · intro before other name split otherSplit
    have length := congrArg List.length otherSplit
    have shorter := congrArg List.length split
    simp [libc, libcThumb2] at length shorter
    omega

def sysroot : List Text := ["tc".toList, "sysroot".toList]

def sysrootThumb : List Text := ["tc".toList, "sysroot-thumb".toList]

/-- A sysroot beside the main one counts as nested, and no link is made. -/
theorem installSysrootLibs_sysrootThumb :
    Ready (toolchainTree sysroot sysrootThumb outStaging) outStaging sysroot sysrootThumb ∧
      Siblings sysroot sysrootThumb ∧ ¬ sysroot <+: sysrootThumb ∧
      (installSysrootLibs 40 id (fun _ arch => arch) ⟨.apart, ⟨fun _ => none, none⟩⟩
        ⟨.apart, ⟨fun _ => none, none⟩⟩ (toolchainTree sysroot sysrootThumb outStaging) outStaging
        sysroot sysrootThumb).relation = .nested ∧
      (installSysrootLibs 40 id (fun _ arch => arch) ⟨.apart, ⟨fun _ => none, none⟩⟩
        ⟨.apart, ⟨fun _ => none, none⟩⟩ (toolchainTree sysroot sysrootThumb outStaging) outStaging
        sysroot sysrootThumb).linked.link = none := by
  have ready : Ready (toolchainTree sysroot sysrootThumb outStaging) outStaging sysroot
      sysrootThumb :=
    ready_toolchainTree (by decide) (by decide) (by decide) (by decide) (by decide) (by decide)
  have relation : relationOf (pathText sysroot) (pathText sysrootThumb) = .nested := by decide
  refine ⟨ready, by simp [Siblings, sysroot, sysrootThumb], by decide, ?_, ?_⟩
  · rw [installSysrootLibs_ready ready]
    exact relation
  · rw [installSysrootLibs_ready ready, relation]
    have whole : archSubdirOf (fun _ arch => arch) (sysrootPath sysroot)
        (sysrootPath sysrootThumb) = slashed sysrootThumb ++ ['/'] := by decide
    simp only [linkNested, whole]
    rw [← List.cons_append, ← List.append_assoc, ln_of_slash]

end Buildroot4G.Toolchain
