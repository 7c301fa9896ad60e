/-
This file models how `toolchain-wrapper.c` makes the arguments of the compiler: it allocates the
slots for them, copies its predefined arguments, adds those that an argument of the user does not
exclude, copies the arguments of the user and ends with NULL. A slot is perhaps not written yet, and
to write past the slots is an outcome of its own. The main result says what is in the slots for all
options of the build and all arguments; there are always enough of them.

The options of the build are the macros of the file. The texts of the macros that are parts of a
format have no `%`. The kernel takes far fewer arguments than the type `int` can count, so a sum
with `argc` has no limit here.
-/

import Buildroot4G.Toolchain.BaseDir
import Buildroot4G.Toolchain.UnsafePath

namespace Buildroot4G.Toolchain

open Shell FileTree

/-! ### The program -/

/-- The macros of the file: whether they are defined, or their values where these are used. -/
structure Macros where
  brCcache : Bool := false
  brAbi : Option Text := none
  brFpu : Option Text := none
  brSoftfloat : Bool := false
  brMode : Option Text := none
  br64 : Bool := false
  brOmitLockPrefix : Bool := false
  brBinfmtFlat : Bool := false
  brMipsTargetLittleEndian : Bool := false
  brMipsTargetBigEndian : Bool := false
  brArcTargetBigEndian : Bool := false
  brAdditionalCflags : Option (List Text) := none
  brFloatAbi : Option Text := none
  brArch : Option Text := none
  brCpu : Option Text := none
  brCrossPathRel : Option Text := none
  brCrossPathAbs : Option Text := none
  brCrossPathSuffix : Text
  brSysroot : Text

/-- The buffers that are filled before the arguments are made. -/
structure Paths where
  ccachePath : Text
  path : Text
  sysroot : Text

/-- How `main` ends without a call of the compiler. -/
inductive WrapperFailure where
  | nullPointer
  | returns (status : ℕ)
  | exits (status : ℕ) (stderr : Text)
  | outOfBounds
  deriving DecidableEq

/-- The slots of `args`: a text or NULL, where they are written. -/
abbrev Slots := List (Option (Option Text))

/-- What `main` has before it calls the compiler. -/
structure Exec where
  args : Slots
  /-- The index of the slot that `exec_args` is at. -/
  execArgs : ℕ
  stderr : Text

def exclusiveArgs : ℕ := 3

def sizeofPointer : ℕ := 8

/-- An argument that is only there under an `#ifdef`. -/
def ifdef (isDefined : Bool) (arg : Text) : List Text := if isDefined then [arg] else []

/-- An argument that ends with the value of a macro, where this is defined. -/
def withValue (option : String) (defined : Option Text) : List Text :=
  (defined.map fun value => option.toList ++ value).toList

/-- `predef_args`. -/
def predefArgs (macros : Macros) (paths : Paths) : List Text :=
  ifdef macros.brCcache paths.ccachePath ++ [paths.path] ++ ["--sysroot".toList, paths.sysroot] ++
    withValue "-mabi=" macros.brAbi ++ withValue "-mfpu=" macros.brFpu ++
    ifdef macros.brSoftfloat "-msoft-float".toList ++ withValue "-m" macros.brMode ++
    ifdef macros.br64 "-m64".toList ++
    ifdef macros.brOmitLockPrefix "-Wa,-momit-lock-prefix=yes".toList ++
    ifdef macros.brBinfmtFlat "-Wl,-elf2flt".toList ++
    ifdef macros.brMipsTargetLittleEndian "-EL".toList ++
    ifdef (macros.brMipsTargetBigEndian || macros.brArcTargetBigEndian) "-EB".toList ++
    macros.brAdditionalCflags.getD []

/-- The relative paths are filled in. -/
def fillPaths (macros : Macros) (absbasedir basename : Text) : Except WrapperFailure Paths :=
  let path := match macros.brCrossPathRel, macros.brCrossPathAbs with
    | some rel, _ => absbasedir ++ '/' :: rel ++ '/' :: basename ++ macros.brCrossPathSuffix
    | none, some abs => abs ++ '/' :: basename ++ macros.brCrossPathSuffix
    | none, none => absbasedir ++ "/usr/bin/".toList ++ basename ++ macros.brCrossPathSuffix
  let ccachePath := absbasedir ++ "/usr/bin/ccache".toList
  let sysroot := absbasedir ++ '/' :: macros.brSysroot
  if pathMax ≤ path.length then .error (.returns 3)
  else if macros.brCcache ∧ pathMax ≤ ccachePath.length then .error (.returns 3)
  else if pathMax ≤ sysroot.length then .error (.returns 3)
  else .ok ⟨ccachePath, path, sysroot⟩

/-- A block of so many bytes, which holds pointers. -/
def malloc (allocates : ℕ → Bool) (size : ℕ) : Except WrapperFailure Slots :=
  if allocates size then .ok (List.replicate (size / sizeofPointer) none) else .error (.returns 2)

/-- Entries are copied to the slots from `cur` on, and `cur` goes behind them. -/
def memcpy (args : Slots) (cur : ℕ) (entries : List (Option Text)) :
    Except WrapperFailure (Slots × ℕ) :=
  if cur + entries.length ≤ args.length then
    .ok (args.take cur ++ entries.map some ++ args.drop (cur + entries.length),
      cur + entries.length)
  else .error .outOfBounds

/-- `*cur++ = entry`. -/
def put (args : Slots) (cur : ℕ) (entry : Option Text) : Except WrapperFailure (Slots × ℕ) :=
  memcpy args cur [entry]

/-- `*cur++ = option`, where the macro is defined. -/
def putValue (option : String) (defined : Option Text) (args : Slots) (cur : ℕ) :
    Except WrapperFailure (Slots × ℕ) :=
  match defined with
  | none => .ok (args, cur)
  | some value => put args cur (some (option.toList ++ value))

/-- The index at which a loop over the arguments breaks. -/
def breakIndex (breaks : Text → Bool) (argv : List Text) : ℕ := 1 + argv.tail.findIdx breaks

def isFloatOption (arg : Text) : Bool :=
  "-mfloat-abi=".toList.isPrefixOf arg || arg = "-msoft-float".toList ||
    arg = "-mhard-float".toList

def isCpuOption (arg : Text) : Bool :=
  "-march=".toList.isPrefixOf arg || "-mtune=".toList.isPrefixOf arg ||
    "-mcpu=".toList.isPrefixOf arg

/-- The float ABI is added if it is not overridden in the arguments. -/
def putFloatAbi (macros : Macros) (argv : List Text) (args : Slots) (cur : ℕ) :
    Except WrapperFailure (Slots × ℕ) :=
  if breakIndex isFloatOption argv = argv.length then
    putValue "-mfloat-abi=" macros.brFloatAbi args cur
  else .ok (args, cur)

/-- `-march` and `-mcpu` are added if none of these options is in the arguments. -/
def putCpu (macros : Macros) (argv : List Text) (args : Slots) (cur : ℕ) :
    Except WrapperFailure (Slots × ℕ) :=
  if breakIndex isCpuOption argv = argv.length then do
    let (args, cur) ← putValue "-march=" macros.brArch args cur
    putValue "-mcpu=" macros.brCpu args cur
  else .ok (args, cur)

/-- The check for unsafe paths: what it writes. -/
def checkPaths (basename : Text) (paranoid : Bool) (argv : List Text) :
    Except WrapperFailure Text :=
  match checkArgs basename paranoid argv.tail [] with
  | .error (status, stderr) => .error (.exits status stderr)
  | .ok stderr => .ok stderr

/-- The part of `main` that makes `args`, with the text of the check for unsafe paths. -/
def makeArgs (macros : Macros) (paths : Paths) (allocates : ℕ → Bool) (paranoid : Bool)
    (basename : Text) (argv : List Text) : Except WrapperFailure (Slots × Text) := do
  let predef := predefArgs macros paths
  let args ← malloc allocates
    (sizeofPointer * predef.length + sizeofPointer * (argv.length + exclusiveArgs))
  let (args, cur) ← memcpy args 0 (predef.map some)
  let (args, cur) ← putFloatAbi macros argv args cur
  let (args, cur) ← putCpu macros argv args cur
  let stderr ← checkPaths basename paranoid argv
  let (args, cur) ← memcpy args cur (argv.tail.map some)
  let (args, _) ← put args cur none
  .ok (args, stderr)

section Main

variable (tree : Tree Text Unit) (links : ℕ) (cwd : List Text) (exe : Text) (macros : Macros)
  (allocates : ℕ → Bool) (getenv : String → Option Text)

/-- The paths that `main` has from `argv[0]`, behind the name it is called by. -/
def readPaths (progpath : Text) : Except WrapperFailure (Text × Paths) :=
  let basename := ((strrchr progpath).map Prod.snd).getD progpath
  match absbasedir tree links cwd exe progpath with
  | none => .error (.returns 2)
  | some absbasedir => do
    let paths ← fillPaths macros absbasedir basename
    .ok (basename, paths)

/-- `main`, up to the call of the compiler. -/
def main (argv : List Text) : Except WrapperFailure Exec :=
  match argv with
  | [] => .error .nullPointer
  | progpath :: _ => do
    let (basename, paths) ← readPaths tree links cwd exe macros progpath
    let (args, stderr) ← makeArgs macros paths allocates
      (isParanoid (getenv "BR_COMPILER_PARANOID_UNSAFE_PATH")) basename argv
    let execArgs := if macros.brCcache ∧ (getenv "BR_NO_CCACHE").isSome then 1 else 0
    .ok ⟨args, execArgs, stderr⟩

end Main

/-! ### The vector -/

/-- The exclusive arguments, with the options that override them. -/
def exclusives (macros : Macros) : List (Text × (Text → Bool)) :=
  (withValue "-mfloat-abi=" macros.brFloatAbi).map (fun arg => (arg, isFloatOption)) ++
    (withValue "-march=" macros.brArch ++ withValue "-mcpu=" macros.brCpu).map
      fun arg => (arg, isCpuOption)

/-- The exclusive arguments that no argument of the user overrides. -/
def notOverridden (macros : Macros) (user : List Text) : List Text :=
  ((exclusives macros).filter fun exclusive => !user.any exclusive.2).map Prod.fst

/-- The exclusive argument for the floats, where it is not overridden. -/
def floatArgs (macros : Macros) (user : List Text) : List Text :=
  if user.any isFloatOption then [] else withValue "-mfloat-abi=" macros.brFloatAbi

/-- The exclusive arguments for the processor, where they are not overridden. -/
def cpuArgs (macros : Macros) (user : List Text) : List Text :=
  if user.any isCpuOption then []
  else withValue "-march=" macros.brArch ++ withValue "-mcpu=" macros.brCpu

/-- The arguments that the compiler is to have. -/
def vector (macros : Macros) (paths : Paths) (user : List Text) : List Text :=
  predefArgs macros paths ++ notOverridden macros user ++ user

/-- The slots that `main` asks for. -/
def slotCount (macros : Macros) (paths : Paths) (user : List Text) : ℕ :=
  (predefArgs macros paths).length + (user.length + 1 + exclusiveArgs)

/-- So many slots, of which the first ones are written. -/
def writtenSlots (count : ℕ) (entries : List (Option Text)) : Slots :=
  entries.map some ++ List.replicate (count - entries.length) none

theorem length_withValue_le (option : String) (defined : Option Text) :
    (withValue option defined).length ≤ 1 := by
  cases defined <;> simp [withValue]

/-- `EXCLUSIVE_ARGS` is the number of the arguments that are exclusive. -/
theorem length_exclusives_le (macros : Macros) : (exclusives macros).length ≤ exclusiveArgs := by
  have float := length_withValue_le "-mfloat-abi=" macros.brFloatAbi
  have arch := length_withValue_le "-march=" macros.brArch
  have cpu := length_withValue_le "-mcpu=" macros.brCpu
  rw [exclusives, exclusiveArgs, List.length_append, List.length_map, List.length_map,
    List.length_append]
  omega

theorem length_notOverridden_le (macros : Macros) (user : List Text) :
    (notOverridden macros user).length ≤ exclusiveArgs := by
  rw [notOverridden, List.length_map]
  exact (List.length_filter_le _ _).trans (length_exclusives_le macros)

/-- The vector and its NULL have slots. -/
theorem length_vector_lt (macros : Macros) (paths : Paths) (user : List Text) :
    (vector macros paths user).length + 1 ≤ slotCount macros paths user := by
  have exclusive := length_notOverridden_le macros user
  rw [vector, slotCount, List.length_append, List.length_append]
  omega

theorem length_cpuArgs_le (macros : Macros) (user : List Text) :
    (cpuArgs macros user).length ≤ 2 := by
  rw [cpuArgs]
  split_ifs
  · exact Nat.zero_le 2
  · have arch := length_withValue_le "-march=" macros.brArch
    have cpu := length_withValue_le "-mcpu=" macros.brCpu
    rw [List.length_append]
    omega

theorem length_floatArgs_le (macros : Macros) (user : List Text) :
    (floatArgs macros user).length ≤ 1 := by
  rw [floatArgs]
  split_ifs
  · exact Nat.zero_le 1
  · exact length_withValue_le _ _

example : notOverridden
    { brFloatAbi := some "hard".toList, brCpu := some "cortex-a8".toList,
      brCrossPathSuffix := [], brSysroot := [] } ["-mtune=arm9".toList] =
    ["-mfloat-abi=hard".toList] := by decide

theorem filter_map_const (args : List Text) (overrides : Text → Bool) (user : List Text) :
    ((args.map fun arg => (arg, overrides)).filter fun exclusive => !user.any exclusive.2).map
      Prod.fst = if user.any overrides then [] else args := by
  induction args with
  | nil => split_ifs <;> rfl
  | cons arg rest inductionHypothesis =>
    rw [List.map_cons, List.filter_cons]
    by_cases overridden : user.any overrides = true
    · rw [if_pos overridden] at inductionHypothesis ⊢
      rw [if_neg (by simp [overridden]), inductionHypothesis]
    · rw [if_neg overridden] at inductionHypothesis ⊢
      rw [if_pos (by simp [overridden]), List.map_cons, inductionHypothesis]

theorem notOverridden_eq (macros : Macros) (user : List Text) :
    notOverridden macros user = floatArgs macros user ++ cpuArgs macros user := by
  rw [notOverridden, exclusives, List.filter_append, List.map_append, filter_map_const,
    filter_map_const, floatArgs, cpuArgs]

/-! ### The writes -/

/-- Entries are copied behind those that are written. -/
theorem memcpy_writtenSlots {count : ℕ} {entries more : List (Option Text)}
    (room : entries.length + more.length ≤ count) :
    memcpy (writtenSlots count entries) entries.length more =
      .ok (writtenSlots count (entries ++ more), (entries ++ more).length) := by
  have length : (writtenSlots count entries).length = count := by
    rw [writtenSlots, List.length_append, List.length_map, List.length_replicate]
    omega
  have before : (writtenSlots count entries).take entries.length = entries.map some := by
    rw [writtenSlots]
    exact List.take_left' (List.length_map some)
  have behind : (writtenSlots count entries).drop (entries.length + more.length) =
      List.replicate (count - (entries ++ more).length) none := by
    rw [writtenSlots, ← List.drop_drop, List.drop_left' (List.length_map some), List.drop_replicate,
      List.length_append, Nat.sub_sub]
  rw [memcpy, if_pos (by rw [length]; exact room), before, behind, writtenSlots, List.map_append,
    List.length_append]

theorem ok_bind {α β : Type} (value : α) (next : α → Except WrapperFailure β) :
    ((Except.ok value : Except WrapperFailure α) >>= next) = next value := rfl

theorem putValue_writtenSlots (option : String) (defined : Option Text) {count : ℕ}
    {entries : List (Option Text)} (room : entries.length + 1 ≤ count) :
    putValue option defined (writtenSlots count entries) entries.length =
      .ok (writtenSlots count (entries ++ (withValue option defined).map some),
        (entries ++ (withValue option defined).map some).length) := by
  cases defined with
  | none =>
    have same : entries ++ (withValue option none).map some = entries := List.append_nil _
    rw [putValue, same]
  | some value =>
    rw [putValue, put, memcpy_writtenSlots (by exact room)]
    rfl

/-- The loop comes to its end where no argument of the user breaks it. -/
theorem breakIndex_cons (breaks : Text → Bool) (progpath : Text) (user : List Text) :
    breakIndex breaks (progpath :: user) = (progpath :: user).length ↔ user.any breaks = false := by
  have ends : user.findIdx breaks = user.length ↔ user.any breaks = false := by
    rw [List.findIdx_eq_length, List.any_eq_false]
    simp
  rw [← ends, breakIndex, List.tail_cons, List.length_cons]
  omega

section MakeArgs

variable (macros : Macros) (paths : Paths) (progpath : Text) {user : List Text} {count : ℕ}
  {entries : List (Option Text)}

/-- The argument for the floats is written where it is not overridden. -/
theorem putFloatAbi_writtenSlots (room : entries.length + 1 ≤ count) :
    putFloatAbi macros (progpath :: user) (writtenSlots count entries) entries.length =
      .ok (writtenSlots count (entries ++ (floatArgs macros user).map some),
        (entries ++ (floatArgs macros user).map some).length) := by
  rw [putFloatAbi, floatArgs]
  cases overridden : user.any isFloatOption with
  | true =>
    have breaks := (breakIndex_cons isFloatOption progpath user).not.2 (by rw [overridden]; decide)
    rw [if_neg breaks, if_pos rfl, List.map_nil, List.append_nil]
  | false =>
    rw [if_pos ((breakIndex_cons _ _ _).2 overridden), if_neg Bool.false_ne_true,
      putValue_writtenSlots _ _ room]

/-- The arguments for the processor are written where they are not overridden. -/
theorem putCpu_writtenSlots (room : entries.length + 2 ≤ count) :
    putCpu macros (progpath :: user) (writtenSlots count entries) entries.length =
      .ok (writtenSlots count (entries ++ (cpuArgs macros user).map some),
        (entries ++ (cpuArgs macros user).map some).length) := by
  rw [putCpu, cpuArgs]
  cases overridden : user.any isCpuOption with
  | true =>
    have breaks := (breakIndex_cons isCpuOption progpath user).not.2 (by rw [overridden]; decide)
    rw [if_neg breaks, if_pos rfl, List.map_nil, List.append_nil]
  | false =>
    have arch := length_withValue_le "-march=" macros.brArch
    rw [if_pos ((breakIndex_cons _ _ _).2 overridden), if_neg Bool.false_ne_true,
      putValue_writtenSlots _ _ (Nat.le_of_succ_le room)]
    simp only [bind, Except.bind]
    rw [putValue_writtenSlots, List.map_append, List.append_assoc]
    rw [List.length_append, List.length_map]
    omega

/-- What is in the slots. -/
theorem makeArgs_cons (allocates : ℕ → Bool) (paranoid : Bool) (basename : Text) :
    makeArgs macros paths allocates paranoid basename (progpath :: user) =
      if allocates (sizeofPointer * slotCount macros paths user) then do
        let stderr ← checkPaths basename paranoid (progpath :: user)
        .ok (writtenSlots (slotCount macros paths user)
          ((vector macros paths user).map some ++ [none]), stderr)
      else .error (.returns 2) := by
  have size : sizeofPointer * (predefArgs macros paths).length +
      sizeofPointer * ((progpath :: user).length + exclusiveArgs) =
        sizeofPointer * slotCount macros paths user := by
    rw [slotCount, ← Nat.mul_add, List.length_cons]
  have float := length_floatArgs_le macros user
  have cpu := length_cpuArgs_le macros user
  have slots : slotCount macros paths user =
      (predefArgs macros paths).length + (user.length + 1 + 3) := rfl
  rw [makeArgs]
  dsimp only
  rw [size, malloc]
  by_cases allocated : allocates (sizeofPointer * slotCount macros paths user) = true
  · rw [if_pos allocated, if_pos allocated]
    generalize slotCount macros paths user = count at slots
    have start : List.replicate (sizeofPointer * count / sizeofPointer) none =
        writtenSlots count [] := by
      rw [Nat.mul_div_cancel_left _ (by decide)]
      rfl
    have predef : memcpy (writtenSlots count []) 0 ((predefArgs macros paths).map some) =
        .ok (writtenSlots count ((predefArgs macros paths).map some),
          ((predefArgs macros paths).map some).length) :=
      memcpy_writtenSlots (by rw [List.length_map, List.length_nil]; omega)
    rw [start, ok_bind, predef, ok_bind]
    dsimp only
    rw [putFloatAbi_writtenSlots, ok_bind]
    dsimp only
    rw [putCpu_writtenSlots, ok_bind]
    dsimp only
    cases checkPaths basename paranoid (progpath :: user) with
    | error failure => rfl
    | ok stderr =>
      rw [ok_bind, ok_bind, List.tail_cons, memcpy_writtenSlots, ok_bind]
      dsimp only
      rw [put, memcpy_writtenSlots, ok_bind]
      dsimp only
      rw [vector, notOverridden_eq, List.map_append, List.map_append, List.map_append,
        List.append_assoc (List.map some (predefArgs macros paths))]
      all_goals
        simp only [List.length_append, List.length_map, List.length_singleton]
        omega
    all_goals
      simp only [List.length_append, List.length_map]
      omega
  · rw [if_neg allocated, if_neg allocated]
    rfl

end MakeArgs

/-- **The slots hold the predefined arguments, the exclusive arguments that no argument of the user
overrides, the arguments of the user in their order, and NULL.** The slots that are asked for are
always enough, so no write is past them; the compiler is not called where a path is too long, there
is no memory, or an unsafe path is an error. -/
theorem main_eq (tree : Tree Text Unit) (links : ℕ) (cwd : List Text) (exe : Text)
    (macros : Macros) (allocates : ℕ → Bool) (getenv : String → Option Text) (argv : List Text) :
    (∀ paths user, (vector macros paths user).length + 1 ≤ slotCount macros paths user) ∧
    main tree links cwd exe macros allocates getenv argv =
      (match argv with
      | [] => .error .nullPointer
      | progpath :: user => do
        let (basename, paths) ← readPaths tree links cwd exe macros progpath
        if allocates (sizeofPointer * slotCount macros paths user) then do
          let stderr ← checkPaths basename
            (isParanoid (getenv "BR_COMPILER_PARANOID_UNSAFE_PATH")) argv
          .ok {
            args := writtenSlots (slotCount macros paths user)
              ((vector macros paths user).map some ++ [none])
            execArgs := if macros.brCcache ∧ (getenv "BR_NO_CCACHE").isSome then 1 else 0
            stderr }
        else .error (.returns 2)) := by
  refine ⟨length_vector_lt macros, ?_⟩
  cases argv with
  | nil => rfl
  | cons progpath user =>
    rw [main]
    dsimp only
    cases readPaths tree links cwd exe macros progpath with
    | error failure => rfl
    | ok read =>
      rw [ok_bind, ok_bind, makeArgs_cons]
      by_cases allocated : allocates (sizeofPointer * slotCount macros read.2 user) = true
      · rw [if_pos allocated, if_pos allocated]
        cases checkPaths read.1 (isParanoid (getenv "BR_COMPILER_PARANOID_UNSAFE_PATH"))
          (progpath :: user) <;> rfl
      · rw [if_neg allocated, if_neg allocated]
        rfl

end Buildroot4G.Toolchain
