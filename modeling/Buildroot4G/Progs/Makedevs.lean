/-
This file models the loop of `package/makedevs/makedevs.c` over the lines of a device table: how
`sscanf` reads a line, which lines are accepted, and the nodes that are made for a line with a
count. The main result is that these are the nodes of the range, with their numbers, exactly
when the line is one of devices, its mode has no bits of another type, the names are free and no
device number is too large for the system.

`mknod` is the call of the system: it refuses a device number that is too large, a name that is
there already or cannot be made, and a mode whose bits are those of no type of nodes.
-/

import Buildroot4G.Shell.Number
import Mathlib.Data.List.Nodup
import Mathlib.Data.Nat.Digits.Defs

namespace Buildroot4G.Makedevs

open Shell

abbrev Unsigned := BitVec 32

/-! ### Reading a line -/

/-- `strtoul`: the number, which is the largest when it is too large, and the rest of the text. -/
def strtoul (base : ℕ) (isDigit : Char → Bool) (text : Text) : Option (BitVec 64 × Text) :=
  let (negative, digits) := splitSign (text.dropWhile isSpace)
  let number := digitsValue base (digits.takeWhile isDigit)
  if digits.takeWhile isDigit = [] then none
  else
    some
      (if 2 ^ 64 ≤ number then BitVec.allOnes 64
        else if negative then -BitVec.ofNat 64 number else BitVec.ofNat 64 number,
      digits.dropWhile isDigit)

/-- `%40s` with the width: a word, of which the rest is left when it is longer. -/
def scanWord (width : ℕ) (text : Text) : Option (Text × Text) :=
  let word := ((text.dropWhile isSpace).takeWhile fun c => !isSpace c).take width
  if word = [] then none else some (word, (text.dropWhile isSpace).drop word.length)

/-- ` %c`. -/
def scanChar (text : Text) : Option (Char × Text) :=
  match text.dropWhile isSpace with
  | [] => none
  | c :: rest => some (c, rest)

/-- `%u`, so many times: the numbers up to one that is not there. -/
def scanNumbers : ℕ → Text → List Unsigned
  | 0, _ => []
  | count + 1, text =>
    match strtoul 10 Char.isDigit text with
    | none => []
    | some (number, rest) => number.setWidth 32 :: scanNumbers count rest

/-- The variables of the loop. -/
structure Entry where
  name : Text
  type : Char
  mode : Unsigned
  user : Text
  group : Text
  major : Unsigned
  minor : Unsigned
  start : Unsigned
  increment : Unsigned
  count : Unsigned
  deriving DecidableEq

/-- What `sscanf` reads behind the type. -/
def scanRest (entry : Entry) (text : Text) : Entry :=
  match strtoul 8 isOctal text with
  | none => entry
  | some (mode, text) =>
    let entry := { entry with mode := mode.setWidth 32 }
    match scanWord 40 text with
    | none => entry
    | some (user, text) =>
      let entry := { entry with user }
      match scanWord 40 text with
      | none => entry
      | some (group, text) =>
        let numbers := scanNumbers 5 text
        { entry with
          group
          major := numbers.getD 0 0
          minor := numbers.getD 1 0
          start := numbers.getD 2 0
          increment := numbers.getD 3 0
          count := numbers.getD 4 0 }

/-- `sscanf`, when it reads the name and the type. The arrays for the user and the group are not
cleared before. -/
def scanLine (user group line : Text) : Option Entry :=
  match scanWord 4095 line with
  | none => none
  | some (name, text) =>
    match scanChar text with
    | none => none
    | some (type, text) => some (scanRest ⟨name, type, 0o755, user, group, 0, 0, 0, 0, 0⟩ text)

/-- `(major | minor | start | count | increment) > 0xfffff`. -/
def Entry.tooLarge (entry : Entry) : Bool :=
  (0xfffff : Unsigned).ult
    (entry.major ||| entry.minor ||| entry.start ||| entry.count ||| entry.increment)

/-- `get_ug_id`, where `find` looks a name up. -/
def getUgId (find : Text → Option Unsigned) (s : Text) : Option Unsigned :=
  match strtoul 10 Char.isDigit s with
  | some (number, []) => some (number.setWidth 32)
  | _ => find s

/-- `concat_path_file`. -/
def concatPathFile (path filename : Text) : Text :=
  path ++ (if path.getLast? = some '/' then [] else ['/']) ++ filename.dropWhile fun c => c = '/'

/-- What is done for a line: it is passed over, complained of or the end of the program, or it
gives an entry with the owner and the group. -/
inductive Line where
  | skip
  | invalid (message : Text)
  | dies (message : Text)
  | entry (entry : Entry) (uid gid : Unsigned)
  deriving DecidableEq

/-- The accounts of the system that is built, and those of the process. -/
structure Accounts where
  findUser : Text → Option Unsigned
  findGroup : Text → Option Unsigned
  getuid : Unsigned
  getgid : Unsigned

/-- The beginning of the loop over the lines, where the arrays hold a user and a group. -/
def readLine (accounts : Accounts) (user group : Text) (linenum : ℕ) (line : Text) : Line :=
  let invalid : Line :=
    if line.head? = none ∨ line.head? = some '#' ∨ line.head?.any isSpace then .skip
    else .invalid ("line ".toList ++ decimal linenum ++ " invalid: '".toList ++ line ++
      "'\n".toList)
  match scanLine user group line with
  | none => invalid
  | some entry =>
    if entry.tooLarge then invalid
    else if entry.name.head? = some '#' then .skip
    else
      match if entry.group = [] then some accounts.getgid
        else getUgId accounts.findGroup entry.group with
      | none => .dies ("unknown group name: ".toList ++ entry.group)
      | some gid =>
        match if entry.user = [] then some accounts.getuid
          else getUgId accounts.findUser entry.user with
        | none => .dies ("unknown user name: ".toList ++ entry.user)
        | some uid => .entry entry uid gid

/-! ### Making nodes -/

/-- `makedev`: the numbers share the 64 bits of a `dev_t`. -/
def makedev (major minor : Unsigned) : BitVec 64 :=
  (major.setWidth 64 &&& 0xfff) <<< 8 ||| (major.setWidth 64 &&& ~~~0xfff) <<< 32 |||
    (minor.setWidth 64 &&& 0xff) ||| (minor.setWidth 64 &&& ~~~0xff) <<< 12

/-- A node that was made, with the device number that the kernel was given. -/
structure Node where
  path : Text
  mode : Unsigned
  device : BitVec 32
  uid : Unsigned
  gid : Unsigned
  deriving DecidableEq

/-- The major number, as the kernel takes it out of a device number. -/
def Node.major (node : Node) : ℕ := ((node.device >>> 8) &&& 0xfff).toNat

/-- The minor number. -/
def Node.minor (node : Node) : ℕ :=
  ((node.device &&& 0xff) ||| ((node.device >>> 12) &&& 0xfff00)).toNat

/-- The bits `S_IFMT` of a mode: 1 is a FIFO, 2 a character device, 6 a block device, 8 (or none) a
regular file and 12 a socket. -/
def fileType (mode : Unsigned) : BitVec 4 := mode.extractLsb' 12 4

/-- `mknod`, followed by `chown`, where a name can be made if it is `free` and not one of the nodes
made before. Only devices keep the device number, and a mode has 16 bits. -/
def mknod (free : Text → Bool) (made : List Node) (path : Text) (mode uid gid : Unsigned)
    (rdev : BitVec 64) : Option Node :=
  if (rdev.setWidth 32).setWidth 64 ≠ rdev then none
  else if !free path || path ∈ made.map Node.path then none
  else if fileType mode ∈ [2, 6] then
    some ⟨path, mode &&& 0xffff, rdev.setWidth 32, uid, gid⟩
  else if fileType mode ∈ [0, 1, 8, 12] then some ⟨path, mode &&& 0xffff, 0, uid, gid⟩
  else none

/-- The bit of the mode for a type of nodes. -/
def typeBit : Char → Option Unsigned
  | 'p' => some 0o010000
  | 'c' => some 0o020000
  | 'b' => some 0o060000
  | _ => none

/-- The name and the device number of the node in a round of the loop. -/
def Entry.round (entry : Entry) (fullName : Text) (i : ℕ) : Text × BitVec 64 :=
  (fullName ++ showInt (entry.start + BitVec.ofNat 32 i).toInt,
    makedev entry.major (entry.minor + BitVec.ofNat 32 i * entry.increment))

/-- The nodes that are made for the rounds, one after the other. An error is printed, and the loop
goes on. -/
def makeEach (free : Text → Bool) (mode uid gid : Unsigned) (rounds : List (Text × BitVec 64)) :
    List Node :=
  rounds.foldl (fun made round => made ++ (mknod free made round.1 mode uid gid round.2).toList) []

/-- The nodes that are made for an entry. -/
def makeNodes (free : Text → Bool) (rootdir : Text) (entry : Entry) (uid gid : Unsigned) :
    List Node :=
  match typeBit entry.type with
  | none => []
  | some bit =>
    let fullName := concatPathFile rootdir entry.name
    if entry.count = 0 then
      makeEach free (entry.mode ||| bit) uid gid [(fullName, makedev entry.major entry.minor)]
    else
      makeEach free (entry.mode ||| bit) uid gid
        ((List.range entry.count.toNat).map (entry.round fullName))

/-- The bytes that are allocated for a name, with the one that ends it. -/
def allocated (fullName : Text) : ℕ := fullName.length + 8

/-! ### Device numbers -/

theorem getLsbD_mask (w n k : ℕ) :
    (BitVec.ofNat w (2 ^ n - 1)).getLsbD k = (decide (k < w) && decide (k < n)) := by
  rw [BitVec.getLsbD_ofNat, Nat.testBit_two_pow_sub_one]

/-- The bits of the numbers in a device number. -/
theorem getLsbD_makedev (major minor : Unsigned) {k : ℕ} (inside : k < 64) :
    (makedev major minor).getLsbD k =
      if k < 8 then minor.getLsbD k
      else if k < 20 then major.getLsbD (k - 8)
      else if k < 44 then minor.getLsbD (k - 12)
      else major.getLsbD (k - 32) := by
  have fff : ∀ k, (0xfff : BitVec 64).getLsbD k = _ := getLsbD_mask 64 12
  have ff : ∀ k, (0xff : BitVec 64).getLsbD k = _ := getLsbD_mask 64 8
  rw [makedev]
  simp only [BitVec.getLsbD_or, BitVec.getLsbD_shiftLeft, BitVec.getLsbD_and, BitVec.getLsbD_not,
    BitVec.getLsbD_setWidth, fff, ff, inside, decide_true, Bool.true_and]
  have major32 : ∀ j, 32 ≤ j → major.getLsbD j = false := fun j => BitVec.getLsbD_of_ge major j
  have minor32 : ∀ j, 32 ≤ j → minor.getLsbD j = false := fun j => BitVec.getLsbD_of_ge minor j
  split
  · grind
  · split
    · grind
    · split
      · grind
      · grind

theorem toNat_lt_iff {number : Unsigned} {n : ℕ} :
    number.toNat < 2 ^ n ↔ ∀ k, n ≤ k → number.getLsbD k = false := by
  constructor
  · exact fun small k large => Nat.testBit_lt_two_pow
      (Nat.lt_of_lt_of_le small (Nat.pow_le_pow_right (by decide) large))
  · exact fun clear => Nat.lt_pow_two_of_testBit _ fun k large => clear k large

/-- A device number has 32 bits when the numbers in it have 12 and 20. -/
theorem fits_makedev_iff (major minor : Unsigned) :
    ((makedev major minor).setWidth 32).setWidth 64 = makedev major minor ↔
      major.toNat < 2 ^ 12 ∧ minor.toNat < 2 ^ 20 := by
  have bits : ((makedev major minor).setWidth 32).setWidth 64 = makedev major minor ↔
      ∀ k, 32 ≤ k → k < 64 → (makedev major minor).getLsbD k = false := by
    constructor
    · intro same k large inside
      rw [← same, BitVec.getLsbD_setWidth, BitVec.getLsbD_setWidth]
      simp [Nat.not_lt.mpr large]
    · intro clear
      refine BitVec.eq_of_getLsbD_eq fun k inside => ?_
      rw [BitVec.getLsbD_setWidth, BitVec.getLsbD_setWidth]
      by_cases low : k < 32
      · simp [inside, low]
      · rw [clear k (Nat.not_lt.mp low) inside]
        simp [low]
  rw [bits, toNat_lt_iff, toNat_lt_iff]
  constructor
  · intro clear
    refine ⟨fun k large => ?_, fun k large => ?_⟩
    · by_cases inside : k < 32
      · have here := clear (k + 32) (by omega) (by omega)
        rw [getLsbD_makedev major minor (by omega)] at here
        grind
      · exact BitVec.getLsbD_of_ge major k (Nat.not_lt.mp inside)
    · by_cases inside : k < 32
      · have here := clear (k + 12) (by omega) (by omega)
        rw [getLsbD_makedev major minor (by omega)] at here
        grind
      · exact BitVec.getLsbD_of_ge minor k (Nat.not_lt.mp inside)
  · rintro ⟨majorClear, minorClear⟩ k large inside
    rw [getLsbD_makedev major minor inside]
    grind

/-- A node has the numbers that its device number was made of, when they fit in. -/
theorem numbers_of_fits {path : Text} {mode uid gid major minor : Unsigned}
    (majorFits : major.toNat < 2 ^ 12) (minorFits : minor.toNat < 2 ^ 20) :
    let node : Node := ⟨path, mode, (makedev major minor).setWidth 32, uid, gid⟩
    node.major = major.toNat ∧ node.minor = minor.toNat := by
  rw [toNat_lt_iff] at majorFits minorFits
  have fff : ∀ k, (0xfff : BitVec 32).getLsbD k = _ := getLsbD_mask 32 12
  have ff : ∀ k, (0xff : BitVec 32).getLsbD k = _ := getLsbD_mask 32 8
  have fff00 : ∀ k, (0xfff00 : BitVec 32).getLsbD k =
      (decide (k < 32) && !decide (k < 8) && (0xfff : BitVec 32).getLsbD (k - 8)) :=
    fun _ => BitVec.getLsbD_shiftLeft 0xfff 8
  have bits : ∀ k, k < 32 → ((makedev major minor).setWidth 32).getLsbD k =
      if k < 8 then minor.getLsbD k
      else if k < 20 then major.getLsbD (k - 8) else minor.getLsbD (k - 12) := by
    intro k inside
    rw [BitVec.getLsbD_setWidth, getLsbD_makedev major minor (by omega)]
    simp [inside, show k < 44 by omega]
  have beyond : ∀ k, 32 ≤ k → ((makedev major minor).setWidth 32).getLsbD k = false :=
    fun k => BitVec.getLsbD_of_ge _ k
  generalize (makedev major minor).setWidth 32 = device at bits beyond
  constructor
  · refine congrArg BitVec.toNat (BitVec.eq_of_getLsbD_eq fun k inside => ?_)
    simp only [BitVec.getLsbD_and, BitVec.getLsbD_ushiftRight, fff]
    grind
  · refine congrArg BitVec.toNat (BitVec.eq_of_getLsbD_eq fun k inside => ?_)
    simp only [BitVec.getLsbD_or, BitVec.getLsbD_and, BitVec.getLsbD_ushiftRight, fff, fff00]
    grind

/-! ### The fields of a line -/

/-- The fields of a line that is accepted have 20 bits. -/
theorem fields_lt {entry : Entry} (accepted : entry.tooLarge = false) :
    entry.major.toNat < 2 ^ 20 ∧ entry.minor.toNat < 2 ^ 20 ∧ entry.start.toNat < 2 ^ 20 ∧
      entry.count.toNat < 2 ^ 20 := by
  have small : (entry.major ||| entry.minor ||| entry.start ||| entry.count |||
      entry.increment).toNat ≤ 0xfffff := by
    rw [Entry.tooLarge, BitVec.ult, decide_eq_false_iff_not] at accepted
    exact Nat.not_lt.mp accepted
  simp only [BitVec.toNat_or] at small
  have counts := Nat.le_trans Nat.left_le_or small
  have starts := Nat.le_trans Nat.left_le_or counts
  have minors := Nat.le_trans Nat.left_le_or starts
  have count := Nat.le_trans Nat.right_le_or counts
  have start := Nat.le_trans Nat.right_le_or starts
  have minor := Nat.le_trans Nat.right_le_or minors
  have major := Nat.le_trans Nat.left_le_or minors
  exact ⟨Nat.lt_succ_of_le major, Nat.lt_succ_of_le minor, Nat.lt_succ_of_le start,
    Nat.lt_succ_of_le count⟩

theorem tooLarge_of_readLine {accounts : Accounts} {user group : Text} {linenum : ℕ} {line : Text}
    {entry : Entry} {uid gid : Unsigned}
    (accepted : readLine accounts user group linenum line = .entry entry uid gid) :
    entry.tooLarge = false := by
  rw [readLine] at accepted
  split at accepted
  · split at accepted <;> cases accepted
  · split at accepted
    · split at accepted <;> cases accepted
    · next fits =>
      split at accepted
      · cases accepted
      · split at accepted
        · cases accepted
        · split at accepted
          · cases accepted
          · cases accepted
            exact Bool.eq_false_iff.mpr fits

/-! ### The nodes of a range -/

/-- The nodes of the range of an entry: the names with the numbers, each in the memory that is
allocated for it, no name twice, and the device numbers in steps of the increment. -/
structure IsRange (rootdir : Text) (entry : Entry) (nodes : List Node) : Prop where
  paths : nodes.map Node.path = (List.range entry.count.toNat).map fun i =>
    concatPathFile rootdir entry.name ++ decimal (entry.start.toNat + i)
  fits : ∀ i < entry.count.toNat, (entry.round (concatPathFile rootdir entry.name) i).1.length <
    allocated (concatPathFile rootdir entry.name)
  distinct : (nodes.map Node.path).Nodup
  numbers : ∀ i node, nodes[i]? = some node →
    node.major = entry.major.toNat ∧
      node.minor = entry.minor.toNat + i * entry.increment.toNat

/-- The device numbers of the range are numbers that the system has. -/
def DevicesFit (entry : Entry) : Prop :=
  entry.major.toNat < 2 ^ 12 ∧
    entry.minor.toNat + (entry.count.toNat - 1) * entry.increment.toNat < 2 ^ 20

instance (entry : Entry) : Decidable (DevicesFit entry) := inferInstanceAs (Decidable (_ ∧ _))

/-- The numbers of the range are all 0. -/
def AllZero (entry : Entry) : Prop :=
  entry.major = 0 ∧ entry.minor = 0 ∧ (entry.count = 1 ∨ entry.increment = 0)

instance (entry : Entry) : Decidable (AllZero entry) := inferInstanceAs (Decidable (_ ∧ _))

/-- The line is one of devices whose numbers the system has, and the mode has neither the bit of a
FIFO nor that of a regular file; or it is one of FIFOs, which have no numbers, with all of them 0
and the mode without a bit of another type. -/
def TypeFits (entry : Entry) : Prop :=
  (entry.type = 'c' ∨ entry.type = 'b') ∧ fileType entry.mode &&& 9 = 0 ∧ DevicesFit entry ∨
    entry.type = 'p' ∧ fileType entry.mode &&& 14 = 0 ∧ AllZero entry

instance (entry : Entry) : Decidable (TypeFits entry) := inferInstanceAs (Decidable (_ ∨ _))

/-- Every name of the range can be made. -/
def NamesFree (free : Text → Bool) (rootdir : Text) (entry : Entry) : Prop :=
  ∀ i < entry.count.toNat,
    free (concatPathFile rootdir entry.name ++ decimal (entry.start.toNat + i)) = true

instance (free : Text → Bool) (rootdir : Text) (entry : Entry) :
    Decidable (NamesFree free rootdir entry) :=
  inferInstanceAs (Decidable (∀ _ < _, _))

/-! ### Calls of `mknod` -/

section Mknod

variable {free : Text → Bool} {made : List Node} {path : Text} {mode uid gid : Unsigned}
  {rdev : BitVec 64} {node : Node}

theorem path_of_mknod (makes : mknod free made path mode uid gid rdev = some node) :
    node.path = path := by
  rw [mknod] at makes
  split at makes
  · cases makes
  · split at makes
    · cases makes
    · split at makes
      · cases makes
        rfl
      · split at makes
        · cases makes
          rfl
        · cases makes

/-- A name that none of the nodes has is made as if they were not there. -/
theorem mknod_of_fresh (fresh : path ∉ made.map Node.path) :
    mknod free made path mode uid gid rdev = mknod free [] path mode uid gid rdev := by
  have same : (!free path || decide (path ∈ made.map Node.path)) =
      (!free path || decide (path ∈ ([] : List Node).map Node.path)) := by
    rw [decide_eq_false fresh, List.map_nil, decide_eq_false List.not_mem_nil]
  rw [mknod, mknod, same]

/-- Rounds with different names do not get in each other's way. -/
theorem makeEach_of_nodup {rounds : List (Text × BitVec 64)}
    (nodup : (rounds.map Prod.fst).Nodup) :
    makeEach free mode uid gid rounds =
      rounds.filterMap fun round => mknod free [] round.1 mode uid gid round.2 := by
  have general : ∀ made : List Node, (∀ round ∈ rounds, round.1 ∉ made.map Node.path) →
      rounds.foldl
          (fun made round => made ++ (mknod free made round.1 mode uid gid round.2).toList) made =
        made ++ rounds.filterMap fun round => mknod free [] round.1 mode uid gid round.2 := by
    induction rounds with
    | nil => exact fun made _ => (List.append_nil made).symm
    | cons round rest inductionHypothesis =>
      intro made fresh
      obtain ⟨here, later⟩ := List.forall_mem_cons.mp fresh
      rw [List.map_cons, List.nodup_cons] at nodup
      rw [List.foldl_cons, mknod_of_fresh here, inductionHypothesis nodup.2, List.filterMap_cons]
      · cases mknod free [] round.1 mode uid gid round.2 with
        | none => exact congrArg (· ++ _) (List.append_nil made)
        | some node => exact List.append_assoc made [node] _
      · intro other member inMade
        rw [List.map_append, List.mem_append] at inMade
        rcases inMade with old | new
        · exact later other member old
        · obtain ⟨node, isNode, same⟩ := List.mem_map.mp new
          rw [Option.mem_toList] at isNode
          rw [path_of_mknod isNode] at same
          exact nodup.1 (same ▸ List.mem_map_of_mem member)
  exact general [] fun _ _ => List.not_mem_nil

/-- What `mknod` makes, and when. -/
theorem mknod_eq_some_iff : mknod free [] path mode uid gid rdev = some node ↔
    (rdev.setWidth 32).setWidth 64 = rdev ∧ free path = true ∧
      (fileType mode ∈ [2, 6] ∧ node = ⟨path, mode &&& 0xffff, rdev.setWidth 32, uid, gid⟩ ∨
        fileType mode ∈ [0, 1, 8, 12] ∧ node = ⟨path, mode &&& 0xffff, 0, uid, gid⟩) := by
  have apart : fileType mode ∈ [2, 6] → fileType mode ∉ [0, 1, 8, 12] := by
    generalize fileType mode = bits
    revert bits
    decide
  rw [mknod]
  by_cases wide : (rdev.setWidth 32).setWidth 64 = rdev
  · rw [if_neg (not_not.mpr wide)]
    cases isFree : free path with
    | false => simp
    | true =>
      by_cases device : fileType mode ∈ [2, 6]
      · have other := apart device
        simp only [device, other, wide]
        simp [eq_comm]
      · by_cases kept : fileType mode ∈ [0, 1, 8, 12]
        · simp only [device, kept, wide]
          simp [eq_comm]
        · simp only [device, kept, wide]
          simp
  · rw [if_pos wide]
    simp [wide]

theorem fileType_or (mode bit : Unsigned) :
    fileType (mode ||| bit) = fileType mode ||| fileType bit :=
  BitVec.extractLsb'_or

/-- The mode of a line of devices is that of a device exactly when it has neither the bit of a FIFO
nor that of a regular file, and never one of another type. -/
theorem fileType_device (mode : Unsigned) {type : Char} {bit : Unsigned}
    (isType : type = 'c' ∨ type = 'b') (isBit : typeBit type = some bit) :
    (fileType (mode ||| bit) ∈ [2, 6] ↔ fileType mode &&& 9 = 0) ∧
      fileType (mode ||| bit) ∉ [0, 1, 8, 12] := by
  rw [fileType_or]
  generalize fileType mode = bits
  rcases isType with rfl | rfl <;> cases isBit <;> revert bits <;> decide

/-- The mode of a line of FIFOs is that of a FIFO exactly when it has no bit of another type, and
never that of a device. -/
theorem fileType_fifo (mode : Unsigned) :
    fileType (mode ||| 0o010000) ∉ [2, 6] ∧
      (fileType (mode ||| 0o010000) ∈ [0, 1, 8, 12] ↔ fileType mode &&& 14 = 0) := by
  rw [fileType_or]
  generalize fileType mode = bits
  revert bits
  decide

end Mknod

section Range

variable {entry : Entry} {i : ℕ}

/-- The name in a round ends in the number. -/
theorem round_fst (accepted : entry.tooLarge = false) (fullName : Text)
    (inside : i < entry.count.toNat) :
    (entry.round fullName i).1 = fullName ++ decimal (entry.start.toNat + i) := by
  obtain ⟨_, _, start, count⟩ := fields_lt accepted
  have number : (entry.start + BitVec.ofNat 32 i).toNat = entry.start.toNat + i := by
    rw [BitVec.toNat_add, BitVec.toNat_ofNat]
    omega
  have positive : (entry.start + BitVec.ofNat 32 i).toInt = Int.ofNat (entry.start.toNat + i) := by
    rw [BitVec.toInt_eq_toNat_of_lt (by rw [number]; omega), number]
    rfl
  rw [Entry.round, positive]
  rfl

/-- A number below two million has seven digits. -/
theorem length_decimal_le {number : ℕ} (small : number < 10 ^ 7) : (decimal number).length ≤ 7 :=
  Nat.toDigits_length 10 number 7 (by decide) small

/-- The minor number in a round of a range whose numbers fit. -/
theorem toNat_minor (devices : DevicesFit entry) (inside : i < entry.count.toNat) :
    (entry.minor + BitVec.ofNat 32 i * entry.increment).toNat =
        entry.minor.toNat + i * entry.increment.toNat ∧
      entry.minor.toNat + i * entry.increment.toNat < 2 ^ 20 := by
  have le : i * entry.increment.toNat ≤ (entry.count.toNat - 1) * entry.increment.toNat :=
    Nat.mul_le_mul_right _ (Nat.le_pred_of_lt inside)
  have small : entry.minor.toNat + i * entry.increment.toNat < 2 ^ 20 :=
    Nat.lt_of_le_of_lt (Nat.add_le_add_left le _) devices.2
  refine ⟨?_, small⟩
  have index : (BitVec.ofNat 32 i).toNat = i := by
    rw [BitVec.toNat_ofNat, Nat.mod_eq_of_lt (Nat.lt_trans inside entry.count.isLt)]
  rw [BitVec.toNat_add, BitVec.toNat_mul, index, Nat.mod_eq_of_lt (a := i * _) (by omega),
    Nat.mod_eq_of_lt (by omega)]

/-- The names of a range. -/
theorem nodup_names (fullName : Text) (start count : ℕ) :
    ((List.range count).map fun i => fullName ++ decimal (start + i)).Nodup := by
  refine List.nodup_range.map fun i j same => ?_
  have numbers := congrArg number (List.append_cancel_left same)
  rw [number_decimal, number_decimal] at numbers
  exact Nat.add_left_cancel numbers

variable {free : Text → Bool} {rootdir : Text} {uid gid bit : Unsigned}

/-- The rounds of a range make their nodes without regard to each other. -/
theorem makeNodes_eq (accepted : entry.tooLarge = false) (isNode : typeBit entry.type = some bit)
    (positive : entry.count ≠ 0) :
    makeNodes free rootdir entry uid gid = (List.range entry.count.toNat).filterMap fun i =>
      mknod free [] (entry.round (concatPathFile rootdir entry.name) i).1 (entry.mode ||| bit) uid
        gid (entry.round (concatPathFile rootdir entry.name) i).2 := by
  have names : ((List.range entry.count.toNat).map
        (entry.round (concatPathFile rootdir entry.name))).map Prod.fst =
      (List.range entry.count.toNat).map fun i =>
        concatPathFile rootdir entry.name ++ decimal (entry.start.toNat + i) := by
    rw [List.map_map]
    exact List.map_congr_left fun i member => round_fst accepted _ (List.mem_range.mp member)
  rw [makeNodes, isNode]
  simp only [if_neg positive]
  rw [makeEach_of_nodup (names ▸ nodup_names _ _ _), List.filterMap_map]
  rfl

/-- The node of a round is made, with the numbers of the round. -/
def RoundMade (free : Text → Bool) (rootdir : Text) (entry : Entry) (bit uid gid : Unsigned)
    (i : ℕ) (node : Node) : Prop :=
  mknod free [] (entry.round (concatPathFile rootdir entry.name) i).1 (entry.mode ||| bit) uid gid
      (entry.round (concatPathFile rootdir entry.name) i).2 = some node ∧
    node.major = entry.major.toNat ∧ node.minor = entry.minor.toNat + i * entry.increment.toNat

/-- The nodes are those of the range when each round makes the node that it is to make. -/
theorem isRange_iff_each (accepted : entry.tooLarge = false)
    (isNode : typeBit entry.type = some bit) (positive : entry.count ≠ 0) :
    IsRange rootdir entry (makeNodes free rootdir entry uid gid) ↔
      ∀ i < entry.count.toNat, ∃ node, RoundMade free rootdir entry bit uid gid i node := by
  have nodesOf : ∀ node : ℕ → Node, (∀ i < entry.count.toNat,
      mknod free [] (entry.round (concatPathFile rootdir entry.name) i).1 (entry.mode ||| bit) uid
        gid (entry.round (concatPathFile rootdir entry.name) i).2 = some (node i)) →
      makeNodes free rootdir entry uid gid = (List.range entry.count.toNat).map node := by
    intro node makes
    rw [makeNodes_eq accepted isNode positive, ← List.filterMap_eq_map]
    exact List.filterMap_congr fun i member => makes i (List.mem_range.mp member)
  have nonempty : Nonempty Node := ⟨⟨[], 0, 0, 0, 0⟩⟩
  constructor
  · intro isRange
    have lengths := congrArg List.length isRange.paths
    rw [List.length_map, List.length_map, makeNodes_eq accepted isNode positive,
      List.filterMap_length_eq_length] at lengths
    have made := fun i inside => Option.isSome_iff_exists.mp
      (lengths i (List.mem_range.mpr inside))
    choose! node makes using made
    have nodes := nodesOf node makes
    intro i inside
    refine ⟨node i, makes i inside, isRange.numbers i (node i) ?_⟩
    rw [nodes, List.getElem?_map, List.getElem?_range inside]
    rfl
  · intro made
    choose! node makes using made
    have nodes := nodesOf node fun i inside => (makes i inside).1
    have paths : (makeNodes free rootdir entry uid gid).map Node.path =
        (List.range entry.count.toNat).map fun i =>
          concatPathFile rootdir entry.name ++ decimal (entry.start.toNat + i) := by
      rw [nodes, List.map_map]
      refine List.map_congr_left fun i member => ?_
      have inside := List.mem_range.mp member
      exact (path_of_mknod (makes i inside).1).trans (round_fst accepted _ inside)
    refine ⟨paths, fun i inside => ?_, paths ▸ nodup_names _ _ _, fun i node found => ?_⟩
    · obtain ⟨_, _, start, count⟩ := fields_lt accepted
      have digits := @length_decimal_le (entry.start.toNat + i) (by omega)
      rw [round_fst accepted _ inside, List.length_append, allocated]
      omega
    · rw [nodes, List.getElem?_map] at found
      obtain ⟨j, isIndex, rfl⟩ := Option.map_eq_some_iff.mp found
      have inside : i < entry.count.toNat := by
        have bound := (List.getElem?_eq_some_iff.mp isIndex).1
        rwa [List.length_range] at bound
      rw [List.getElem?_range inside] at isIndex
      cases isIndex
      exact (makes i inside).2

/-- A round for a device. -/
theorem roundMade_device_iff (isType : entry.type = 'c' ∨ entry.type = 'b')
    (isBit : typeBit entry.type = some bit) (i : ℕ) :
    (∃ node, RoundMade free rootdir entry bit uid gid i node) ↔
      free (entry.round (concatPathFile rootdir entry.name) i).1 = true ∧
        fileType entry.mode &&& 9 = 0 ∧ entry.major.toNat < 2 ^ 12 ∧
        (entry.minor + BitVec.ofNat 32 i * entry.increment).toNat < 2 ^ 20 ∧
        (entry.minor + BitVec.ofNat 32 i * entry.increment).toNat =
          entry.minor.toNat + i * entry.increment.toNat := by
  obtain ⟨isDevice, noOther⟩ := fileType_device entry.mode isType isBit
  constructor
  · rintro ⟨node, makes, major, minor⟩
    obtain ⟨wide, isFree, ⟨device, rfl⟩ | ⟨other, -⟩⟩ := mknod_eq_some_iff.mp makes
    · obtain ⟨majorFits, minorFits⟩ := (fits_makedev_iff _ _).mp wide
      refine ⟨isFree, isDevice.mp device, majorFits, minorFits, ?_⟩
      rw [← minor]
      exact (numbers_of_fits majorFits minorFits).2.symm
    · exact absurd other noOther
  · rintro ⟨isFree, mode, majorFits, minorFits, minor⟩
    refine ⟨_, mknod_eq_some_iff.mpr ⟨(fits_makedev_iff _ _).mpr ⟨majorFits, minorFits⟩, isFree,
      Or.inl ⟨isDevice.mpr mode, rfl⟩⟩, ?_⟩
    rw [← minor]
    exact numbers_of_fits majorFits minorFits

/-- A node without a device number. -/
theorem numbers_of_noDevice {node : Node} (noDevice : node.device = 0) :
    node.major = 0 ∧ node.minor = 0 := by
  rw [Node.major, Node.minor, noDevice]
  decide

/-- A round for a FIFO, which has the numbers 0. -/
theorem roundMade_fifo_iff (i : ℕ) :
    (∃ node, RoundMade free rootdir entry 0o010000 uid gid i node) ↔
      free (entry.round (concatPathFile rootdir entry.name) i).1 = true ∧
        fileType entry.mode &&& 14 = 0 ∧ entry.major = 0 ∧ entry.minor = 0 ∧
        i * entry.increment.toNat = 0 := by
  obtain ⟨noDevice, isFifo⟩ := fileType_fifo entry.mode
  constructor
  · rintro ⟨node, makes, major, minor⟩
    obtain ⟨-, isFree, ⟨device, -⟩ | ⟨fifo, rfl⟩⟩ := mknod_eq_some_iff.mp makes
    · exact absurd device noDevice
    · obtain ⟨noMajor, noMinor⟩ := @numbers_of_noDevice ⟨_, _, 0, uid, gid⟩ rfl
      have isZero := Nat.add_eq_zero_iff.mp (minor.symm.trans noMinor)
      exact ⟨isFree, isFifo.mp fifo, BitVec.eq_of_toNat_eq (major.symm.trans noMajor),
        BitVec.eq_of_toNat_eq isZero.1, isZero.2⟩
  · rintro ⟨isFree, mode, major, minor, increment⟩
    have noNumber : BitVec.ofNat 32 i * entry.increment = 0 := by
      rcases Nat.mul_eq_zero.mp increment with rfl | none
      · exact BitVec.zero_mul
      · rw [show entry.increment = 0 from BitVec.eq_of_toNat_eq none]
        exact BitVec.mul_zero
    have device : (entry.round (concatPathFile rootdir entry.name) i).2 = 0 := by
      have zero : makedev 0 (0 + 0) = 0 := by decide
      rw [Entry.round, noNumber, major, minor]
      exact zero
    obtain ⟨noMajor, noMinor⟩ := @numbers_of_noDevice
      ⟨(entry.round (concatPathFile rootdir entry.name) i).1,
        (entry.mode ||| 0o010000) &&& 0xffff, 0, uid, gid⟩ rfl
    refine ⟨_, mknod_eq_some_iff.mpr ⟨by rw [device]; rfl, isFree,
      Or.inr ⟨isFifo.mpr mode, rfl⟩⟩, ?_, ?_⟩
    · rw [noMajor, major]
      rfl
    · rw [noMinor, minor, increment]
      rfl

/-- The device numbers of a range fit when those of all rounds do. -/
theorem devicesFit_iff (positive : entry.count ≠ 0) :
    DevicesFit entry ↔ ∀ i < entry.count.toNat, entry.major.toNat < 2 ^ 12 ∧
      (entry.minor + BitVec.ofNat 32 i * entry.increment).toNat < 2 ^ 20 ∧
      (entry.minor + BitVec.ofNat 32 i * entry.increment).toNat =
        entry.minor.toNat + i * entry.increment.toNat := by
  constructor
  · intro devices i inside
    obtain ⟨minor, small⟩ := toNat_minor devices inside
    exact ⟨devices.1, minor ▸ small, minor⟩
  · intro each
    have some : 0 < entry.count.toNat :=
      Nat.pos_of_ne_zero fun zero => positive (BitVec.eq_of_toNat_eq zero)
    obtain ⟨major, minor, same⟩ := each (entry.count.toNat - 1) (Nat.sub_lt some Nat.one_pos)
    exact ⟨major, same ▸ minor⟩

/-- Whether the rounds make their nodes. -/
theorem each_iff (accepted : entry.tooLarge = false) (isNode : typeBit entry.type = some bit)
    (positive : entry.count ≠ 0) :
    (∀ i < entry.count.toNat, ∃ node, RoundMade free rootdir entry bit uid gid i node) ↔
      NamesFree free rootdir entry ∧ TypeFits entry := by
  have some : 0 < entry.count.toNat :=
    Nat.pos_of_ne_zero fun zero => positive (BitVec.eq_of_toNat_eq zero)
  have names : NamesFree free rootdir entry ↔ ∀ i < entry.count.toNat,
      free (entry.round (concatPathFile rootdir entry.name) i).1 = true :=
    forall₂_congr fun i inside => by rw [round_fst accepted _ inside]
  have types : entry.type = 'c' ∨ entry.type = 'b' ∨ entry.type = 'p' := by
    rw [typeBit.eq_def] at isNode
    split at isNode
    · exact Or.inr (Or.inr ‹_›)
    · exact Or.inl ‹_›
    · exact Or.inr (Or.inl ‹_›)
    · cases isNode
  rw [names]
  by_cases isType : entry.type = 'c' ∨ entry.type = 'b'
  · have noFifo : entry.type ≠ 'p' := by
      rcases isType with same | same <;> rw [same] <;> decide
    rw [TypeFits, or_iff_left fun fifo => noFifo fifo.1, devicesFit_iff positive]
    simp only [roundMade_device_iff isType isNode]
    constructor
    · exact fun each => ⟨fun i inside => (each i inside).1, isType, (each 0 some).2.1,
        fun i inside => (each i inside).2.2⟩
    · exact fun ⟨isFree, _, mode, devices⟩ i inside =>
        ⟨isFree i inside, mode, devices i inside⟩
  · have fifo : entry.type = 'p' := by tauto
    rw [fifo] at isNode
    cases isNode
    rw [TypeFits, or_iff_right fun device => isType device.1]
    simp only [roundMade_fifo_iff]
    constructor
    · intro each
      obtain ⟨-, mode, major, minor, -⟩ := each 0 some
      have last := (each (entry.count.toNat - 1) (Nat.sub_lt some Nat.one_pos)).2.2.2.2
      refine ⟨fun i inside => (each i inside).1, fifo, mode, major, minor, ?_⟩
      rcases Nat.mul_eq_zero.mp last with single | none
      · exact Or.inl (BitVec.eq_of_toNat_eq (by rw [show (1 : Unsigned).toNat = 1 from rfl]; omega))
      · exact Or.inr (BitVec.eq_of_toNat_eq none)
    · rintro ⟨isFree, -, mode, major, minor, single | none⟩ i inside
      · refine ⟨isFree i inside, mode, major, minor, ?_⟩
        rw [single, show (1 : Unsigned).toNat = 1 from rfl, Nat.lt_one_iff] at inside
        rw [inside, Nat.zero_mul]
      · refine ⟨isFree i inside, mode, major, minor, ?_⟩
        rw [none]
        exact Nat.mul_zero i

end Range

/-- For a line with a count the nodes that are made are those of the range if and only if the names
are free, and the type, the mode and the numbers go together. -/
theorem makeNodes_isRange_iff {accounts : Accounts} {user group : Text} {linenum : ℕ} {line : Text}
    {entry : Entry} {uid gid : Unsigned}
    (accepted : readLine accounts user group linenum line = .entry entry uid gid)
    (positive : entry.count ≠ 0) (free : Text → Bool) (rootdir : Text) :
    IsRange rootdir entry (makeNodes free rootdir entry uid gid) ↔
      NamesFree free rootdir entry ∧ TypeFits entry := by
  have fits := tooLarge_of_readLine accepted
  cases isNode : typeBit entry.type with
  | some bit => rw [isRange_iff_each fits isNode positive, each_iff fits isNode positive]
  | none =>
    -- without a node there is no range
    refine iff_of_false (fun isRange => ?_) ?_
    · have paths := congrArg List.length isRange.paths
      rw [makeNodes, isNode, List.length_map, List.length_map, List.length_range] at paths
      exact absurd (BitVec.eq_of_toNat_eq paths.symm) positive
    · rintro ⟨-, ⟨isC | isB, -⟩ | ⟨isP, -⟩⟩
      · rw [isC] at isNode
        cases isNode
      · rw [isB] at isNode
        cases isNode
      · rw [isP] at isNode
        cases isNode

/-- A system without accounts. -/
def noAccounts : Accounts := ⟨fun _ => none, fun _ => none, 0, 0⟩

def ttyLine : Text := "/dev/tty c 666 0 5 4 0 0 1 8".toList

def ttyEntry : Entry := ⟨"/dev/tty".toList, 'c', 0o666, "0".toList, "5".toList, 4, 0, 0, 1, 8⟩

theorem readLine_ttyLine : readLine noAccounts [] [] 1 ttyLine = .entry ttyEntry 0 5 := by
  decide

/-- A file system where every name can be made. -/
def allFree : Text → Bool := fun _ => true

theorem makeNodes_isRange_tty :
    IsRange "target".toList ttyEntry (makeNodes allFree "target".toList ttyEntry 0 5) :=
  (makeNodes_isRange_iff readLine_ttyLine (by decide) allFree "target".toList).mpr
    ⟨fun _ _ => rfl, by decide⟩

/-- A mode with the bit of a regular file is that of a link, for which there is no `mknod`. -/
example : makeNodes allFree "target".toList
    ⟨"/dev/tty".toList, 'c', 0o100666, "0".toList, "5".toList, 4, 0, 0, 1, 8⟩ 0 5 = [] := by
  decide

/-- A range whose second minor number has more than 20 bits. -/
def wideLine : Text := "/dev/x c 666 0 0 4 1048575 0 1 2".toList

def wideEntry : Entry :=
  ⟨"/dev/x".toList, 'c', 0o666, "0".toList, "0".toList, 4, 1048575, 0, 1, 2⟩

/-- The second node of the range is not made. -/
theorem makeNodes_wide :
    readLine noAccounts [] [] 1 wideLine = .entry wideEntry 0 0 ∧
      (makeNodes allFree "target".toList wideEntry 0 0).map Node.path =
        ["target/dev/x0".toList] ∧
      ¬IsRange "target".toList wideEntry (makeNodes allFree "target".toList wideEntry 0 0) := by
  have one : (makeNodes allFree "target".toList wideEntry 0 0).map Node.path =
      ["target/dev/x0".toList] := by
    decide
  refine ⟨by decide, one, fun isRange => ?_⟩
  have paths := congrArg List.length isRange.paths
  rw [one] at paths
  cases paths

end Buildroot4G.Makedevs
