/-
This file follows the arrays for the user and the group through the lines of a device table of
`package/makedevs/makedevs.c`. They are not cleared between the lines, and `sscanf` writes to them
only as far as it gets in a line. The main result says which lines have an owner that does
not depend on the lines before.
-/

import Buildroot4G.Progs.Makedevs

namespace Buildroot4G.Makedevs

open Shell

/-! ### What `sscanf` reads -/

/-- The columns of a line. -/
def columns (line : Text) : List Text := (line.splitOnP isSpace).filter fun word => !word.isEmpty

/-- How many columns `sscanf` reads behind the type. -/
def restCount (text : Text) : ℕ :=
  match strtoul 8 isOctal text with
  | none => 0
  | some (_, text) =>
    match scanWord 40 text with
    | none => 1
    | some (_, text) =>
      match scanWord 40 text with
      | none => 2
      | some (_, text) => 3 + (scanNumbers 5 text).length

/-- What `sscanf` returns: how many columns it reads. -/
def scanCount (line : Text) : ℕ :=
  match scanWord 4095 line with
  | none => 0
  | some (_, text) =>
    match scanChar text with
    | none => 1
    | some (_, text) => 2 + restCount text

/-- The arrays for the user and the group. -/
structure Buffers where
  user : Text
  group : Text
  deriving DecidableEq

/-- The arrays are what `sscanf` leaves them. -/
def Buffers.scan (buffers : Buffers) (line : Text) : Buffers :=
  match scanLine buffers.user buffers.group line with
  | none => buffers
  | some entry => ⟨entry.user, entry.group⟩

/-- The loop over some lines, which none of them may end: the number of the next line, and the
arrays. -/
def Buffers.scanLines (accounts : Accounts) : ℕ → Buffers → List Text → Option (ℕ × Buffers)
  | linenum, buffers, [] => some (linenum, buffers)
  | linenum, buffers, line :: rest =>
    match readLine accounts buffers.user buffers.group linenum line with
    | .dies _ => none
    | _ => scanLines accounts (linenum + 1) (buffers.scan line) rest

/-- The owner and the group of a line. -/
def Line.ids : Line → Option (Unsigned × Unsigned)
  | .entry _ uid gid => some (uid, gid)
  | _ => none

/-- An entry with what the arrays hold for the columns that are not read. -/
def Entry.filled (entry : Entry) (buffers : Buffers) (count : ℕ) : Entry :=
  { entry with
    user := if 4 ≤ count then entry.user else buffers.user
    group := if 5 ≤ count then entry.group else buffers.group }

@[simp] theorem Entry.filled_name (entry : Entry) (buffers : Buffers) (count : ℕ) :
    (entry.filled buffers count).name = entry.name := rfl

theorem Entry.filled_of_le {count : ℕ} (read : 5 ≤ count) (entry : Entry) (buffers : Buffers) :
    entry.filled buffers count = entry := by
  rw [filled, if_pos (Nat.le_of_succ_le read), if_pos read]

section Scan

variable {line : Text}

theorem scanWord_ne_nil {width : ℕ} {text word rest : Text}
    (reads : scanWord width text = some (word, rest)) : word ≠ [] := by
  rw [scanWord] at reads
  split at reads
  · cases reads
  · next nonempty =>
    cases reads
    exact nonempty

theorem scanRest_filled (entry : Entry) (buffers : Buffers) (text : Text) :
    scanRest (entry.filled buffers 0) text =
      (scanRest (entry.filled ⟨[], []⟩ 0) text).filled buffers (2 + restCount text) := by
  rw [scanRest, scanRest, restCount]
  cases strtoul 8 isOctal text with
  | none => rfl
  | some mode =>
    obtain ⟨mode, text⟩ := mode
    cases user : scanWord 40 text with
    | none => simp only [user]; rfl
    | some user' =>
      obtain ⟨user', text⟩ := user'
      cases group : scanWord 40 text with
      | none => simp only [user, group]; rfl
      | some group' =>
        obtain ⟨group', text⟩ := group'
        simp only [user, group]
        exact (Entry.filled_of_le (by omega) _ _).symm

/-- What `sscanf` reads depends on the arrays only where it does not get to a column. -/
theorem scanLine_eq (buffers : Buffers) (line : Text) :
    scanLine buffers.user buffers.group line =
      (scanLine [] [] line).map fun entry => entry.filled buffers (scanCount line) := by
  rw [scanLine, scanLine, scanCount]
  cases found : scanWord 4095 line with
  | none => rfl
  | some word =>
    obtain ⟨name, text⟩ := word
    cases type : scanChar text with
    | none => simp only [type]; rfl
    | some type' =>
      obtain ⟨type', text⟩ := type'
      simp only [type, Option.map_some]
      let entry : Entry := ⟨name, type', 0o755, [], [], 0, 0, 0, 0, 0⟩
      exact congrArg some (scanRest_filled entry buffers text)

/-- The columns that are read are not empty. -/
theorem ne_nil_of_scanLine {entry : Entry} (reads : scanLine [] [] line = some entry) :
    (4 ≤ scanCount line → entry.user ≠ []) ∧ (5 ≤ scanCount line → entry.group ≠ []) := by
  rw [scanLine] at reads
  rw [scanCount]
  cases found : scanWord 4095 line with
  | none =>
    rw [found] at reads
    cases reads
  | some name =>
    obtain ⟨name, text⟩ := name
    simp only [found] at reads ⊢
    cases type : scanChar text with
    | none =>
      rw [type] at reads
      cases reads
    | some type' =>
      obtain ⟨type', text⟩ := type'
      simp only [type] at reads ⊢
      obtain rfl := Option.some.inj reads
      rw [scanRest, restCount]
      cases strtoul 8 isOctal text with
      | none => exact ⟨fun few => absurd few (by simp), fun few => absurd few (by simp)⟩
      | some mode =>
        obtain ⟨mode, text⟩ := mode
        cases user : scanWord 40 text with
        | none =>
          simp only [user]
          exact ⟨fun few => absurd few (by simp), fun few => absurd few (by simp)⟩
        | some user' =>
          obtain ⟨user', text⟩ := user'
          simp only [user]
          cases group : scanWord 40 text with
          | none =>
            exact ⟨fun _ => scanWord_ne_nil user, fun few => absurd few (by simp)⟩
          | some group' =>
            obtain ⟨group', text⟩ := group'
            exact ⟨fun _ => scanWord_ne_nil user, fun _ => scanWord_ne_nil group⟩

end Scan

/-! ### The owner of an entry -/

/-- The id that a name stands for: the own one without a name. -/
def idOf (own : Unsigned) (find : Text → Option Unsigned) (name : Text) : Option Unsigned :=
  if name = [] then some own else getUgId find name

/-- The end of the check of a line: the ids of its owner and its group. -/
def owned (accounts : Accounts) (entry : Entry) : Line :=
  match idOf accounts.getgid accounts.findGroup entry.group with
  | none => .dies ("unknown group name: ".toList ++ entry.group)
  | some gid =>
    match idOf accounts.getuid accounts.findUser entry.user with
    | none => .dies ("unknown user name: ".toList ++ entry.user)
    | some uid => .entry entry uid gid

/-- A line that `sscanf` reads, with numbers in their range, and that is no comment. -/
def Accepted (line : Text) : Prop :=
  ∃ entry, scanLine [] [] line = some entry ∧ entry.tooLarge = false ∧ entry.name.head? ≠ some '#'

/-- Accounts that know every name, under one id each. -/
def fixedAccounts (user group getuid getgid : Unsigned) : Accounts :=
  ⟨fun _ => some user, fun _ => some group, getuid, getgid⟩

section Owned

variable {line : Text} {accounts : Accounts} {entry : Entry}

theorem readLine_eq_owned {user group : Text} (reads : scanLine user group line = some entry)
    (small : entry.tooLarge = false) (noComment : entry.name.head? ≠ some '#') (linenum : ℕ) :
    readLine accounts user group linenum line = owned accounts entry := by
  rw [readLine, reads]
  simp only [small, Bool.false_eq_true, if_false, if_neg noComment]
  rfl

/-- What a line gives that is accepted. -/
theorem readLine_of_accepted (reads : scanLine [] [] line = some entry)
    (small : entry.tooLarge = false) (noComment : entry.name.head? ≠ some '#') (buffers : Buffers)
    (linenum : ℕ) :
    readLine accounts buffers.user buffers.group linenum line =
      owned accounts (entry.filled buffers (scanCount line)) := by
  have readsNow : scanLine buffers.user buffers.group line =
      some (entry.filled buffers (scanCount line)) := by
    rw [scanLine_eq, reads]
    rfl
  exact readLine_eq_owned readsNow small noComment linenum

/-- A line that is not accepted gives no owner. -/
theorem ids_of_not_accepted (rejected : ¬ Accepted line) (buffers : Buffers) (linenum : ℕ) :
    (readLine accounts buffers.user buffers.group linenum line).ids = none := by
  rw [readLine]
  cases reads : scanLine buffers.user buffers.group line with
  | none =>
    simp only
    split <;> rfl
  | some filled =>
    rw [scanLine_eq] at reads
    obtain ⟨entry, readsFirst, rfl⟩ := Option.map_eq_some_iff.mp reads
    simp only
    by_cases large : (entry.filled buffers (scanCount line)).tooLarge = true
    · rw [if_pos large]
      split <;> rfl
    · rw [if_neg large]
      by_cases comment : entry.name.head? = some '#'
      · rw [Entry.filled_name, if_pos comment]
        rfl
      · exact absurd ⟨entry, readsFirst, Bool.eq_false_iff.mpr large, comment⟩ rejected

theorem idOf_isSome (own id : Unsigned) (name : Text) :
    ∃ found, idOf own (fun _ => some id) name = some found := by
  rw [idOf]
  split
  · exact ⟨own, rfl⟩
  · rw [getUgId]
    split
    · exact ⟨_, rfl⟩
    · exact ⟨id, rfl⟩

theorem owned_eq {uid gid : Unsigned}
    (isGroup : idOf accounts.getgid accounts.findGroup entry.group = some gid)
    (isUser : idOf accounts.getuid accounts.findUser entry.user = some uid) :
    owned accounts entry = .entry entry uid gid := by
  rw [owned, isGroup]
  simp only [isUser]

end Owned

/-! ### Lines that depend on no other -/

/-- A line gives the same owner and group behind any lines and with anything in the arrays, and
without a column for one of them, that of the process. -/
structure Independent (line : Text) : Prop where
  same : ∀ (accounts : Accounts) (first first' : Buffers) (before before' : List Text)
    (linenum linenum' : ℕ) (buffers buffers' : Buffers),
    first.scanLines accounts 1 before = some (linenum, buffers) →
    first'.scanLines accounts 1 before' = some (linenum', buffers') →
    (readLine accounts buffers.user buffers.group linenum line).ids =
      (readLine accounts buffers'.user buffers'.group linenum' line).ids
  noUser : (columns line).length < 4 → ∀ (accounts : Accounts) (first : Buffers)
    (before : List Text) (linenum : ℕ) (buffers : Buffers) (uid gid : Unsigned),
    first.scanLines accounts 1 before = some (linenum, buffers) →
    (readLine accounts buffers.user buffers.group linenum line).ids = some (uid, gid) →
    uid = accounts.getuid
  noGroup : (columns line).length < 5 → ∀ (accounts : Accounts) (first : Buffers)
    (before : List Text) (linenum : ℕ) (buffers : Buffers) (uid gid : Unsigned),
    first.scanLines accounts 1 before = some (linenum, buffers) →
    (readLine accounts buffers.user buffers.group linenum line).ids = some (uid, gid) →
    gid = accounts.getgid

section Independent

variable {line : Text} {entry : Entry}

/-- An independent line that is accepted is read up to the group. -/
theorem le_scanCount_of_independent (independent : Independent line)
    (reads : scanLine [] [] line = some entry) (small : entry.tooLarge = false)
    (noComment : entry.name.head? ≠ some '#') : 5 ≤ scanCount line := by
  by_contra few
  let accounts := fixedAccounts 0 0 0 0
  let user := if 4 ≤ scanCount line then entry.user else "1".toList
  have isUser : ∀ group, (entry.filled ⟨"1".toList, group⟩ (scanCount line)).user = user :=
    fun _ => rfl
  obtain ⟨uid, foundUser⟩ := idOf_isSome 0 0 user
  have owner : ∀ group gid, idOf 0 accounts.findGroup group = some gid →
      (readLine accounts "1".toList group 1 line).ids = some (uid, gid) := by
    intro group gid found
    have isGroup : (entry.filled ⟨"1".toList, group⟩ (scanCount line)).group = group := if_neg few
    rw [readLine_of_accepted reads small noComment ⟨"1".toList, group⟩ 1]
    have owns : owned accounts (entry.filled ⟨"1".toList, group⟩ (scanCount line)) =
        .entry _ uid gid :=
      owned_eq (by rw [isGroup]; exact found) (by rw [isUser]; exact foundUser)
    rw [owns]
    rfl
  have one := owner "1".toList 1 (by decide)
  have two := owner "2".toList 2 (by decide)
  have same := independent.same accounts ⟨"1".toList, "1".toList⟩ ⟨"1".toList, "2".toList⟩ [] [] 1 1
    _ _ rfl rfl
  rw [one, two] at same
  cases same

/-- An independent line that is accepted has the columns for the user and the group. -/
theorem le_columns_of_independent (independent : Independent line)
    (reads : scanLine [] [] line = some entry) (small : entry.tooLarge = false)
    (noComment : entry.name.head? ≠ some '#') (read : 5 ≤ scanCount line) :
    5 ≤ (columns line).length := by
  by_contra few
  obtain ⟨gid, foundGroup⟩ := idOf_isSome 0 0 entry.group
  obtain ⟨uid, foundUser⟩ := idOf_isSome 0 0 entry.user
  have nonempty := (ne_nil_of_scanLine reads).2 read
  -- accounts for which the process has another group
  let accounts := fixedAccounts 0 0 0 (gid + 1)
  have isGroup : idOf accounts.getgid accounts.findGroup entry.group = some gid := by
    rw [idOf, if_neg nonempty] at foundGroup ⊢
    exact foundGroup
  have owns : readLine accounts [] [] 1 line = .entry entry uid gid := by
    rw [readLine_of_accepted reads small noComment ⟨[], []⟩ 1, Entry.filled_of_le read]
    exact owned_eq isGroup foundUser
  have own := independent.noGroup (Nat.lt_of_not_le few) accounts ⟨[], []⟩ [] 1 ⟨[], []⟩ uid gid rfl
    (by rw [owns]; rfl)
  have different : gid ≠ gid + 1 := by
    intro same
    have numbers := congrArg BitVec.toNat same
    rw [BitVec.toNat_add] at numbers
    have small := gid.isLt
    simp at numbers
    omega
  exact different own

end Independent

/-- A line depends on no other line exactly when it is not accepted, or `sscanf` reads its columns
up to the group. -/
theorem independent_iff (line : Text) :
    Independent line ↔ (Accepted line → 5 ≤ scanCount line ∧ 5 ≤ (columns line).length) := by
  constructor
  · rintro independent ⟨entry, reads, small, noComment⟩
    have read := le_scanCount_of_independent independent reads small noComment
    exact ⟨read, le_columns_of_independent independent reads small noComment read⟩
  · intro complete
    by_cases accepted : Accepted line
    · obtain ⟨read, enough⟩ := complete accepted
      obtain ⟨entry, reads, small, noComment⟩ := accepted
      refine ⟨fun accounts _ _ _ _ _ _ buffers buffers' _ _ => ?_,
        fun few => absurd few (by omega), fun few => absurd few (by omega)⟩
      rw [readLine_of_accepted reads small noComment, readLine_of_accepted reads small noComment,
        Entry.filled_of_le read, Entry.filled_of_le read]
    · refine ⟨fun _ _ _ _ _ _ _ _ _ _ _ => ?_, fun _ _ _ _ _ _ uid gid _ ids => ?_,
        fun _ _ _ _ _ _ uid gid _ ids => ?_⟩
      · rw [ids_of_not_accepted accepted, ids_of_not_accepted accepted]
      · rw [ids_of_not_accepted accepted] at ids
        cases ids
      · rw [ids_of_not_accepted accepted] at ids
        cases ids

/-- A line without columns for the user and the group gets those of the line before it. -/
theorem readLine_leaks :
    (⟨[], []⟩ : Buffers).scanLines noAccounts 1 [ttyLine] =
        some (2, ⟨"0".toList, "5".toList⟩) ∧
      (readLine noAccounts [] [] 1 "/dev/pts d 755".toList).ids = some (0, 0) ∧
      (readLine noAccounts "0".toList "5".toList 2 "/dev/pts d 755".toList).ids = some (0, 5) ∧
      ¬ Independent "/dev/pts d 755".toList := by
  have leaks : (readLine noAccounts "0".toList "5".toList 2 "/dev/pts d 755".toList).ids =
      some (0, 5) := by decide
  have before : (⟨[], []⟩ : Buffers).scanLines noAccounts 1 [ttyLine] =
      some (2, ⟨"0".toList, "5".toList⟩) := by decide
  refine ⟨before, by decide, leaks, fun independent => ?_⟩
  have own := independent.noGroup (by decide) noAccounts ⟨[], []⟩ [ttyLine] 2 _ 0 5 before leaks
  exact absurd own (by decide)

end Buildroot4G.Makedevs
