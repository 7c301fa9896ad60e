/-
This file decides which users of the table a completed run leaves out. The passes
skip an entry whose uid `[` cannot read as an integer or that is below -1, the loop
that reads the table misses a last line without its newline, and a backslash at the
end of a line makes `read` take the next one with it. A run drops no user exactly when
the user of every line, as it stands in the table, was there before or has an entry
the passes do not skip.
-/

import Buildroot4G.Users.Steps

namespace Buildroot4G.Users

open Shell Fold

/-- The file has a line of the user. -/
def HasUser (username : Text) (passwd : File) : Prop :=
  ∃ line ∈ passwd, line.head? = some username

instance (username : Text) (passwd : File) : Decidable (HasUser username passwd) :=
  inferInstanceAs (Decidable (∃ line ∈ passwd, _))

/-- Every line of the table that names a user has its user in the file. -/
def KeepsUsers (table : Text) (passwd : File) : Prop :=
  ∀ line ∈ allLines table, usernameOf line ≠ "-".toList → HasUser (usernameOf line) passwd

instance (table : Text) (passwd : File) : Decidable (KeepsUsers table passwd) :=
  inferInstanceAs (Decidable (∀ line ∈ allLines table, _))

/-- An entry of the table that one of the passes over the users adds. -/
def IsAdded (table username : Text) : Prop :=
  ∃ entry ∈ tableEntries table, entry.username = username ∧
    (isExplicit entry.uid = true ∨ isAutomatic entry.uid = true)

/-! ### The names in the file -/

/-- A user that is entered again is in the file, and the others stay. -/
theorem hasUser_writes {delete : File → File} {name : Text} {passwd : File}
    (writes : WritesLine delete name passwd) {line : Line} (isHead : line.head? = some name)
    (username : Text) :
    HasUser username ((delete passwd).append line) ↔ HasUser username passwd ∨ name = username := by
  have stays : ∀ old ∈ passwd, old.head? = some username → name ≠ username →
      headed name old = false := by
    intro old _ isUser different
    rw [headed, isUser]
    simp [Ne.symm different]
  constructor
  · rintro ⟨old, inside, isUser⟩
    rcases writes.mem_append.mp inside with ⟨member, _⟩ | rfl
    · exact Or.inl ⟨old, member, isUser⟩
    · exact Or.inr (Option.some.inj (isHead.symm.trans isUser))
  · intro before
    by_cases same : name = username
    · exact ⟨line, writes.mem_append.mpr (Or.inr rfl), same ▸ isHead⟩
    · obtain ⟨old, member, isUser⟩ := before.resolve_right same
      exact ⟨old, writes.mem_append.mpr (Or.inl ⟨member, stays old member isUser same⟩), isUser⟩

section Run

variable {tools : Tools} {entries : List Entry} {first last : Target}

/-- The users in the file are those that were there and those that were added. -/
theorem hasUser_addUsers
    (every : EveryStep (fun target entry => addOneUser tools entry target)
      (fun entry target =>
        WritesLine (deleteUser tools entry.username) entry.username target.passwd) entries first)
    (completes : addUsers tools entries first = .ok last) (username : Text) :
    HasUser username last.passwd ↔
      HasUser username first.passwd ∨ ∃ entry ∈ entries, entry.username = username := by
  refine relation_of_everyStep (fun done target => HasUser username target.passwd ↔
    HasUser username first.passwd ∨ ∃ entry ∈ done, entry.username = username) every completes
    (by simp) ?_
  rintro done entry before after writes holds step
  obtain ⟨found, _, rfl⟩ := addOneUser_eq_ok.mp step
  have isHead : (passwdLine entry found.uid found.gid found.home).head? = some entry.username := by
    rw [passwdLine, record, List.flatMap_cons, List.splitOn_eq_singleton writes.field.noColon]
    rfl
  rw [userAdded, hasUser_writes writes isHead, holds, or_assoc]
  simp [or_and_right, exists_or]

/-- The users behind a completed run. -/
theorem hasUser_main {table : Text}
    (meets : RunMeets tools table (fun _ _ => True) (fun entry target =>
      WritesLine (deleteUser tools entry.username) entry.username target.passwd) first)
    (completes : main tools table first = .ok last) {username : Text}
    (named : username ≠ "-".toList) :
    HasUser username last.passwd ↔ HasUser username first.passwd ∨ IsAdded table username := by
  obtain ⟨_, middle, groups, users⟩ := main_eq_ok.mp completes
  have added : ∀ entry,
      entry ∈ explicitUsers (tableEntries table) ++ automaticUsers (tableEntries table) ↔
        entry ∈ tableEntries table ∧ createsUser entry = true ∧
          (isExplicit entry.uid = true ∨ isAutomatic entry.uid = true) := by
    intro entry
    rw [explicitUsers, automaticUsers, List.mem_append, List.mem_filter, List.mem_filter,
      Bool.and_eq_true_iff, Bool.and_eq_true_iff, ← and_or_left, ← and_or_left]
  rw [hasUser_addUsers (meets.users middle groups) users, passwd_addGroups groups]
  refine or_congr_right (exists_congr fun entry => ?_)
  rw [added entry]
  constructor
  · rintro ⟨⟨member, _, reads⟩, same⟩
    exact ⟨member, same, reads⟩
  · rintro ⟨member, same, reads⟩
    exact ⟨⟨member, decide_eq_true (same ▸ named), reads⟩, same⟩

end Run

end Buildroot4G.Users
