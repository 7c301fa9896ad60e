/-
This file has the conditions under which an addition of `mkusers` takes names as they
stand. A name is a part of the program that sed, awk or `[` gets, and what the tool makes
of a special character in it depends on the lines of the file. The conditions are
therefore about the files in front of each addition: sed deletes the lines of the name
and no others, the record is printed to a line of its own, awk finds the ids of the name,
and a user is added to the lists of its groups. They hold for names without special
characters, and for any other name as long as the expressions match no other line.
-/

import Buildroot4G.Users.Run

namespace Buildroot4G.Users

open Shell Fold

/-! ### One addition -/

/-- A name that is one field of a line and one member of a list. -/
structure IsField (name : Text) : Prop where
  named : name ≠ []
  separate : ∀ c ∈ [':', ',', '\n'], c ∉ name

/-- The lines of a name are deleted, and its record is printed to a line of its own. -/
structure WritesLine (delete : File → File) (name : Text) (file : File) : Prop where
  field : IsField name
  deleted : delete file = deleteLines name file
  ended : (deleteLines name file).ended = true

/-- awk finds the ids of a name. -/
def FindsIds (tools : Tools) (name : Text) (file : File) : Prop :=
  idsOf tools 3 name file = idsUnder (strnum name) 3 file

/-- A group is entered as it stands, with the gid that awk finds for it when it is automatic. -/
structure EntersGroup (tools : Tools) (group : Text × Text) (file : File) : Prop where
  writes : WritesLine (deleteGroup tools group.1) group.1 file
  finds : isAutomatic group.2 = true → FindsIds tools group.1 file

/-- A user is entered as it stands, with the uid that awk finds for it when it is automatic. -/
structure EntersUser (tools : Tools) (entry : Entry) (file : File) : Prop where
  writes : WritesLine (deleteUser tools entry.username) entry.username file
  finds : isAutomatic entry.uid = true → FindsIds tools entry.username file

/-- A user is added to the lists of its additional groups. -/
structure JoinsGroups (tools : Tools) (entry : Entry) (file : File) : Prop where
  field : IsField entry.username
  joins : addMembers tools entry file = file.map (editLine (memberEdits tools [entry]))

/-! ### A run -/

/-- Every addition of a run meets a condition on the files in front of it. -/
structure RunMeets (tools : Tools) (table : Text) (group : Text × Text → Target → Prop)
    (user : Entry → Target → Prop) (first : Target) : Prop where
  groups : EveryStep (fun target group => addOneGroup tools group.1 group.2 target) group
    (explicitGroups (tableEntries table) ++ automaticGroups tools (tableEntries table)) first
  users : ∀ middle, addGroups tools (explicitGroups (tableEntries table) ++
      automaticGroups tools (tableEntries table)) first = .ok middle →
    EveryStep (fun target entry => addOneUser tools entry target) user
      (explicitUsers (tableEntries table) ++ automaticUsers (tableEntries table)) middle

theorem RunMeets.mono {tools : Tools} {table : Text} {group group' : Text × Text → Target → Prop}
    {user user' : Entry → Target → Prop} {first : Target}
    (meets : RunMeets tools table group user first)
    (groups : ∀ item target, group item target → group' item target)
    (users : ∀ entry target, user entry target → user' entry target) :
    RunMeets tools table group' user' first :=
  ⟨meets.groups.mono groups, fun middle added => (meets.users middle added).mono users⟩

/-! ### Deciding the conditions -/

instance : DecidablePred IsField := fun name =>
  decidable_of_iff (name ≠ [] ∧ ∀ c ∈ [':', ',', '\n'], c ∉ name)
    ⟨fun ⟨named, separate⟩ => ⟨named, separate⟩, fun field => ⟨field.named, field.separate⟩⟩

instance (delete : File → File) (name : Text) (file : File) :
    Decidable (WritesLine delete name file) :=
  decidable_of_iff (IsField name ∧ delete file = deleteLines name file ∧
      (deleteLines name file).ended = true)
    ⟨fun ⟨field, deleted, ended⟩ => ⟨field, deleted, ended⟩,
      fun writes => ⟨writes.field, writes.deleted, writes.ended⟩⟩

instance (tools : Tools) (name : Text) (file : File) : Decidable (FindsIds tools name file) :=
  inferInstanceAs (Decidable (_ = _))

instance (tools : Tools) (group : Text × Text) (file : File) :
    Decidable (EntersGroup tools group file) :=
  decidable_of_iff (WritesLine (deleteGroup tools group.1) group.1 file ∧
      (isAutomatic group.2 = true → FindsIds tools group.1 file))
    ⟨fun ⟨writes, finds⟩ => ⟨writes, finds⟩, fun enters => ⟨enters.writes, enters.finds⟩⟩

instance (tools : Tools) (entry : Entry) (file : File) : Decidable (EntersUser tools entry file) :=
  decidable_of_iff (WritesLine (deleteUser tools entry.username) entry.username file ∧
      (isAutomatic entry.uid = true → FindsIds tools entry.username file))
    ⟨fun ⟨writes, finds⟩ => ⟨writes, finds⟩, fun enters => ⟨enters.writes, enters.finds⟩⟩

instance (tools : Tools) (entry : Entry) (file : File) :
    Decidable (JoinsGroups tools entry file) :=
  decidable_of_iff (IsField entry.username ∧
      addMembers tools entry file = file.map (editLine (memberEdits tools [entry])))
    ⟨fun ⟨field, joins⟩ => ⟨field, joins⟩, fun enters => ⟨enters.field, enters.joins⟩⟩

instance (tools : Tools) (table : Text) (group : Text × Text → Target → Prop)
    (user : Entry → Target → Prop) (first : Target)
    [∀ item target, Decidable (group item target)] [∀ item target, Decidable (user item target)] :
    Decidable (RunMeets tools table group user first) :=
  decidable_of_iff (EveryStep (fun target group => addOneGroup tools group.1 group.2 target) group
        (explicitGroups (tableEntries table) ++ automaticGroups tools (tableEntries table)) first ∧
      ∀ middle, addGroups tools (explicitGroups (tableEntries table) ++
          automaticGroups tools (tableEntries table)) first = .ok middle →
        EveryStep (fun target entry => addOneUser tools entry target) user
          (explicitUsers (tableEntries table) ++ automaticUsers (tableEntries table)) middle)
    ⟨fun ⟨groups, users⟩ => ⟨groups, users⟩, fun meets => ⟨meets.groups, meets.users⟩⟩

/-! ### What is written -/

theorem IsField.noColon {name : Text} (field : IsField name) : ':' ∉ name :=
  field.separate ':' (by decide)

theorem IsField.noComma {name : Text} (field : IsField name) : ',' ∉ name :=
  field.separate ',' (by decide)

theorem IsField.oneLine {name : Text} (field : IsField name) : '\n' ∉ name :=
  field.separate '\n' (by decide)

section Written

variable {delete : File → File} {name : Text} {file : File}

theorem WritesLine.append_eq (writes : WritesLine delete name file) (line : Line) :
    (delete file).append line = (deleteLines name file).append line := by
  rw [writes.deleted]

theorem WritesLine.mem_append (writes : WritesLine delete name file) {new line : Line} :
    line ∈ (delete file).append new ↔
      (line ∈ file ∧ headed name line = false) ∨ line = new := by
  rw [writes.append_eq, mem_deleteLines_append writes.ended]

theorem WritesLine.forall_mem_append {holds : Line → Prop} (writes : WritesLine delete name file)
    {new : Line} (old : ∀ line ∈ file, holds line) (isNew : holds new) :
    ∀ line ∈ (delete file).append new, holds line := by
  rw [writes.append_eq]
  exact forall_mem_deleteLines_append writes.ended old isNew

end Written

/-- Adding members keeps the form of the group file and everything in front of the lists. -/
theorem JoinsGroups.forall_mem {tools : Tools} {entry : Entry} {file : File}
    (joins : JoinsGroups tools entry file) (forms : ∀ line ∈ file, GroupForm line) :
    ∀ line ∈ addMembers tools entry file, GroupForm line := by
  intro line inside
  rw [joins.joins, File.mem_map] at inside
  obtain ⟨old, member, rfl⟩ := inside
  exact ((forms old member).editLine _).1

end Buildroot4G.Users
