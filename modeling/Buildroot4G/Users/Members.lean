/-
This file decides which memberships a completed run loses. `add_one_group` enters a
group again with an empty list of members, and only the users that the run adds to it
come back into it. A run keeps the members that no line of the table names exactly when
every group that it enters again had no such member, but for those that it adds: with a
backslash a line can add a user whose name does not stand in it.
-/

import Buildroot4G.Users.Steps

namespace Buildroot4G.Users

open Shell Fold

def membersOf (line : Line) : List Text := listed (line.field 4)

/-- The group has the member in the file. -/
def IsMember (member group : Text) (file : File) : Prop :=
  ∃ line ∈ file, line.field 1 = group ∧ member ∈ membersOf line

instance (member group : Text) (file : File) : Decidable (IsMember member group file) :=
  inferInstanceAs (Decidable (∃ line ∈ file, _))

/-- Some line of the table has the user. -/
def IsNamed (table username : Text) : Prop := ∃ line ∈ allLines table, usernameOf line = username

instance (table username : Text) : Decidable (IsNamed table username) :=
  inferInstanceAs (Decidable (∃ line ∈ allLines table, _))

/-- A member of a group whom the table does not name stays one. -/
def KeepsMembers (table : Text) (before after : File) : Prop :=
  ∀ line ∈ before, ∀ member ∈ membersOf line, ¬IsNamed table member →
    IsMember member (line.field 1) after

instance (table : Text) (before after : File) : Decidable (KeepsMembers table before after) :=
  inferInstanceAs (Decidable (∀ line ∈ before, ∀ member ∈ membersOf line, _ → _))

section Run

variable {tools : Tools} {entries : List Entry} {first last : Target}

/-! ### The groups -/

/-- A group that is entered again loses its members, and no other one does. -/
theorem isMember_groupAdded {group : Text}
    (writes : WritesLine (deleteGroup tools group) group first.group) (gid : Int)
    (forms : ∀ line ∈ first.group, GroupForm line) (member name : Text) :
    IsMember member name (groupAdded tools group gid first).group ↔
      name ≠ group ∧ IsMember member name first.group := by
  have kept : ∀ line, line ∈ (groupAdded tools group gid first).group ↔
      (line ∈ first.group ∧ line.field 1 ≠ group) ∨ line = groupLine group gid := by
    intro line
    rw [groupAdded, writes.mem_append]
    refine or_congr_left (and_congr_right fun inside => ?_)
    rw [(forms line inside).headed, decide_eq_false_iff_not]
  constructor
  · rintro ⟨line, inside, rfl, isMember⟩
    rcases (kept line).mp inside with ⟨old, different⟩ | rfl
    · exact ⟨different, line, old, rfl, isMember⟩
    · rw [membersOf, groupLine_eq writes.field.noColon] at isMember
      cases isMember
  · rintro ⟨different, line, old, rfl, isMember⟩
    exact ⟨line, (kept line).mpr (Or.inl ⟨old, different⟩), rfl, isMember⟩

/-- The file has a line of the group. -/
def HasGroup (group : Text) (file : File) : Prop := ∃ line ∈ file, line.field 1 = group

theorem hasGroup_groupAdded {group : Text}
    (writes : WritesLine (deleteGroup tools group) group first.group) (gid : Int)
    (forms : ∀ line ∈ first.group, GroupForm line) {name : Text}
    (has : name = group ∨ HasGroup name first.group) :
    HasGroup name (groupAdded tools group gid first).group := by
  have isHead : Line.field 1 (groupLine group gid) = group := by
    rw [groupLine_eq writes.field.noColon]
    rfl
  by_cases same : name = group
  · exact ⟨_, writes.mem_append.mpr (Or.inr rfl), isHead.trans same.symm⟩
  · obtain ⟨line, inside, isName⟩ := has.resolve_left same
    refine ⟨line, writes.mem_append.mpr (Or.inl ⟨inside, ?_⟩), isName⟩
    rw [(forms line inside).headed, isName, decide_eq_false same]

theorem forms_groupAdded {group : Text}
    (writes : WritesLine (deleteGroup tools group) group first.group) (gid : Int)
    (forms : ∀ line ∈ first.group, GroupForm line) :
    ∀ line ∈ (groupAdded tools group gid first).group, GroupForm line :=
  writes.forall_mem_append forms
    (groupForm_groupLine writes.field.noColon writes.field.noComma gid)

theorem isMember_addGroups {groups : List (Text × Text)}
    (every : EveryStep (fun target group => addOneGroup tools group.1 group.2 target)
      (fun group target => WritesLine (deleteGroup tools group.1) group.1 target.group) groups
      first)
    (forms : ∀ line ∈ first.group, GroupForm line)
    (completes : addGroups tools groups first = .ok last) :
    (∀ line ∈ last.group, GroupForm line) ∧
      (∀ name ∈ groups.map Prod.fst, HasGroup name last.group) ∧
      ∀ member name, IsMember member name last.group ↔
        name ∉ groups.map Prod.fst ∧ IsMember member name first.group := by
  refine relation_of_everyStep (fun done target => (∀ line ∈ target.group, GroupForm line) ∧
    (∀ name ∈ done.map Prod.fst, HasGroup name target.group) ∧
    ∀ member name, IsMember member name target.group ↔
      name ∉ done.map Prod.fst ∧ IsMember member name first.group) every completes ?_ ?_
  · exact ⟨forms, nofun, fun member name => by simp⟩
  · rintro done group before after writes ⟨forms, present, members⟩ step
    obtain ⟨id, _, rfl⟩ := addOneGroup_eq_ok.mp step
    refine ⟨forms_groupAdded writes id forms, fun name entered => ?_, fun member name => ?_⟩
    · rw [List.map_append, List.map_singleton, List.mem_append, List.mem_singleton] at entered
      exact hasGroup_groupAdded writes id forms (entered.symm.imp_right (present name))
    · rw [isMember_groupAdded writes id forms, members, List.map_append, List.map_singleton,
        List.mem_append, List.mem_singleton, not_or, and_left_comm, and_assoc]

/-! ### The users -/

/-- Adding users to lists changes no name and no other membership. -/
theorem mem_membersOf_editLine {line : Line} (form : GroupForm line) {edits : List (Text × Text)}
    (fields : ∀ edit ∈ edits, IsField edit.1) (member : Text) :
    member ∈ membersOf (editLine edits line) ↔
      member ∈ membersOf line ∨ ∃ edit ∈ edits, edit.1 = member ∧ line.field 1 = edit.2 := by
  induction edits generalizing line with
  | nil => simp [editLine]
  | cons edit rest inductionHypothesis =>
    obtain ⟨field, restFields⟩ := List.forall_mem_cons.mp fields
    have added : member ∈ membersOf (addMemberLine edit.1 edit.2 line) ↔
        member ∈ membersOf line ∨ member = edit.1 ∧ line.field 1 = edit.2 := by
      obtain ⟨name, password, gid, members, nameForm, passwordForm, gidForm⟩ := form
      rw [addMemberLine_eq nameForm passwordForm gidForm]
      refine (mem_listed_addMemberField field.noComma field.named _ _).trans ?_
      rw [decide_eq_true_iff]
      rfl
    obtain ⟨nextForm, same⟩ := form.addMemberLine edit.1 edit.2
    change member ∈ membersOf (editLine rest (addMemberLine edit.1 edit.2 line)) ↔ _
    rw [inductionHypothesis nextForm restFields, added,
      Line.field_eq_of_take same (n := 1) (by decide), or_assoc, List.exists_mem_cons_iff,
      eq_comm (a := member)]

theorem hasGroup_addMembers {entry : Entry} {file : File} (joins : JoinsGroups tools entry file)
    (forms : ∀ line ∈ file, GroupForm line) (name : Text) :
    HasGroup name (addMembers tools entry file) ↔ HasGroup name file := by
  have same : ∀ line ∈ file, ∀ edits, (editLine edits line).field 1 = line.field 1 :=
    fun line inside edits =>
      Line.field_eq_of_take ((forms line inside).editLine edits).2 (by decide)
  rw [joins.joins]
  constructor
  · rintro ⟨_, inside, isName⟩
    obtain ⟨line, old, rfl⟩ := File.mem_map.mp inside
    exact ⟨line, old, (same line old _).symm.trans isName⟩
  · rintro ⟨line, old, isName⟩
    exact ⟨_, File.mem_map.mpr ⟨line, old, rfl⟩, (same line old _).trans isName⟩

/-- Adding a user to its groups makes it a member of those that the file has. -/
theorem isMember_addMembers {entry : Entry} {file : File} (joins : JoinsGroups tools entry file)
    (forms : ∀ line ∈ file, GroupForm line) (member name : Text) :
    IsMember member name (addMembers tools entry file) ↔
      IsMember member name file ∨
        member = entry.username ∧ name ∈ extraGroups tools entry ∧ HasGroup name file := by
  have edits : memberEdits tools [entry] =
      (extraGroups tools entry).map fun group => (entry.username, group) :=
    List.flatMap_singleton _ _
  have change : ∀ line ∈ file,
      (editLine (memberEdits tools [entry]) line).field 1 = line.field 1 ∧
        (member ∈ membersOf (editLine (memberEdits tools [entry]) line) ↔
          member ∈ membersOf line ∨
            member = entry.username ∧ line.field 1 ∈ extraGroups tools entry) := by
    intro line inside
    refine ⟨Line.field_eq_of_take ((forms line inside).editLine _).2 (by decide), ?_⟩
    rw [edits, mem_membersOf_editLine (forms line inside)]
    · simp [eq_comm, and_comm]
    · intro edit isEdit
      obtain ⟨group, _, rfl⟩ := List.mem_map.mp isEdit
      exact joins.field
  rw [joins.joins]
  constructor
  · rintro ⟨_, inside, rfl, isMember⟩
    obtain ⟨line, old, rfl⟩ := File.mem_map.mp inside
    obtain ⟨field, members⟩ := change line old
    rw [field]
    rcases members.mp isMember with before | ⟨isUser, isGroup⟩
    · exact Or.inl ⟨line, old, rfl, before⟩
    · exact Or.inr ⟨isUser, isGroup, line, old, rfl⟩
  · rintro (⟨line, old, rfl, isMember⟩ | ⟨isUser, isGroup, line, old, rfl⟩)
    · obtain ⟨field, members⟩ := change line old
      exact ⟨_, File.mem_map.mpr ⟨line, old, rfl⟩, field, members.mpr (Or.inl isMember)⟩
    · obtain ⟨field, members⟩ := change line old
      exact ⟨_, File.mem_map.mpr ⟨line, old, rfl⟩, field,
        members.mpr (Or.inr ⟨isUser, isGroup⟩)⟩

/-- The users of a run are members of the groups of their entries, and nobody else comes or
goes. -/
theorem isMember_addUsers
    (every : EveryStep (fun target entry => addOneUser tools entry target)
      (fun entry target => JoinsGroups tools entry target.group) entries first)
    (forms : ∀ line ∈ first.group, GroupForm line)
    (completes : addUsers tools entries first = .ok last) (member : Text) {name : Text}
    (has : HasGroup name first.group) :
    IsMember member name last.group ↔ IsMember member name first.group ∨
      ∃ entry ∈ entries, entry.username = member ∧ name ∈ extraGroups tools entry := by
  have run : (∀ line ∈ last.group, GroupForm line) ∧ HasGroup name last.group ∧
      (IsMember member name last.group ↔ IsMember member name first.group ∨
        ∃ entry ∈ entries, entry.username = member ∧ name ∈ extraGroups tools entry) := by
    refine relation_of_everyStep (fun done target => (∀ line ∈ target.group, GroupForm line) ∧
      HasGroup name target.group ∧
      (IsMember member name target.group ↔ IsMember member name first.group ∨
        ∃ entry ∈ done, entry.username = member ∧ name ∈ extraGroups tools entry)) every
      completes ?_ ?_
    · exact ⟨forms, has, by simp⟩
    · rintro done entry before after joins ⟨forms, beforeHas, members⟩ step
      obtain ⟨found, _, rfl⟩ := addOneUser_eq_ok.mp step
      refine ⟨joins.forall_mem forms, (hasGroup_addMembers joins forms name).mpr beforeHas,
        (isMember_addMembers joins forms member name).trans ?_⟩
      rw [members, or_assoc, and_iff_left beforeHas]
      simp [or_and_right, exists_or, eq_comm]
  exact run.2.2

end Run

/-! ### Completed runs -/

/-- The run adds the user to the group, as an additional one. -/
def IsAddedTo (tools : Tools) (entries : List Entry) (username group : Text) : Prop :=
  ∃ entry ∈ explicitUsers entries ++ automaticUsers entries,
    entry.username = username ∧ group ∈ extraGroups tools entry

instance (tools : Tools) (entries : List Entry) (username group : Text) :
    Decidable (IsAddedTo tools entries username group) :=
  inferInstanceAs (Decidable (∃ entry ∈ explicitUsers entries ++ automaticUsers entries, _ ∧ _))

end Buildroot4G.Users
