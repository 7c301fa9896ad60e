/-
This file takes completed runs of `mkusers` apart. A run that completes first adds
the groups the table asks for, explicit gids before automatic ones, and then the
users in the same way; each addition that completes has one effect on the files,
which is stated once here.
-/

import Buildroot4G.Users.Lines
import Buildroot4G.Users.Mkusers

namespace Buildroot4G.Users

open Shell Fold

/-! ### What the table asks for -/

/-- The entries of a table. -/
def tableEntries (table : Text) : List Entry := (tableLines table).filterMap Entry.ofLine

/-- The groups of the explicit gids, with these gids. -/
def explicitGroups (entries : List Entry) : List (Text × Text) :=
  (entries.filter fun entry => isExplicit entry.gid).map fun entry => (entry.group, entry.gid)

/-- The groups whose gid is automatic. -/
def automaticGroups (tools : Tools) (entries : List Entry) : List (Text × Text) :=
  ((entries.filter fun entry => isAutomatic entry.gid).map fun entry =>
      (entry.group, entry.gid)) ++
    (entries.flatMap (extraGroups tools)).map fun group => (group, "-1".toList)

/-- The users with an explicit uid. -/
def explicitUsers (entries : List Entry) : List Entry :=
  entries.filter fun entry => createsUser entry && isExplicit entry.uid

/-- The users whose uid is automatic. -/
def automaticUsers (entries : List Entry) : List Entry :=
  entries.filter fun entry => createsUser entry && isAutomatic entry.uid

theorem mem_of_mem_users {entries : List Entry} {entry : Entry}
    (inside : entry ∈ explicitUsers entries ++ automaticUsers entries) : entry ∈ entries := by
  rw [explicitUsers, automaticUsers, List.mem_append] at inside
  exact inside.elim List.mem_of_mem_filter List.mem_of_mem_filter

/-- The groups a run enters again. -/
def enteredGroups (tools : Tools) (entries : List Entry) : List Text :=
  (explicitGroups entries ++ automaticGroups tools entries).map Prod.fst

def addGroups (tools : Tools) (groups : List (Text × Text)) (target : Target) : Outcome :=
  groups.foldlM (fun target group => addOneGroup tools group.1 group.2 target) target

def addUsers (tools : Tools) (entries : List Entry) (target : Target) : Outcome :=
  entries.foldlM (fun target entry => addOneUser tools entry target) target

/-! ### The passes -/

theorem forLines_eq_ok {body : Entry → Target → Outcome} {lines : List Text}
    {first last : Target} :
    forLines body lines first = .ok last ↔
      (∀ line ∈ lines, Entry.ofLine line ≠ none) ∧
        (lines.filterMap Entry.ofLine).foldlM (fun target entry => body entry target) first =
          .ok last := by
  induction lines generalizing first with
  | nil => exact ⟨fun done => ⟨nofun, done⟩, fun ⟨_, done⟩ => done⟩
  | cons line rest inductionHypothesis =>
    rw [forLines, List.forall_mem_cons]
    cases read : Entry.ofLine line with
    | none => exact iff_of_false nofun (fun ⟨⟨readable, _⟩, _⟩ => readable rfl)
    | some entry =>
      rw [List.filterMap_cons_some read, foldlM_cons_eq_ok]
      refine bind_eq_ok.trans ⟨fun ⟨next, step, later⟩ => ?_,
        fun ⟨⟨_, readable⟩, next, step, later⟩ =>
          ⟨next, step, inductionHypothesis.mpr ⟨readable, later⟩⟩⟩
      obtain ⟨readable, later⟩ := inductionHypothesis.mp later
      exact ⟨⟨nofun, readable⟩, next, step, later⟩

section Passes

variable {tools : Tools}

theorem explicitGroup_pass (entries : List Entry) (target : Target) :
    entries.foldlM (fun target entry => explicitGroup tools entry target) target =
      addGroups tools (explicitGroups entries) target := by
  rw [addGroups, explicitGroups, List.foldlM_map, List.foldlM_filter]
  rfl

theorem automaticGroup_pass (entries : List Entry) (target : Target) :
    entries.foldlM (fun target entry => automaticGroup tools entry target) target =
      addGroups tools ((entries.filter fun entry => isAutomatic entry.gid).map fun entry =>
        (entry.group, entry.gid)) target := by
  rw [addGroups, List.foldlM_map, List.foldlM_filter]
  rfl

theorem additionalGroups_pass (entries : List Entry) (target : Target) :
    entries.foldlM (fun target entry => additionalGroups tools entry target) target =
      addGroups tools ((entries.flatMap (extraGroups tools)).map fun group =>
        (group, "-1".toList)) target := by
  rw [addGroups, List.foldlM_map]
  induction entries generalizing target with
  | nil => rfl
  | cons entry rest inductionHypothesis =>
    rw [List.flatMap_cons, List.foldlM_append, List.foldlM_cons]
    exact congrArg _ (funext inductionHypothesis)

theorem explicitUser_pass (entries : List Entry) (target : Target) :
    entries.foldlM (fun target entry => explicitUser tools entry target) target =
      addUsers tools (explicitUsers entries) target := by
  rw [addUsers, explicitUsers, List.foldlM_filter]
  rfl

theorem automaticUser_pass (entries : List Entry) (target : Target) :
    entries.foldlM (fun target entry => automaticUser tools entry target) target =
      addUsers tools (automaticUsers entries) target := by
  rw [addUsers, automaticUsers, List.foldlM_filter]
  rfl

/-- A run completes when all lines can be read and all groups and then all users are added. -/
theorem main_eq_ok {table : Text} {first last : Target} :
    main tools table first = .ok last ↔
      (∀ line ∈ tableLines table, Entry.ofLine line ≠ none) ∧ ∃ middle,
        addGroups tools (explicitGroups (tableEntries table) ++
          automaticGroups tools (tableEntries table)) first = .ok middle ∧
        addUsers tools (explicitUsers (tableEntries table) ++
          automaticUsers (tableEntries table)) middle = .ok last := by
  have passes : main tools table first = (do
      let lines := tableLines table
      let target ← forLines (explicitGroup tools) lines first
      let target ← forLines (automaticGroup tools) lines target
      let target ← forLines (additionalGroups tools) lines target
      let target ← forLines (explicitUser tools) lines target
      forLines (automaticUser tools) lines target) := rfl
  rw [passes]
  simp only [bind_eq_ok, forLines_eq_ok, explicitGroup_pass, automaticGroup_pass,
    additionalGroups_pass, explicitUser_pass, automaticUser_pass]
  simp only [automaticGroups, addGroups, addUsers, foldlM_append_eq_ok]
  constructor
  · rintro ⟨first', ⟨readable, explicit⟩, second, ⟨_, automatic⟩, third, ⟨_, additional⟩, fourth,
      ⟨_, users⟩, _, others⟩
    exact ⟨readable, third, ⟨first', explicit, second, automatic, additional⟩, fourth, users,
      others⟩
  · rintro ⟨readable, third, ⟨first', explicit, second, automatic, additional⟩, fourth, users,
      others⟩
    exact ⟨first', ⟨readable, explicit⟩, second, ⟨readable, automatic⟩, third,
      ⟨readable, additional⟩, fourth, ⟨readable, users⟩, readable, others⟩

end Passes

/-! ### The effect of an addition -/

/-- The files behind `add_one_group` with a gid. -/
def groupAdded (tools : Tools) (group : Text) (gid : Int) (target : Target) : Target :=
  { target with
    group := (deleteGroup tools group target.group).append (groupLine group gid)
    gshadow := target.gshadow.map fun file =>
      (deleteGroup tools group file).append (gshadowLine group) }

/-- The loop over the additional groups on one of the two files. -/
def addMembers (tools : Tools) (entry : Entry) (file : File) : File :=
  (extraGroups tools entry).foldl
    (fun file group => addMember tools entry.username group file) file

/-- The calls of `add_user_to_group`. -/
def memberEdits (tools : Tools) (users : List Entry) : List (Text × Text) :=
  users.flatMap fun entry => (extraGroups tools entry).map fun group => (entry.username, group)

/-- What they make of a line. -/
def editLine (edits : List (Text × Text)) (line : Line) : Line :=
  edits.foldl (fun line edit => addMemberLine edit.1 edit.2 line) line

/-- What a call of `add_one_user` that completes finds: the ids, the home, and the password with
the number of salts taken. -/
structure Found where
  uid : Int
  gid : Int
  home : Text
  passwd : Text
  salts : Nat

/-- The lines for the fakeroot script. -/
def chownLines (tools : Tools) (entry : Entry) (uid gid : Int) : List Text :=
  if entry.home = "-".toList then [] else [chownLine tools entry uid gid]

/-- The files behind `add_one_user`. -/
def userAdded (tools : Tools) (entry : Entry) (found : Found) (target : Target) : Target where
  passwd := (deleteUser tools entry.username target.passwd).append
    (passwdLine entry found.uid found.gid found.home)
  shadow := (deleteUser tools entry.username target.shadow).append
    (shadowLine entry.username found.passwd)
  group := addMembers tools entry target.group
  gshadow := target.gshadow.map (addMembers tools entry)
  salts := found.salts
  script := target.script ++ chownLines tools entry found.uid found.gid

/-- When `add_one_user` completes. -/
structure Completes (tools : Tools) (entry : Entry) (target : Target) (found : Found) : Prop where
  valid : checkUserValidity tools entry target = none
  uid : chooseId (generateUid tools entry.username target.passwd) entry.uid = .ok (found.uid, true)
  gid : printfIds (idsOf tools 3 entry.group target.group) = (found.gid, true)
  home : homeOf entry.home = .ok found.home
  passwd : encodePasswd tools entry.passwd target.salts = some (found.passwd, found.salts)
  made : entry.home = "-".toList ∨ tools.mkdir (homePath tools entry.home) = true

section Effect

variable {tools : Tools}

theorem addOneGroup_eq_ok {group gid : Text} {first last : Target} :
    addOneGroup tools group gid first = .ok last ↔
      ∃ id, chooseId (generateGid tools group first.group) gid = .ok (id, true) ∧
        last = groupAdded tools group id first := by
  rw [addOneGroup]
  cases chosen : chooseId (generateGid tools group first.group) gid with
  | error failure => exact iff_of_false nofun (fun ⟨_, impossible, _⟩ => nomatch impossible)
  | ok result =>
    obtain ⟨id, accepted⟩ := result
    cases accepted with
    | false =>
      refine iff_of_false nofun fun ⟨_, impossible, _⟩ => ?_
      cases impossible
    | true =>
      constructor
      · intro done
        exact ⟨id, rfl, (Except.ok.inj done).symm⟩
      · rintro ⟨_, same, rfl⟩
        cases same
        rfl

/-- The groups leave the password file alone. -/
theorem passwd_addGroups {groups : List (Text × Text)} {first last : Target}
    (completes : addGroups tools groups first = .ok last) : last.passwd = first.passwd := by
  refine invariant_of_foldlM (fun target => target.passwd = first.passwd) ?_ completes rfl
  intro group _ before after step same
  obtain ⟨id, _, rfl⟩ := addOneGroup_eq_ok.mp step
  exact same

theorem addToGroups_eq (entry : Entry) (target : Target) :
    addToGroups tools entry target =
      { target with
        group := addMembers tools entry target.group
        gshadow := target.gshadow.map (addMembers tools entry) } := by
  rw [addToGroups]
  have general : ∀ (groups : List Text) (target : Target),
      groups.foldl (fun target group => addUserToGroup tools entry.username group target) target =
        { target with
          group := groups.foldl (fun file group => addMember tools entry.username group file)
            target.group
          gshadow := target.gshadow.map fun file =>
            groups.foldl (fun file group => addMember tools entry.username group file) file } := by
    intro groups
    induction groups with
    | nil =>
      intro target
      cases target with
      | mk passwd shadow group gshadow salts script => cases gshadow <;> rfl
    | cons group rest inductionHypothesis =>
      intro target
      rw [List.foldl_cons, inductionHypothesis]
      cases target with
      | mk passwd shadow group gshadow salts script => cases gshadow <;> rfl
  exact general _ _

theorem makeHome_eq_ok {entry : Entry} {uid gid : Int} {first last : Target} :
    makeHome tools entry uid gid first = .ok last ↔
      (entry.home = "-".toList ∨ tools.mkdir (homePath tools entry.home) = true) ∧
        last = { first with script := first.script ++ chownLines tools entry uid gid } := by
  rw [makeHome, chownLines]
  by_cases none : entry.home = "-".toList
  · rw [if_pos none, if_pos none, List.append_nil]
    exact ⟨fun done => ⟨Or.inl none, (Except.ok.inj done).symm⟩, fun ⟨_, same⟩ => same ▸ rfl⟩
  · rw [if_neg none, if_neg none]
    by_cases made : tools.mkdir (homePath tools entry.home) = true
    · rw [if_pos made]
      exact ⟨fun done => ⟨Or.inr made, (Except.ok.inj done).symm⟩, fun ⟨_, same⟩ => same ▸ rfl⟩
    · rw [if_neg made]
      exact iff_of_false nofun fun ⟨impossible, _⟩ => impossible.elim none made

theorem addOneUser_eq_ok {entry : Entry} {first last : Target} :
    addOneUser tools entry first = .ok last ↔
      ∃ found, Completes tools entry first found ∧ last = userAdded tools entry found first := by
  constructor
  · intro done
    rw [addOneUser] at done
    split at done
    · cases done
    rename_i valid
    split at done
    · cases done
    rename_i uid uidAccepted chosen
    simp only at done
    split at done
    · cases done
    rename_i home isHome
    split at done
    · cases done
    rename_i passwd salts encoded
    cases printed : printfIds (idsOf tools 3 entry.group first.group) with
    | mk gid gidAccepted =>
      rw [printed] at done
      cases uidAccepted with
      | false => cases done
      | true =>
        cases gidAccepted with
        | false => cases done
        | true =>
          obtain ⟨made, rfl⟩ := makeHome_eq_ok.mp done
          refine ⟨⟨uid, gid, home, passwd, salts⟩,
            ⟨valid, chosen, printed, isHome, encoded, made⟩, ?_⟩
          rw [addToGroups_eq]
          rfl
  · rintro ⟨found, ⟨valid, chosen, printed, isHome, encoded, made⟩, rfl⟩
    rw [addOneUser, valid]
    simp only [chosen, isHome, encoded, printed, Bool.and_self, if_true]
    refine makeHome_eq_ok.mpr ⟨made, ?_⟩
    rw [addToGroups_eq]
    rfl

end Effect

theorem ne_nil_of_reads {id : Text} (reads : isExplicit id = true ∨ isAutomatic id = true) :
    id ≠ [] := by
  rintro rfl
  exact reads.elim nofun nofun

/-- An entry with a uid has a user name, and one with a gid a group name. -/
theorem names_ne_nil {table : Text} {entry : Entry} (inside : entry ∈ tableEntries table) :
    (entry.uid ≠ [] → entry.username ≠ []) ∧ (entry.gid ≠ [] → entry.group ≠ []) := by
  obtain ⟨line, _, read⟩ := List.mem_filterMap.mp inside
  obtain ⟨fields, _, rfl⟩ := Option.map_eq_some_iff.mp read
  exact Entry.names_ne_nil fields

/-! ### The form of the group file -/

theorem groupLine_eq {group : Text} (noColon : ':' ∉ group) (gid : Int) :
    groupLine group gid = [group, "x".toList, showInt gid, []] := by
  have number : (showInt gid).splitOn ':' = [showInt gid] :=
    List.splitOn_eq_singleton (not_mem_showInt rfl (by decide) gid)
  simp only [groupLine, record, List.flatMap_cons, List.splitOn_eq_singleton noColon, number]
  rfl

theorem groupForm_groupLine {group : Text} (noColon : ':' ∉ group) (noComma : ',' ∉ group)
    (gid : Int) : GroupForm (groupLine group gid) := by
  rw [groupLine_eq noColon]
  exact .line _ _ _ _ noComma (by decide) (not_mem_showInt rfl (by decide) gid)

/-- Adding members changes nothing in front of the list of members. -/
theorem GroupForm.editLine {line : Line} (form : GroupForm line) (edits : List (Text × Text)) :
    GroupForm (editLine edits line) ∧ (Users.editLine edits line).take 3 = line.take 3 := by
  induction edits generalizing line with
  | nil => exact ⟨form, rfl⟩
  | cons edit rest inductionHypothesis =>
    obtain ⟨nextForm, sameHead⟩ := form.addMemberLine edit.1 edit.2
    obtain ⟨lastForm, sameFields⟩ := inductionHypothesis nextForm
    exact ⟨lastForm, sameFields.trans sameHead⟩

theorem Line.field_eq_of_take {first second : Line} (same : first.take 3 = second.take 3) {n : Nat}
    (few : n - 1 < 3) : first.field n = second.field n := by
  rw [Line.field, Line.field, ← List.getElem?_take_of_lt few, same, List.getElem?_take_of_lt few]

/-! ### A small target -/

/-- A line from its text. -/
def lineOf (text : String) : Line := text.toList.splitOn ':'

/-- Tools for names without special characters, on a disk where every directory can be made. -/
def plainTools : Tools where
  deleteGroup := deleteLines
  deleteUser := deleteLines
  addMember username group file := file.map (addMemberLine username group)
  escape name := name
  differs found name := decide (found ≠ name)
  expand word := [word]
  mkpasswd passwd := some fun salts => "$6$".toList ++ decimal salts ++ '$' :: passwd
  mkdir _ := true
  targetDir := "/target".toList

/-- A few lines of the skeleton. -/
def smallTarget : Target where
  passwd :=
    ⟨[lineOf "root:x:0:0:root:/root:/bin/sh", lineOf "mail:x:8:8:mail:/var/mail:/bin/false"], true⟩
  shadow := ⟨[lineOf "root::::::::", lineOf "mail:*:::::::"], true⟩
  group := ⟨[lineOf "root:x:0:", lineOf "mail:x:8:", lineOf "wheel:x:10:root"], true⟩
  gshadow := none
  salts := 0
  script := []

/-- Whether a run completes. -/
def completes (outcome : Outcome) : Bool :=
  match outcome with
  | .ok _ => true
  | .error _ => false

/-- The files behind a run that completes. -/
def finalTarget (outcome : Outcome) : Target :=
  match outcome with
  | .ok target => target
  | .error (_, target) => target

theorem eq_ok_of_completes (outcome : Outcome) (done : completes outcome = true) :
    outcome = .ok (finalTarget outcome) := by
  cases outcome with
  | ok target => rfl
  | error failure => cases done

end Buildroot4G.Users
