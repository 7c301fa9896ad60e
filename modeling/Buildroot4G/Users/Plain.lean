/-
This file has the names without special characters. sed, awk and `[` take such a name as
it stands, whatever the lines of the files are, so that on files that end in a newline
every addition of a run meets the conditions under which the registries of ids are kept.
-/

import Buildroot4G.Users.Ids

namespace Buildroot4G.Users

open Shell Fold Registry Double

/-! ### Plain entries -/

/-- The names of an entry have no special characters. -/
structure Entry.Plain (tools : Tools) (entry : Entry) : Prop where
  username : isPlain entry.username = true
  group : isPlain entry.group = true
  extra : ∀ group ∈ extraGroups tools entry, isPlain group = true ∧ group ≠ []

instance (tools : Tools) (entry : Entry) : Decidable (entry.Plain tools) :=
  decidable_of_iff (isPlain entry.username = true ∧ isPlain entry.group = true ∧
      ∀ group ∈ extraGroups tools entry, isPlain group = true ∧ group ≠ [])
    ⟨fun ⟨username, group, extra⟩ => ⟨username, group, extra⟩,
      fun plain => ⟨plain.username, plain.group, plain.extra⟩⟩

section Plain

variable {tools : Tools}

/-- The groups of plain entries are plain and have names. -/
theorem plain_of_mem_groups {table : Text}
    (plain : ∀ entry ∈ tableEntries table, entry.Plain tools) :
    ∀ group ∈ explicitGroups (tableEntries table) ++ automaticGroups tools (tableEntries table),
      isPlain group.1 = true ∧ group.1 ≠ [] := by
  intro group inside
  simp only [explicitGroups, automaticGroups, List.mem_append, List.mem_map, List.mem_filter,
    List.mem_flatMap] at inside
  rcases inside with ⟨entry, ⟨member, reads⟩, rfl⟩ | ⟨entry, ⟨member, reads⟩, rfl⟩ |
    ⟨name, ⟨entry, member, extra⟩, rfl⟩
  · exact ⟨(plain entry member).group, (names_ne_nil member).2 (ne_nil_of_reads (Or.inl reads))⟩
  · exact ⟨(plain entry member).group, (names_ne_nil member).2 (ne_nil_of_reads (Or.inr reads))⟩
  · exact (plain entry member).extra name extra

/-- The users of plain entries are plain and have names. -/
theorem plain_of_mem_users {table : Text}
    (plain : ∀ entry ∈ tableEntries table, entry.Plain tools) :
    ∀ entry ∈ explicitUsers (tableEntries table) ++ automaticUsers (tableEntries table),
      entry.Plain tools ∧ entry.username ≠ [] := by
  intro entry inside
  have member := mem_of_mem_users inside
  refine ⟨plain entry member, (names_ne_nil member).1 (ne_nil_of_reads ?_)⟩
  rw [explicitUsers, automaticUsers, List.mem_append, List.mem_filter, List.mem_filter,
    Bool.and_eq_true_iff, Bool.and_eq_true_iff] at inside
  exact inside.imp (fun asks => asks.2.2) (fun asks => asks.2.2)

/-! ### One addition -/

theorem isField_of_isPlain {name : Text} (plain : isPlain name = true) (named : name ≠ []) :
    IsField name := by
  refine ⟨named, fun c special => not_mem_of_isPlain plain ?_⟩
  have separators : ∀ c ∈ [':', ',', '\n'], c ∈ specials := by decide
  exact separators c special

theorem writesGroup_of_isPlain {group : Text} (plain : isPlain group = true) (named : group ≠ [])
    {file : File} (ended : file.ended = true) (tools : Tools) :
    WritesLine (deleteGroup tools group) group file :=
  ⟨isField_of_isPlain plain named, by rw [deleteGroup_of_isPlain plain],
    File.ended_filter ended _⟩

theorem writesUser_of_isPlain {username : Text} (plain : isPlain username = true)
    (named : username ≠ []) {file : File} (ended : file.ended = true) (tools : Tools) :
    WritesLine (deleteUser tools username) username file :=
  ⟨isField_of_isPlain plain named, by rw [deleteUser_of_isPlain plain],
    File.ended_filter ended _⟩

variable (tools) in
theorem findsIds_of_isPlain {name : Text} (plain : isPlain name = true) (file : File) :
    FindsIds tools name file := by
  rw [FindsIds, idsOf, variableValue_eq (not_mem_of_isPlain plain (by decide))]

variable (tools) in
/-- awk finds the ids that the registry finds. -/
theorem idsOf_eq {file : File} (forms : ∀ line ∈ file, HasId line) {name : Text}
    (plain : isPlain name = true) :
    idsOf tools 3 name file =
      ((found strnum name (registryOf file)).map nearest).map Nat.cast := by
  rw [findsIds_of_isPlain tools plain, idsUnder_eq forms]

theorem addMembers_eq {entry : Entry} (plain : entry.Plain tools) (file : File) :
    addMembers tools entry file = file.map (editLine (memberEdits tools [entry])) := by
  have extra := plain.extra
  rw [addMembers, memberEdits, List.flatMap_singleton]
  generalize extraGroups tools entry = groups at extra ⊢
  induction groups generalizing file with
  | nil => exact file.map_id.symm
  | cons group rest inductionHypothesis =>
    have isPlain := (extra group List.mem_cons_self).1
    have later : ∀ file : File, rest.foldl (fun file group => addMember tools entry.username group
        file) file = file.map (editLine (rest.map fun group => (entry.username, group))) :=
      fun file => inductionHypothesis file fun other inside =>
        extra other (List.mem_cons_of_mem group inside)
    rw [List.foldl_cons, later, addMember_of_isPlain plain.username isPlain, File.map_map]
    rfl

theorem ended_addMembers {entry : Entry} (plain : entry.Plain tools) (file : File) :
    (addMembers tools entry file).ended = file.ended := by
  rw [addMembers_eq plain]
  rfl

theorem joinsGroups_of_plain {entry : Entry} (plain : entry.Plain tools)
    (named : entry.username ≠ []) (file : File) : JoinsGroups tools entry file :=
  ⟨isField_of_isPlain plain.username named, addMembers_eq plain file⟩

/-! ### Targets in their form -/

/-- A target whose password and group files have the form of such files. -/
structure WellFormed (target : Target) : Prop where
  passwd : ∀ line ∈ target.passwd, HasId line
  passwdEnded : target.passwd.ended = true
  group : ∀ line ∈ target.group, HasId line
  groupEnded : target.group.ended = true
  groupForm : ∀ line ∈ target.group, GroupForm line

instance : DecidablePred WellFormed := fun target =>
  decidable_of_iff ((∀ line ∈ target.passwd, HasId line) ∧ target.passwd.ended = true ∧
      (∀ line ∈ target.group, HasId line) ∧ target.group.ended = true ∧
      ∀ line ∈ target.group, GroupForm line)
    ⟨fun ⟨passwd, passwdEnded, group, groupEnded, groupForm⟩ =>
        ⟨passwd, passwdEnded, group, groupEnded, groupForm⟩,
      fun form => ⟨form.passwd, form.passwdEnded, form.group, form.groupEnded, form.groupForm⟩⟩

theorem WellFormed.givesGid {target : Target} (wellFormed : WellFormed target) :
    ∀ line ∈ target.group, GivesGid line :=
  fun line inside => ⟨wellFormed.group line inside, wellFormed.groupForm line inside⟩

section Added

variable {first : Target}

variable (tools) in
/-- A group that is added keeps the form of the file and is entered in its registry. -/
theorem registry_groupAdded {group : Text} (plain : isPlain group = true) (named : group ≠ [])
    (wellFormed : WellFormed first) (gid : ℕ) :
    WellFormed (groupAdded tools group gid first) ∧
      registryOf (groupAdded tools group gid first).group = put group gid (registryOf first.group) ∧
      registryOf (groupAdded tools group gid first).passwd = registryOf first.passwd := by
  obtain ⟨forms, entered⟩ := group_groupAdded
    (writesGroup_of_isPlain plain named wellFormed.groupEnded tools) wellFormed.givesGid gid
  exact ⟨⟨wellFormed.passwd, wellFormed.passwdEnded, fun line inside => (forms line inside).hasId,
    rfl, fun line inside => (forms line inside).form⟩, entered, rfl⟩

/-- A user that is added keeps the form of the files and is entered in the registry. -/
theorem registry_userAdded {entry : Entry} (plain : entry.Plain tools)
    (named : entry.username ≠ []) (wellFormed : WellFormed first) {found : Found} {uid : ℕ}
    (isUid : found.uid = uid) :
    WellFormed (userAdded tools entry found first) ∧
      registryOf (userAdded tools entry found first).passwd =
        put entry.username uid (registryOf first.passwd) ∧
      registryOf (userAdded tools entry found first).group = registryOf first.group := by
  obtain ⟨passwdForms, entered⟩ := passwd_userEntered
    (writesUser_of_isPlain plain.username named wellFormed.passwdEnded tools) wellFormed.passwd
    isUid
  obtain ⟨forms, same⟩ := group_addMembers (joinsGroups_of_plain plain named _) wellFormed.givesGid
  refine ⟨⟨passwdForms, rfl, fun line inside => (forms line inside).hasId, ?_,
    fun line inside => (forms line inside).form⟩, entered, same⟩
  rw [userAdded, ended_addMembers plain]
  exact wellFormed.groupEnded

end Added

/-! ### Runs -/

section Run

variable {first last : Target}

variable (tools) in
theorem everyGroup_of_plain {groups : List (Text × Text)}
    (plain : ∀ group ∈ groups, isPlain group.1 = true ∧ group.1 ≠ [])
    (ended : first.group.ended = true) :
    EveryStep (fun target group => addOneGroup tools group.1 group.2 target)
      (fun group target => EntersGroup tools group target.group) groups first := by
  refine everyStep_of_invariant (fun target => target.group.ended = true) ?_ ?_ ended
  · intro group _ before after step _
    obtain ⟨id, _, rfl⟩ := addOneGroup_eq_ok.mp step
    rfl
  · intro group inside target ended
    obtain ⟨isPlain, named⟩ := plain group inside
    exact ⟨writesGroup_of_isPlain isPlain named ended tools,
      fun _ => findsIds_of_isPlain tools isPlain _⟩

theorem everyUser_of_plain {entries : List Entry}
    (plain : ∀ entry ∈ entries, entry.Plain tools ∧ entry.username ≠ [])
    (ended : first.passwd.ended = true) :
    EveryStep (fun target entry => addOneUser tools entry target)
      (fun entry target => EntersUser tools entry target.passwd) entries first := by
  refine everyStep_of_invariant (fun target => target.passwd.ended = true) ?_ ?_ ended
  · intro entry _ before after step _
    obtain ⟨found, _, rfl⟩ := addOneUser_eq_ok.mp step
    rfl
  · intro entry inside target ended
    obtain ⟨isPlain, named⟩ := plain entry inside
    exact ⟨writesUser_of_isPlain isPlain.username named ended tools,
      fun _ => findsIds_of_isPlain tools isPlain.username _⟩

theorem everyMember_of_plain {entries : List Entry}
    (plain : ∀ entry ∈ entries, entry.Plain tools ∧ entry.username ≠ []) :
    EveryStep (fun target entry => addOneUser tools entry target)
      (fun entry target => JoinsGroups tools entry target.group) entries first :=
  everyStep_of_invariant (fun _ => True) (fun _ _ _ _ _ _ => trivial)
    (fun entry inside _ _ =>
      joinsGroups_of_plain (plain entry inside).1 (plain entry inside).2 _) trivial

theorem ended_addGroups {groups : List (Text × Text)} (ended : first.group.ended = true)
    (completes : addGroups tools groups first = .ok last) : last.group.ended = true := by
  refine invariant_of_foldlM (fun target => target.group.ended = true) ?_ completes ended
  intro group _ before after step _
  obtain ⟨id, _, rfl⟩ := addOneGroup_eq_ok.mp step
  rfl

theorem ended_addUsers {entries : List Entry} (plain : ∀ entry ∈ entries, entry.Plain tools)
    (passwd : first.passwd.ended = true) (group : first.group.ended = true)
    (completes : addUsers tools entries first = .ok last) :
    last.passwd.ended = true ∧ last.group.ended = true := by
  refine invariant_of_foldlM
    (fun target => target.passwd.ended = true ∧ target.group.ended = true) ?_ completes
    ⟨passwd, group⟩
  rintro entry inside before after step ⟨_, ended⟩
  obtain ⟨found, _, rfl⟩ := addOneUser_eq_ok.mp step
  exact ⟨rfl, (ended_addMembers (plain entry inside) _).trans ended⟩

theorem registry_addGroups_explicit {groups : List (Text × Text)}
    (plain : ∀ group ∈ groups, isPlain group.1 = true ∧ group.1 ≠ [])
    (explicit : ∀ group ∈ groups, isExplicit group.2 = true) (wellFormed : WellFormed first)
    (completes : addGroups tools groups first = .ok last) :
    WellFormed last ∧
      registryOf last.group =
        assign (groups.map fun group => (group.1, explicitId group.2)) (registryOf first.group) ∧
      registryOf last.passwd = registryOf first.passwd := by
  have same := passwd_addGroups completes
  obtain ⟨forms, assigned⟩ := group_addGroups_explicit
    (everyGroup_of_plain tools plain wellFormed.groupEnded) explicit wellFormed.givesGid completes
  exact ⟨⟨same ▸ wellFormed.passwd, same ▸ wellFormed.passwdEnded,
    fun line inside => (forms line inside).hasId, ended_addGroups wellFormed.groupEnded completes,
    fun line inside => (forms line inside).form⟩, assigned, congrArg registryOf same⟩

theorem registry_addGroups_automatic {groups : List (Text × Text)}
    (plain : ∀ group ∈ groups, isPlain group.1 = true ∧ group.1 ≠ [])
    (automatic : ∀ group ∈ groups, isAutomatic group.2 = true) (wellFormed : WellFormed first)
    (completes : addGroups tools groups first = .ok last) :
    WellFormed last ∧
      Allocate strnum nearest minGid maxGid (groups.map Prod.fst) (registryOf first.group)
        (registryOf last.group) ∧
      registryOf last.passwd = registryOf first.passwd := by
  have same := passwd_addGroups completes
  obtain ⟨forms, allocates⟩ := group_addGroups_automatic
    (everyGroup_of_plain tools plain wellFormed.groupEnded) automatic wellFormed.givesGid completes
  exact ⟨⟨same ▸ wellFormed.passwd, same ▸ wellFormed.passwdEnded,
    fun line inside => (forms line inside).hasId, ended_addGroups wellFormed.groupEnded completes,
    fun line inside => (forms line inside).form⟩, allocates, congrArg registryOf same⟩

/-- Users that are added keep the form of the files. -/
theorem wellFormed_addUsers {entries : List Entry}
    (plain : ∀ entry ∈ entries, entry.Plain tools ∧ entry.username ≠ [])
    (wellFormed : WellFormed first) (completes : addUsers tools entries first = .ok last)
    (forms : ∀ line ∈ last.passwd, HasId line) :
    WellFormed last ∧ registryOf last.group = registryOf first.group := by
  obtain ⟨passwdEnded, groupEnded⟩ := ended_addUsers (fun entry inside => (plain entry inside).1)
    wellFormed.passwdEnded wellFormed.groupEnded completes
  obtain ⟨groupForms, same⟩ := group_addUsers (everyMember_of_plain plain) wellFormed.givesGid
    completes
  exact ⟨⟨forms, passwdEnded, fun line inside => (groupForms line inside).hasId, groupEnded,
    fun line inside => (groupForms line inside).form⟩, same⟩

theorem registry_addUsers_explicit {entries : List Entry}
    (plain : ∀ entry ∈ entries, entry.Plain tools ∧ entry.username ≠ [])
    (explicit : ∀ entry ∈ entries, isExplicit entry.uid = true) (wellFormed : WellFormed first)
    (completes : addUsers tools entries first = .ok last) :
    WellFormed last ∧
      registryOf last.passwd =
        assign (entries.map fun entry => (entry.username, explicitId entry.uid))
          (registryOf first.passwd) ∧
      registryOf last.group = registryOf first.group := by
  obtain ⟨forms, assigned⟩ := passwd_addUsers_assign
    (everyUser_of_plain plain wellFormed.passwdEnded) explicit wellFormed.passwd completes
  obtain ⟨lastForm, same⟩ := wellFormed_addUsers plain wellFormed completes forms
  exact ⟨lastForm, assigned, same⟩

theorem registry_addUsers_automatic {entries : List Entry}
    (plain : ∀ entry ∈ entries, entry.Plain tools ∧ entry.username ≠ [])
    (automatic : ∀ entry ∈ entries, isAutomatic entry.uid = true) (wellFormed : WellFormed first)
    (completes : addUsers tools entries first = .ok last) :
    WellFormed last ∧
      Allocate strnum nearest minUid maxUid (entries.map Entry.username) (registryOf first.passwd)
        (registryOf last.passwd) ∧
      registryOf last.group = registryOf first.group := by
  obtain ⟨forms, allocates⟩ := passwd_addUsers_allocate
    (everyUser_of_plain plain wellFormed.passwdEnded) automatic wellFormed.passwd completes
  obtain ⟨lastForm, same⟩ := wellFormed_addUsers plain wellFormed completes forms
  exact ⟨lastForm, allocates, same⟩

/-- What a completed run does to the ids. -/
structure Registered (tools : Tools) (entries : List Entry) (first last : Target) : Prop where
  group : RegisteredGids tools entries first.group last.group
  passwd : RegisteredUids entries first.passwd last.passwd

/-- A completed run over plain names is a run of the two registries. -/
theorem registered_main {table : Text}
    (plain : ∀ entry ∈ tableEntries table, entry.Plain tools) (wellFormed : WellFormed first)
    (completes : main tools table first = .ok last) :
    WellFormed last ∧ Registered tools (tableEntries table) first last := by
  obtain ⟨_, middle, groups, users⟩ := main_eq_ok.mp completes
  have plainGroups := plain_of_mem_groups plain
  have plainUsers := plain_of_mem_users plain
  have everyGroup := everyGroup_of_plain tools plainGroups wellFormed.groupEnded
  have samePasswd := passwd_addGroups groups
  obtain ⟨forms, gids⟩ := registeredGids_main
    ⟨everyGroup, fun _ _ => everyMember_of_plain plainUsers⟩ wellFormed.givesGid completes
  obtain ⟨passwdForms, uids⟩ := registeredUids_main
    ⟨everyGroup.mono fun _ _ _ => trivial, fun middle groups => everyUser_of_plain plainUsers
      (passwd_addGroups groups ▸ wellFormed.passwdEnded)⟩ wellFormed.passwd completes
  obtain ⟨passwdEnded, groupEnded⟩ := ended_addUsers
    (fun entry inside => (plainUsers entry inside).1) (samePasswd ▸ wellFormed.passwdEnded)
    (ended_addGroups wellFormed.groupEnded groups) users
  exact ⟨⟨passwdForms, passwdEnded, fun line inside => (forms line inside).hasId, groupEnded,
    fun line inside => (forms line inside).form⟩, gids, uids⟩

end Run

end Plain

end Buildroot4G.Users
