/-
This file says what a completed run writes. Every file keeps the lines whose names
the run does not enter, and behind them stand the lines of the last entry of each
name; then the users are added to the lists of members. From this follows that a
second run on the files of a first one, when it completes, leaves them as they are,
up to the salts of the passwords.
-/

import Buildroot4G.Keyed
import Buildroot4G.Users.Checks

namespace Buildroot4G.Users

open Shell Fold Registry Keyed Double

/-! ### The lines of a run -/

/-- The id a name is entered with: an explicit one, or the one `ids` has for it. -/
def idFor (ids : Text → ℕ) (name id : Text) : ℕ :=
  if isExplicit id then explicitId id else ids name

def groupPairs (gids : Text → ℕ) (groups : List (Text × Text)) : List (Text × Line) :=
  groups.map fun group => (group.1, groupLine group.1 (idFor gids group.1 group.2))

def gshadowPairs (groups : List (Text × Text)) : List (Text × Line) :=
  groups.map fun group => (group.1, gshadowLine group.1)

/-- The gid of a group, as `add_one_user` prints it. -/
def gidFor (groups : Registry Text) (group : Text) : ℕ :=
  ((found strnum group groups).map nearest).head?.getD 0

/-- `_home`. -/
def homeText (home : Text) : Text := if home = "-".toList then "/".toList else home

def passwdPairs (uids : Text → ℕ) (groups : Registry Text) (users : List Entry) :
    List (Text × Line) :=
  users.map fun entry => (entry.username,
    passwdLine entry (idFor uids entry.username entry.uid) (gidFor groups entry.group)
      (homeText entry.home))

/-- The lines of names entered in a file. -/
def File.enterAll (pairs : List (Text × Line)) (file : File) : File :=
  { file with lines := Keyed.enterAll headed pairs file.lines }

/-- All files of the target end in a newline. -/
structure EndedTarget (target : Target) : Prop where
  passwd : target.passwd.ended = true
  shadow : target.shadow.ended = true
  group : target.group.ended = true
  gshadow : ∀ file, target.gshadow = some file → file.ended = true

/-- The password of an entry behind some number of salts. -/
def IsPasswd (tools : Tools) (entry : Entry) (passwd : Text) : Prop :=
  ∃ salts, (encodePasswd tools entry.passwd salts).map Prod.fst = some passwd

/-- The line that is entered in the shadow file. -/
def IsShadowPair (tools : Tools) (entry : Entry) (pair : Text × Line) : Prop :=
  ∃ passwd, IsPasswd tools entry passwd ∧ pair = (entry.username, shadowLine entry.username passwd)

/-- The id of a name in a registry. -/
def idIn (registry : Registry Text) (name : Text) : ℕ := (requested registry name).getD 0

theorem idIn_eq {registry : Registry Text} (nodup : (names registry).Nodup) {name : Text} {id : ℕ}
    (has : (name, id) ∈ registry) : idIn registry name = id := by
  rw [idIn]
  cases asks : requested registry name with
  | none => exact absurd (List.mem_map_of_mem has) (requested_eq_none_iff.mp asks)
  | some number => exact eq_of_mem nodup (mem_of_requested asks) has

theorem idFor_of_isAutomatic {id : Text} (automatic : isAutomatic id = true) (ids : Text → ℕ)
    (name : Text) : idFor ids name id = ids name := by
  rw [idFor, if_neg]
  rw [isExplicit, of_decide_eq_true automatic]
  decide

/-! ### Groups -/

section Groups

variable {tools : Tools} {first last : Target}

/-- Deleting a name and appending its line enters it. -/
theorem deleteLines_append_eq {file : File} (ended : file.ended = true) (name : Text)
    (line : Line) : (deleteLines name file).append line = file.enterAll [(name, line)] := by
  rw [deleteLines, File.append_eq (File.ended_filter ended _)]
  exact File.ext rfl ended.symm

variable (tools) in
theorem EndedTarget.groupAdded {group : Text} (ended : EndedTarget first) (gid : Int) :
    EndedTarget (groupAdded tools group gid first) := by
  refine ⟨ended.passwd, ended.shadow, rfl, fun file isFile => ?_⟩
  obtain ⟨old, _, rfl⟩ := Option.map_eq_some_iff.mp isFile
  rfl

theorem groupAdded_eq {group : Text} (plain : isPlain group = true) (gid : Int)
    (ended : EndedTarget first) :
    groupAdded tools group gid first =
      { first with
        group := first.group.enterAll [(group, groupLine group gid)]
        gshadow := first.gshadow.map (File.enterAll [(group, gshadowLine group)]) } := by
  rw [groupAdded, deleteGroup_of_isPlain plain, deleteLines_append_eq ended.group]
  have gshadow : (first.gshadow.map fun file =>
      (deleteLines group file).append (gshadowLine group)) =
      first.gshadow.map (File.enterAll [(group, gshadowLine group)]) :=
    Option.map_congr fun file isFile => deleteLines_append_eq (ended.gshadow file isFile) _ _
  rw [gshadow]

/-- The files behind the lines of groups. -/
def enterGroups (gids : Text → ℕ) (groups : List (Text × Text)) (target : Target) : Target :=
  { target with
    group := target.group.enterAll (groupPairs gids groups)
    gshadow := target.gshadow.map (File.enterAll (gshadowPairs groups)) }

theorem enterGroups_nil (gids : Text → ℕ) (target : Target) :
    enterGroups gids [] target = target := by
  cases target with
  | mk passwd shadow group gshadow salts script => cases gshadow <;> rfl

theorem enterGroups_cons {group : Text × Text} (plain : isPlain group.1 = true)
    (rest : List (Text × Text)) (gids : Text → ℕ) (ended : EndedTarget first) :
    enterGroups gids (group :: rest) first =
      enterGroups gids rest
        (groupAdded tools group.1 (idFor gids group.1 group.2) first) := by
  rw [groupAdded_eq plain _ ended]
  cases first with
  | mk passwd shadow group' gshadow salts script => cases gshadow <;> rfl

theorem enterGroups_append (before after : List (Text × Text)) (gids : Text → ℕ)
    (target : Target) :
    enterGroups gids (before ++ after) target =
      enterGroups gids after (enterGroups gids before target) := by
  cases target with
  | mk passwd shadow group gshadow salts script =>
    cases gshadow <;>
      simp [enterGroups, groupPairs, gshadowPairs, File.enterAll, enterAll_append]

theorem addGroups_explicit_eq {groups : List (Text × Text)}
    (plain : ∀ group ∈ groups, isPlain group.1 = true)
    (explicit : ∀ group ∈ groups, isExplicit group.2 = true) (gids : Text → ℕ)
    (ended : EndedTarget first) (completes : addGroups tools groups first = .ok last) :
    last = enterGroups gids groups first ∧ EndedTarget last := by
  induction groups generalizing first with
  | nil =>
    cases completes
    exact ⟨(enterGroups_nil gids _).symm, ended⟩
  | cons group rest inductionHypothesis =>
    obtain ⟨next, step, later⟩ := foldlM_cons_eq_ok.mp completes
    obtain ⟨value, chosen, rfl⟩ := addOneGroup_eq_ok.mp step
    have isPlain := plain group List.mem_cons_self
    have isValue := eq_explicitId_of_chooseId (explicit group List.mem_cons_self) chosen
    obtain ⟨restEq, lastEnded⟩ := inductionHypothesis
      (fun other inside => plain other (List.mem_cons_of_mem group inside))
      (fun other inside => explicit other (List.mem_cons_of_mem group inside))
      (ended.groupAdded tools value) later
    refine ⟨?_, lastEnded⟩
    rw [restEq, enterGroups_cons isPlain rest gids ended, isValue, idFor,
      if_pos (explicit group List.mem_cons_self)]

theorem addGroups_automatic_eq {groups : List (Text × Text)}
    (plain : ∀ group ∈ groups, isPlain group.1 = true ∧ group.1 ≠ [])
    (automatic : ∀ group ∈ groups, isAutomatic group.2 = true) (wellFormed : WellFormed first)
    {gids : Text → ℕ} (ended : EndedTarget first)
    (completes : addGroups tools groups first = .ok last)
    (reads : ∀ group ∈ groups, ∀ id, (group.1, id) ∈ registryOf last.group → gids group.1 = id) :
    last = enterGroups gids groups first ∧ EndedTarget last := by
  induction groups generalizing first with
  | nil =>
    cases completes
    exact ⟨(enterGroups_nil gids _).symm, ended⟩
  | cons group rest inductionHypothesis =>
    obtain ⟨next, step, later⟩ := foldlM_cons_eq_ok.mp completes
    obtain ⟨value, chosen, rfl⟩ := addOneGroup_eq_ok.mp step
    obtain ⟨isPlain, named⟩ := plain group List.mem_cons_self
    have isAutomatic := automatic group List.mem_cons_self
    have plainLater : ∀ other ∈ rest, Users.isPlain other.1 = true ∧ other.1 ≠ [] :=
      fun other inside => plain other (List.mem_cons_of_mem group inside)
    have automaticLater : ∀ other ∈ rest, Users.isAutomatic other.2 = true :=
      fun other inside => automatic other (List.mem_cons_of_mem group inside)
    obtain ⟨id, rfl, finds⟩ := generateId_eq_ok wellFormed.group
      (findsIds_of_isPlain tools isPlain _)
      (generate_eq_ok_of_chooseId isAutomatic chosen)
    obtain ⟨nextForm, entered, _⟩ := registry_groupAdded tools isPlain named wellFormed id
    -- the later allocations keep the gid that is entered here
    obtain ⟨_, allocates, _⟩ :=
      registry_addGroups_automatic plainLater automaticLater nextForm later
    have isId : gids group.1 = id := by
      refine reads group List.mem_cons_self id (allocates.mem_of_shown (shows_nearest (by decide))
        ?_ (nearest_of_generateId (by decide) finds))
      rw [entered]
      exact mem_put.mpr (Or.inl ⟨rfl, rfl⟩)
    obtain ⟨restEq, lastEnded⟩ := inductionHypothesis plainLater automaticLater nextForm
      (ended.groupAdded tools id) later
      fun other inside => reads other (List.mem_cons_of_mem group inside)
    refine ⟨?_, lastEnded⟩
    rw [restEq, enterGroups_cons isPlain rest gids ended, idFor_of_isAutomatic isAutomatic, isId]

end Groups

/-! ### Users -/

/-- What the users write to the files other than `passwd`. -/
structure UsersWritten (tools : Tools) (users : List Entry) (first last : Target) : Prop where
  group : last.group = first.group.map (editLine (memberEdits tools users))
  gshadow : last.gshadow = first.gshadow.map (File.map (editLine (memberEdits tools users)))
  shadow : ∃ pairs, List.Forall₂ (IsShadowPair tools) users pairs ∧
    last.shadow = first.shadow.enterAll pairs

theorem editLine_append (before after : List (Text × Text)) (line : Line) :
    editLine (before ++ after) line = editLine after (editLine before line) :=
  List.foldl_append

theorem homeOf_eq {home text : Text} (isHome : homeOf home = .ok text) : text = homeText home := by
  rw [homeOf] at isHome
  rw [homeText]
  by_cases none : home = "-".toList
  · rw [if_pos none] at isHome ⊢
    exact (Except.ok.inj isHome).symm
  · rw [if_neg none] at isHome ⊢
    split at isHome
    · cases isHome
    · split at isHome
      · exact (Except.ok.inj isHome).symm
      · cases isHome

theorem printfIds_eq {ids : List ℕ} {gid : Int}
    (printed : printfIds (ids.map Nat.cast) = (gid, true)) : gid = (ids.head?.getD 0 : ℕ) := by
  match ids with
  | [] => exact (congrArg Prod.fst printed).symm
  | [id] => exact (congrArg Prod.fst printed).symm
  | _ :: _ :: _ => cases congrArg Prod.snd printed

section Users

variable {tools : Tools} {first last : Target}

theorem EndedTarget.userAdded {entry : Entry} (plain : entry.Plain tools) {found : Found}
    (ended : EndedTarget first) : EndedTarget (userAdded tools entry found first) := by
  refine ⟨rfl, rfl, (ended_addMembers plain _).trans ended.group, fun file isFile => ?_⟩
  obtain ⟨old, isOld, rfl⟩ := Option.map_eq_some_iff.mp isFile
  exact (ended_addMembers plain _).trans (ended.gshadow old isOld)

theorem usersWritten_addUsers {users : List Entry} (plain : ∀ entry ∈ users, entry.Plain tools)
    (ended : EndedTarget first) (completes : addUsers tools users first = .ok last) :
    UsersWritten tools users first last := by
  induction users generalizing first with
  | nil =>
    cases completes
    refine ⟨(File.map_id _).symm, ?_, [], .nil, rfl⟩
    cases last.gshadow with
    | none => rfl
    | some file => exact congrArg some file.map_id.symm
  | cons entry rest inductionHypothesis =>
    obtain ⟨next, step, later⟩ := foldlM_cons_eq_ok.mp completes
    obtain ⟨found, done, rfl⟩ := addOneUser_eq_ok.mp step
    have isPlain := plain entry List.mem_cons_self
    obtain ⟨group, gshadow, pairs, arePairs, shadow⟩ := inductionHypothesis
      (fun other inside => plain other (List.mem_cons_of_mem entry inside))
      (ended.userAdded isPlain) later
    have edited : ∀ file : File,
        (addMembers tools entry file).map (editLine (memberEdits tools rest)) =
          file.map (editLine (memberEdits tools (entry :: rest))) := by
      intro file
      rw [addMembers_eq isPlain, File.map_map]
      refine congrArg (fun change => file.map change) (funext fun line => ?_)
      rw [memberEdits, memberEdits, memberEdits, List.flatMap_singleton, List.flatMap_cons,
        editLine_append]
    refine ⟨group.trans (edited first.group), gshadow.trans ?_, _ :: pairs,
      .cons ⟨found.passwd, ⟨first.salts, ?_⟩, rfl⟩ arePairs, shadow.trans ?_⟩
    · rw [userAdded, Option.map_map]
      exact congrArg (fun change => first.gshadow.map change) (funext edited)
    · rw [done.passwd]
      rfl
    · rw [userAdded, deleteUser_of_isPlain isPlain.username, deleteLines_append_eq ended.shadow]
      rfl

/-- One user's line. -/
theorem passwd_userAdded {entry : Entry} (plain : entry.Plain tools) (wellFormed : WellFormed first)
    {found : Found} (done : Completes tools entry first found) :
    (userAdded tools entry found first).passwd = first.passwd.enterAll [(entry.username,
      passwdLine entry found.uid (gidFor (registryOf first.group) entry.group)
        (homeText entry.home))] := by
  have printed := done.gid
  rw [idsOf_eq tools wellFormed.group plain.group] at printed
  rw [userAdded, deleteUser_of_isPlain plain.username, printfIds_eq printed, homeOf_eq done.home,
    deleteLines_append_eq wellFormed.passwdEnded]
  rfl

theorem passwd_addUsers_explicit {users : List Entry}
    (plain : ∀ entry ∈ users, entry.Plain tools ∧ entry.username ≠ [])
    (explicit : ∀ entry ∈ users, isExplicit entry.uid = true) (wellFormed : WellFormed first)
    (uids : Text → ℕ) (completes : addUsers tools users first = .ok last) :
    last.passwd =
      first.passwd.enterAll (passwdPairs uids (registryOf first.group) users) := by
  induction users generalizing first with
  | nil =>
    cases completes
    rfl
  | cons entry rest inductionHypothesis =>
    obtain ⟨next, step, later⟩ := foldlM_cons_eq_ok.mp completes
    obtain ⟨found, done, rfl⟩ := addOneUser_eq_ok.mp step
    obtain ⟨isPlain, named⟩ := plain entry List.mem_cons_self
    have isExplicit := explicit entry List.mem_cons_self
    have isValue := eq_explicitId_of_chooseId isExplicit done.uid
    obtain ⟨nextForm, _, group⟩ := registry_userAdded isPlain named wellFormed isValue
    rw [inductionHypothesis (fun other inside => plain other (List.mem_cons_of_mem entry inside))
      (fun other inside => explicit other (List.mem_cons_of_mem entry inside)) nextForm later,
      passwd_userAdded isPlain wellFormed done, group, isValue]
    rw [passwdPairs, passwdPairs, List.map_cons, idFor, if_pos isExplicit]
    rfl

theorem passwd_addUsers_automatic {users : List Entry}
    (plain : ∀ entry ∈ users, entry.Plain tools ∧ entry.username ≠ [])
    (automatic : ∀ entry ∈ users, isAutomatic entry.uid = true) (wellFormed : WellFormed first)
    {uids : Text → ℕ} (completes : addUsers tools users first = .ok last)
    (reads : ∀ entry ∈ users, ∀ id, (entry.username, id) ∈ registryOf last.passwd →
      uids entry.username = id) :
    last.passwd =
      first.passwd.enterAll (passwdPairs uids (registryOf first.group) users) := by
  induction users generalizing first with
  | nil =>
    cases completes
    rfl
  | cons entry rest inductionHypothesis =>
    obtain ⟨next, step, later⟩ := foldlM_cons_eq_ok.mp completes
    obtain ⟨found, done, rfl⟩ := addOneUser_eq_ok.mp step
    obtain ⟨isPlain, named⟩ := plain entry List.mem_cons_self
    have isAutomatic := automatic entry List.mem_cons_self
    have plainLater : ∀ other ∈ rest, other.Plain tools ∧ other.username ≠ [] :=
      fun other inside => plain other (List.mem_cons_of_mem entry inside)
    have automaticLater : ∀ other ∈ rest, Users.isAutomatic other.uid = true :=
      fun other inside => automatic other (List.mem_cons_of_mem entry inside)
    obtain ⟨id, isValue, finds⟩ := generateId_eq_ok wellFormed.passwd
      (findsIds_of_isPlain tools isPlain.username _)
      (generate_eq_ok_of_chooseId isAutomatic done.uid)
    obtain ⟨nextForm, entered, group⟩ := registry_userAdded isPlain named wellFormed isValue
    -- the later allocations keep the uid that is entered here
    obtain ⟨_, allocates, _⟩ := registry_addUsers_automatic plainLater automaticLater nextForm later
    have isId : uids entry.username = id := by
      refine reads entry List.mem_cons_self id (allocates.mem_of_shown (shows_nearest (by decide))
        ?_ (nearest_of_generateId (by decide) finds))
      rw [entered]
      exact mem_put.mpr (Or.inl ⟨rfl, rfl⟩)
    rw [inductionHypothesis plainLater automaticLater nextForm later
      (fun other inside => reads other (List.mem_cons_of_mem entry inside)),
      passwd_userAdded isPlain wellFormed done, group, isValue]
    rw [passwdPairs, passwdPairs, List.map_cons, idFor_of_isAutomatic isAutomatic, isId]
    rfl

end Users

end Buildroot4G.Users
