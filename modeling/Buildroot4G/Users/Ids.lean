/-
This file shows that `mkusers` keeps a registry of gids in the group file and one of
uids in the password file. In a completed run whose additions take the names as they
stand each of the two registries first gets the ids that the table asks for and then the
ids that `generate_gid` and `generate_uid` allocate; awk's comparison of two names is the
key under which the registry looks names up, and an id is shown as the double that awk has
for it. The results about ids follow from the theory of registries.
-/

import Buildroot4G.Registry.Repeated
import Buildroot4G.Users.Steps

namespace Buildroot4G.Users

open Shell Fold Registry Double

/-! ### The registry of a file -/

/-- The name of a line and its id. -/
def idEntry (line : Line) : Text × ℕ := (line.field 1, number (line.field 3))

def registryOf (file : File) : Registry Text := file.lines.map idEntry

/-- The registry as awk has it. -/
def seenRegistry (file : File) : Registry Text :=
  (registryOf file).map fun entry => (entry.1, nearest entry.2)

/-- A line that gives a name an id. -/
structure HasId (line : Line) : Prop where
  fields : 3 ≤ line.length
  named : line.field 1 ≠ []
  oneLine : '\n' ∉ line.field 1
  number : IsNumber (line.field 3)

instance (text : Text) : Decidable (IsNumber text) :=
  decidable_of_iff (text ≠ [] ∧ text.all Char.isDigit = true)
    (and_congr_right fun _ => List.all_eq_true)

instance : DecidablePred HasId := fun line =>
  decidable_of_iff (3 ≤ line.length ∧ line.field 1 ≠ [] ∧ '\n' ∉ line.field 1 ∧
      IsNumber (line.field 3))
    ⟨fun ⟨fields, named, oneLine, number⟩ => ⟨fields, named, oneLine, number⟩,
      fun form => ⟨form.fields, form.named, form.oneLine, form.number⟩⟩

theorem Line.equals_eq {n : Nat} {line : Line} (has : n - 1 < line.length) (value : Strnum) :
    line.equals n value = decide (strnum (line.field n) = value) := by
  rw [Line.equals, Line.field, List.getElem?_eq_getElem has]
  rfl

theorem shows_nearest {high : ℕ} (small : high < 2 ^ 53) : Shows nearest high :=
  ⟨nearest_nearest, fun _ _ le => nearest_eq_iff (le.trans_lt small)⟩

theorem variableValue_eq {name : Text} (noEscape : '\\' ∉ name) (tools : Tools) :
    variableValue tools name = strnum name := by
  rw [variableValue, if_neg noEscape]

section File

variable {tools : Tools} {file : File}

/-- awk finds the ids that the registry finds, and prints the doubles. -/
theorem idsUnder_eq (forms : ∀ line ∈ file, HasId line) (name : Text) :
    idsUnder (strnum name) 3 file =
      ((found strnum name (registryOf file)).map nearest).map Nat.cast := by
  rw [idsUnder, found, registryOf, List.filter_map, List.map_map, List.map_map, List.map_map]
  have same : file.lines.filter (Line.equals 1 (strnum name)) =
      file.lines.filter ((fun entry => decide (strnum entry.1 = strnum name)) ∘ idEntry) := by
    refine List.filter_congr fun line member => ?_
    have three := (forms line member).fields
    rw [Line.equals_eq (by omega)]
    rfl
  rw [same]
  exact List.map_congr_left fun line member =>
    (forms line (List.mem_of_mem_filter member)).number.awkInt

theorem mem_intercalate {lines : List Text} {line : Text} {c : Char} (inside : line ∈ lines)
    (member : c ∈ line) : c ∈ ['\n'].intercalate lines := by
  induction lines with
  | nil => cases inside
  | cons head rest inductionHypothesis =>
    cases rest with
    | nil =>
      rw [List.mem_singleton.mp inside] at member
      simpa [List.intercalate] using member
    | cons next rest =>
      rw [List.intercalate_cons_cons, List.mem_append, List.mem_append]
      rcases List.mem_cons.mp inside with rfl | later
      · exact Or.inl (Or.inl member)
      · exact Or.inr (inductionHypothesis later)

/-- Nothing captured means no names printed. -/
theorem eq_nil_of_capture_eq_nil {lines : List Text} (nothing : capture lines = [])
    (named : ∀ line ∈ lines, line ≠ [] ∧ '\n' ∉ line) : lines = [] := by
  rw [capture, List.reverse_eq_nil_iff, List.dropWhile_eq_nil_iff] at nothing
  refine List.eq_nil_iff_forall_not_mem.mpr fun line inside => ?_
  obtain ⟨nonempty, oneLine⟩ := named line inside
  obtain ⟨c, member⟩ := List.exists_mem_of_ne_nil line nonempty
  have newline := nothing c (List.mem_reverse.mpr (mem_intercalate inside member))
  exact oneLine (beq_iff_eq.mp newline ▸ member)

/-- awk prints the names that have a number. -/
theorem namesOf_eq (forms : ∀ line ∈ file, HasId line) {text : Text} {id : ℕ}
    (reads : variableValue tools text = .number (nearest id)) :
    namesOf tools text file = holders (nearest id) (seenRegistry file) := by
  rw [namesOf, holders, seenRegistry, registryOf, List.map_map, List.filter_map, List.map_map,
    reads]
  have same : file.lines.filter (Line.equals 3 (.number (nearest id))) =
      file.lines.filter ((fun entry => decide (entry.2 = nearest id)) ∘
        ((fun entry => (entry.1, nearest entry.2)) ∘ idEntry)) := by
    refine List.filter_congr fun line member => ?_
    have three := (forms line member).fields
    rw [Line.equals_eq (by omega), (forms line member).number.strnum]
    refine decide_eq_decide.mpr ?_
    rw [Strnum.number.injEq, Nat.cast_inj]
    rfl
  rw [same]
  rfl

theorem variableValue_decimal (id : ℕ) :
    variableValue tools (decimal id) = .number (nearest id) := by
  have noEscape : '\\' ∉ decimal id := not_mem_showInt rfl (by decide) (Int.ofNat id)
  rw [variableValue_eq noEscape, (isNumber_decimal id).strnum, number_decimal]

variable (tools) in
/-- An id for which awk prints no name is not in the registry. -/
theorem not_mem_ids_of_capture (forms : ∀ line ∈ file, HasId line) {id : ℕ}
    (nothing : capture (namesOf tools (decimal id) file) = []) : id ∉ ids (registryOf file) := by
  have none := eq_nil_of_capture_eq_nil nothing fun name printed => by
    obtain ⟨line, member, rfl⟩ := List.mem_map.mp printed
    have form := forms line (List.mem_of_mem_filter member)
    exact ⟨form.named, form.oneLine⟩
  rw [namesOf_eq forms (variableValue_decimal id), holders_eq_nil_iff] at none
  intro used
  obtain ⟨name, has⟩ := mem_ids.mp used
  exact none (mem_ids.mpr ⟨name, List.mem_map.mpr ⟨_, has, rfl⟩⟩)

/-- What `generate_gid` and `generate_uid` do: they report the id that the registry has, or take
an unused one of the range. -/
theorem generateId_eq_ok (forms : ∀ line ∈ file, HasId line) {name : Text}
    (finds : FindsIds tools name file) {low high : ℕ} {format : String} {value : Int}
    (generates : generateId tools low high format name file = .ok value) :
    ∃ id : ℕ, value = id ∧ ((found strnum name (registryOf file)).map nearest = [id] ∨
      found strnum name (registryOf file) = [] ∧ low ≤ id ∧ id ≤ high ∧
        id ∉ ids (registryOf file)) := by
  rw [generateId, finds, idsUnder_eq forms] at generates
  cases holds : found strnum name (registryOf file) with
  | nil =>
    rw [holds] at generates
    simp only [List.map_nil] at generates
    split at generates
    · rename_i id first
      refine ⟨id, (Except.ok.inj generates).symm, Or.inr ⟨rfl, ?_⟩⟩
      have range := List.mem_range'_1.mp (List.mem_of_find?_eq_some first)
      refine ⟨range.1, by omega, not_mem_ids_of_capture tools forms ?_⟩
      have unused := List.find?_some first
      exact of_decide_eq_true unused
    · cases generates
  | cons id rest =>
    rw [holds] at generates
    cases rest with
    | nil =>
      change (if FitsInt (nearest id : ℕ) then _ else _) = _ at generates
      split at generates
      · exact ⟨nearest id, (Except.ok.inj generates).symm, Or.inl rfl⟩
      · cases generates
    | cons next rest => cases generates

/-- The id is a double. -/
theorem nearest_of_generateId {name : Text} {low high id : ℕ} (small : high < 2 ^ 53)
    (finds : (found strnum name (registryOf file)).map nearest = [id] ∨
      found strnum name (registryOf file) = [] ∧ low ≤ id ∧ id ≤ high ∧
        id ∉ ids (registryOf file)) : nearest id = id := by
  rcases finds with one | ⟨_, _, below, _⟩
  · obtain ⟨_, number, _, _, rfl⟩ := exists_of_one one
    exact nearest_nearest number
  · exact nearest_of_lt (below.trans_lt small)

theorem headed_eq {line : Line} (form : HasId line) (name : Text) :
    headed name line = decide (line.field 1 = name) := by
  have three := form.fields
  cases line with
  | nil => cases three
  | cons first rest =>
    rw [headed, decide_eq_true (by omega : 2 ≤ (first :: rest).length), Bool.and_true]
    simp [Line.field]

/-- Deleting a name and appending its line enters it in the registry. -/
theorem registryOf_deleteLines_append (forms : ∀ line ∈ file, HasId line) {name : Text}
    (ended : (deleteLines name file).ended = true) {id : ℕ} {line : Line}
    (isEntry : idEntry line = (name, id)) :
    registryOf ((deleteLines name file).append line) = put name id (registryOf file) := by
  rw [File.append_eq ended, registryOf, List.map_append, List.map_singleton, isEntry, put,
    registryOf, deleteLines, File.filter, List.filter_map]
  refine congrArg (fun kept : List Line => kept.map idEntry ++ [(name, id)]) ?_
  refine List.filter_congr fun other member => ?_
  rw [headed_eq (forms other member)]
  by_cases same : other.field 1 = name
  · simp [idEntry, same]
  · simp [idEntry, same]

end File

/-! ### Ids of the table -/

/-- The id that an explicit id of the table is entered with. -/
def explicitId (id : Text) : ℕ := (printfInt id).1.toNat

theorem testInt_of_isExplicit {id : Text} (explicit : isExplicit id = true) :
    ∃ value, testInt id = some value ∧ 0 ≤ value := by
  rw [isExplicit] at explicit
  cases reads : testInt id with
  | none =>
    rw [reads] at explicit
    cases explicit
  | some value =>
    rw [reads] at explicit
    exact ⟨value, rfl, of_decide_eq_true explicit⟩

theorem chooseId_of_isExplicit {id : Text} (explicit : isExplicit id = true)
    {generate : Except Failure Int} : chooseId generate id = .ok (printfInt id) := by
  obtain ⟨number, reads, nonneg⟩ := testInt_of_isExplicit explicit
  rw [chooseId, if_neg]
  rw [reads]
  intro same
  have := Option.some.inj same
  omega

theorem eq_explicitId_of_chooseId {id : Text} (explicit : isExplicit id = true)
    {generate : Except Failure Int} {value : Int} {accepted : Bool}
    (chosen : chooseId generate id = .ok (value, accepted)) : value = explicitId id := by
  obtain ⟨number, reads, nonneg⟩ := testInt_of_isExplicit explicit
  rw [chooseId_of_isExplicit explicit] at chosen
  have isValue : (printfInt id).1 = value := congrArg Prod.fst (Except.ok.inj chosen)
  rw [explicitId, isValue, Int.toNat_of_nonneg]
  rw [← isValue]
  exact (printfInt_le reads nonneg).1

theorem generate_eq_ok_of_chooseId {id : Text} (automatic : isAutomatic id = true)
    {generate : Except Failure Int} {value : Int} {accepted : Bool}
    (chosen : chooseId generate id = .ok (value, accepted)) : generate = .ok value := by
  rw [chooseId, if_pos (of_decide_eq_true automatic)] at chosen
  cases generate with
  | error failure => cases chosen
  | ok id => exact congrArg Except.ok (congrArg Prod.fst (Except.ok.inj chosen))

/-- The gids the table asks for. -/
def groupRequests (entries : List Entry) : List (Text × ℕ) :=
  (explicitGroups entries).map fun group => (group.1, explicitId group.2)

/-- The groups whose gid is automatic. -/
def autoGroups (tools : Tools) (entries : List Entry) : List Text :=
  (automaticGroups tools entries).map Prod.fst

/-- The uids the table asks for. -/
def userRequests (entries : List Entry) : List (Text × ℕ) :=
  (explicitUsers entries).map fun entry => (entry.username, explicitId entry.uid)

/-- The users whose uid is automatic. -/
def autoUsers (entries : List Entry) : List Text :=
  (automaticUsers entries).map Entry.username

/-! ### Records -/

theorem hasId_groupLine {group : Text} (field : IsField group) (id : ℕ) :
    HasId (groupLine group id) ∧ idEntry (groupLine group id) = (group, id) := by
  rw [groupLine_eq field.noColon]
  exact ⟨⟨by simp, field.named, field.oneLine, isNumber_decimal id⟩,
    Prod.ext rfl (number_decimal id)⟩

theorem passwdLine_eq {entry : Entry} (noColon : ':' ∉ entry.username) (uid gid : Int)
    (home : Text) : ∃ rest, passwdLine entry uid gid home =
      entry.username :: "x".toList :: showInt uid :: showInt gid :: rest := by
  have number : ∀ id, (showInt id).splitOn ':' = [showInt id] := fun id =>
    List.splitOn_eq_singleton (not_mem_showInt rfl (by decide) id)
  simp only [passwdLine, record, List.flatMap_cons, List.splitOn_eq_singleton noColon, number]
  exact ⟨_, rfl⟩

theorem hasId_passwdLine {entry : Entry} (field : IsField entry.username) (uid : ℕ) (gid : Int)
    (home : Text) :
    HasId (passwdLine entry uid gid home) ∧
      idEntry (passwdLine entry uid gid home) = (entry.username, uid) := by
  obtain ⟨rest, same⟩ := passwdLine_eq field.noColon uid gid home
  rw [same]
  exact ⟨⟨by simp, field.named, field.oneLine, isNumber_decimal uid⟩,
    Prod.ext rfl (number_decimal uid)⟩

/-! ### The group file -/

/-- A line that gives a group a gid. -/
structure GivesGid (line : Line) : Prop where
  hasId : HasId line
  form : GroupForm line

instance : DecidablePred GivesGid := fun line =>
  decidable_of_iff (HasId line ∧ GroupForm line)
    ⟨fun ⟨hasId, form⟩ => ⟨hasId, form⟩, fun gives => ⟨gives.hasId, gives.form⟩⟩

section Groups

variable {tools : Tools} {first last : Target}

/-- A group that is added is entered in the registry. -/
theorem group_groupAdded {group : Text}
    (writes : WritesLine (deleteGroup tools group) group first.group)
    (forms : ∀ line ∈ first.group, GivesGid line) (gid : ℕ) :
    (∀ line ∈ (groupAdded tools group gid first).group, GivesGid line) ∧
      registryOf (groupAdded tools group gid first).group =
        put group gid (registryOf first.group) := by
  obtain ⟨form, isEntry⟩ := hasId_groupLine writes.field gid
  refine ⟨writes.forall_mem_append forms
    ⟨form, groupForm_groupLine writes.field.noColon writes.field.noComma gid⟩, ?_⟩
  rw [groupAdded, writes.append_eq]
  exact registryOf_deleteLines_append (fun line inside => (forms line inside).hasId) writes.ended
    isEntry

theorem GivesGid.editLine {line : Line} (gives : GivesGid line) (edits : List (Text × Text)) :
    GivesGid (editLine edits line) ∧ idEntry (Users.editLine edits line) = idEntry line := by
  obtain ⟨form, same⟩ := gives.form.editLine edits
  obtain ⟨fields, named, oneLine, number⟩ := gives.hasId
  have name := Line.field_eq_of_take same (n := 1) (by decide)
  have id := Line.field_eq_of_take same (n := 3) (by decide)
  have three : 3 ≤ (Users.editLine edits line).length := by
    rw [form.length]
    decide
  refine ⟨⟨⟨three, name ▸ named, name ▸ oneLine, id ▸ number⟩, form⟩, ?_⟩
  rw [idEntry, name, id]
  rfl

/-- Adding members changes no name and no gid. -/
theorem group_addMembers {entry : Entry} {file : File} (joins : JoinsGroups tools entry file)
    (forms : ∀ line ∈ file, GivesGid line) :
    (∀ line ∈ addMembers tools entry file, GivesGid line) ∧
      registryOf (addMembers tools entry file) = registryOf file := by
  rw [joins.joins]
  refine ⟨fun line member => ?_, ?_⟩
  · obtain ⟨old, inside, rfl⟩ := File.mem_map.mp member
    exact ((forms old inside).editLine _).1
  · rw [registryOf, File.map, List.map_map, registryOf]
    exact List.map_congr_left fun line member => ((forms line member).editLine _).2

theorem group_addGroups_explicit {groups : List (Text × Text)}
    (every : EveryStep (fun target group => addOneGroup tools group.1 group.2 target)
      (fun group target => EntersGroup tools group target.group) groups first)
    (explicit : ∀ group ∈ groups, isExplicit group.2 = true)
    (forms : ∀ line ∈ first.group, GivesGid line)
    (completes : addGroups tools groups first = .ok last) :
    (∀ line ∈ last.group, GivesGid line) ∧
      registryOf last.group =
        assign (groups.map fun group => (group.1, explicitId group.2))
          (registryOf first.group) := by
  induction groups generalizing first with
  | nil =>
    cases completes
    exact ⟨forms, rfl⟩
  | cons group rest inductionHypothesis =>
    obtain ⟨next, step, later⟩ := foldlM_cons_eq_ok.mp completes
    obtain ⟨here, everyLater⟩ := everyStep_cons.mp every
    obtain ⟨value, chosen, rfl⟩ := addOneGroup_eq_ok.mp step
    have isValue := eq_explicitId_of_chooseId (explicit group List.mem_cons_self) chosen
    obtain ⟨nextForms, entered⟩ := group_groupAdded here.writes forms (explicitId group.2)
    rw [← isValue] at nextForms entered
    obtain ⟨lastForms, assigned⟩ := inductionHypothesis (everyLater _ step)
      (fun other inside => explicit other (List.mem_cons_of_mem group inside)) nextForms later
    rw [entered] at assigned
    exact ⟨lastForms, assigned⟩

theorem group_addGroups_automatic {groups : List (Text × Text)}
    (every : EveryStep (fun target group => addOneGroup tools group.1 group.2 target)
      (fun group target => EntersGroup tools group target.group) groups first)
    (automatic : ∀ group ∈ groups, isAutomatic group.2 = true)
    (forms : ∀ line ∈ first.group, GivesGid line)
    (completes : addGroups tools groups first = .ok last) :
    (∀ line ∈ last.group, GivesGid line) ∧
      Allocate strnum nearest minGid maxGid (groups.map Prod.fst) (registryOf first.group)
        (registryOf last.group) := by
  induction groups generalizing first with
  | nil =>
    cases completes
    exact ⟨forms, .done _⟩
  | cons group rest inductionHypothesis =>
    obtain ⟨next, step, later⟩ := foldlM_cons_eq_ok.mp completes
    obtain ⟨here, everyLater⟩ := everyStep_cons.mp every
    obtain ⟨value, chosen, rfl⟩ := addOneGroup_eq_ok.mp step
    have isAutomatic := automatic group List.mem_cons_self
    obtain ⟨id, rfl, finds⟩ := generateId_eq_ok (fun line inside => (forms line inside).hasId)
      (here.finds isAutomatic) (generate_eq_ok_of_chooseId isAutomatic chosen)
    obtain ⟨nextForms, entered⟩ := group_groupAdded here.writes forms id
    obtain ⟨lastForms, allocates⟩ := inductionHypothesis (everyLater _ step)
      (fun other inside => automatic other (List.mem_cons_of_mem group inside)) nextForms later
    rw [entered] at allocates
    refine ⟨lastForms, ?_⟩
    rcases finds with one | ⟨none, above, below, unused⟩
    · exact .known one allocates
    · exact .fresh none above below unused allocates

/-- The users change no name and no gid. -/
theorem group_addUsers {entries : List Entry}
    (every : EveryStep (fun target entry => addOneUser tools entry target)
      (fun entry target => JoinsGroups tools entry target.group) entries first)
    (forms : ∀ line ∈ first.group, GivesGid line)
    (completes : addUsers tools entries first = .ok last) :
    (∀ line ∈ last.group, GivesGid line) ∧ registryOf last.group = registryOf first.group := by
  refine relation_of_everyStep (fun _ target => (∀ line ∈ target.group, GivesGid line) ∧
    registryOf target.group = registryOf first.group) every completes ⟨forms, rfl⟩ ?_
  rintro - entry before after joins ⟨formsBefore, same⟩ step
  obtain ⟨found, _, rfl⟩ := addOneUser_eq_ok.mp step
  obtain ⟨formsAfter, added⟩ := group_addMembers joins formsBefore
  exact ⟨formsAfter, added.trans same⟩

end Groups

/-! ### The password file -/

section Users

variable {tools : Tools} {first last : Target}

/-- A user that is added is entered in the registry. -/
theorem passwd_userEntered {entry : Entry}
    (writes : WritesLine (deleteUser tools entry.username) entry.username first.passwd)
    (forms : ∀ line ∈ first.passwd, HasId line) {found : Found} {uid : ℕ}
    (isUid : found.uid = uid) :
    (∀ line ∈ (userAdded tools entry found first).passwd, HasId line) ∧
      registryOf (userAdded tools entry found first).passwd =
        put entry.username uid (registryOf first.passwd) := by
  obtain ⟨form, isEntry⟩ := hasId_passwdLine writes.field uid found.gid found.home
  rw [← isUid] at form isEntry
  refine ⟨writes.forall_mem_append forms form, ?_⟩
  rw [userAdded, writes.append_eq]
  exact registryOf_deleteLines_append forms writes.ended isEntry

theorem passwd_addUsers_assign {entries : List Entry}
    (every : EveryStep (fun target entry => addOneUser tools entry target)
      (fun entry target => EntersUser tools entry target.passwd) entries first)
    (explicit : ∀ entry ∈ entries, isExplicit entry.uid = true)
    (forms : ∀ line ∈ first.passwd, HasId line)
    (completes : addUsers tools entries first = .ok last) :
    (∀ line ∈ last.passwd, HasId line) ∧
      registryOf last.passwd =
        assign (entries.map fun entry => (entry.username, explicitId entry.uid))
          (registryOf first.passwd) := by
  induction entries generalizing first with
  | nil =>
    cases completes
    exact ⟨forms, rfl⟩
  | cons entry rest inductionHypothesis =>
    obtain ⟨next, step, later⟩ := foldlM_cons_eq_ok.mp completes
    obtain ⟨here, everyLater⟩ := everyStep_cons.mp every
    obtain ⟨found, done, rfl⟩ := addOneUser_eq_ok.mp step
    have isValue := eq_explicitId_of_chooseId (explicit entry List.mem_cons_self) done.uid
    obtain ⟨nextForms, entered⟩ := passwd_userEntered here.writes forms isValue
    obtain ⟨lastForms, assigned⟩ := inductionHypothesis (everyLater _ step)
      (fun other inside => explicit other (List.mem_cons_of_mem entry inside)) nextForms later
    rw [entered] at assigned
    exact ⟨lastForms, assigned⟩

theorem passwd_addUsers_allocate {entries : List Entry}
    (every : EveryStep (fun target entry => addOneUser tools entry target)
      (fun entry target => EntersUser tools entry target.passwd) entries first)
    (automatic : ∀ entry ∈ entries, isAutomatic entry.uid = true)
    (forms : ∀ line ∈ first.passwd, HasId line)
    (completes : addUsers tools entries first = .ok last) :
    (∀ line ∈ last.passwd, HasId line) ∧
      Allocate strnum nearest minUid maxUid (entries.map Entry.username) (registryOf first.passwd)
        (registryOf last.passwd) := by
  induction entries generalizing first with
  | nil =>
    cases completes
    exact ⟨forms, .done _⟩
  | cons entry rest inductionHypothesis =>
    obtain ⟨next, step, later⟩ := foldlM_cons_eq_ok.mp completes
    obtain ⟨here, everyLater⟩ := everyStep_cons.mp every
    obtain ⟨found, done, rfl⟩ := addOneUser_eq_ok.mp step
    have isAutomatic := automatic entry List.mem_cons_self
    obtain ⟨id, isId, finds⟩ := generateId_eq_ok forms (here.finds isAutomatic)
      (generate_eq_ok_of_chooseId isAutomatic done.uid)
    obtain ⟨nextForms, entered⟩ := passwd_userEntered here.writes forms isId
    obtain ⟨lastForms, allocates⟩ := inductionHypothesis (everyLater _ step)
      (fun other inside => automatic other (List.mem_cons_of_mem entry inside)) nextForms later
    rw [entered] at allocates
    refine ⟨lastForms, ?_⟩
    rcases finds with one | ⟨none, above, below, unused⟩
    · exact .known one allocates
    · exact .fresh none above below unused allocates

end Users

/-! ### Completed runs -/

/-- What a run does to the gids: requests first, then allocations. -/
def RegisteredGids (tools : Tools) (entries : List Entry) (before after : File) : Prop :=
  Allocate strnum nearest minGid maxGid (autoGroups tools entries)
    (assign (groupRequests entries) (registryOf before)) (registryOf after)

/-- What a run does to the uids. -/
def RegisteredUids (entries : List Entry) (before after : File) : Prop :=
  Allocate strnum nearest minUid maxUid (autoUsers entries)
    (assign (userRequests entries) (registryOf before)) (registryOf after)

section Run

variable {tools : Tools} {first last : Target}

theorem isExplicit_of_mem_groups {entries : List Entry} :
    ∀ group ∈ explicitGroups entries, isExplicit group.2 = true := by
  intro group inside
  obtain ⟨entry, member, rfl⟩ := List.mem_map.mp inside
  exact (List.mem_filter.mp member).2

theorem isAutomatic_of_mem_groups {entries : List Entry} :
    ∀ group ∈ automaticGroups tools entries, isAutomatic group.2 = true := by
  intro group inside
  rcases List.mem_append.mp inside with main | extra
  · obtain ⟨entry, member, rfl⟩ := List.mem_map.mp main
    exact (List.mem_filter.mp member).2
  · obtain ⟨name, _, rfl⟩ := List.mem_map.mp extra
    rfl

theorem isExplicit_of_mem_users {entries : List Entry} :
    ∀ entry ∈ explicitUsers entries, isExplicit entry.uid = true :=
  fun _ inside => (Bool.and_eq_true_iff.mp (List.mem_filter.mp inside).2).2

theorem isAutomatic_of_mem_users {entries : List Entry} :
    ∀ entry ∈ automaticUsers entries, isAutomatic entry.uid = true :=
  fun _ inside => (Bool.and_eq_true_iff.mp (List.mem_filter.mp inside).2).2

/-- A completed run whose additions take the names of the groups as they stand is a run of the
registry of gids. -/
theorem registeredGids_main {table : Text}
    (meets : RunMeets tools table (fun group target => EntersGroup tools group target.group)
      (fun entry target => JoinsGroups tools entry target.group) first)
    (forms : ∀ line ∈ first.group, GivesGid line)
    (completes : main tools table first = .ok last) :
    (∀ line ∈ last.group, GivesGid line) ∧
      RegisteredGids tools (tableEntries table) first.group last.group := by
  obtain ⟨_, middle, groups, users⟩ := main_eq_ok.mp completes
  obtain ⟨everyExplicit, everyAutomatic⟩ := everyStep_append.mp meets.groups
  have everyUser := meets.users middle groups
  obtain ⟨between, explicit, automatic⟩ := foldlM_append_eq_ok.mp groups
  obtain ⟨explicitForms, assigned⟩ := group_addGroups_explicit everyExplicit
    isExplicit_of_mem_groups forms explicit
  obtain ⟨automaticForms, allocated⟩ := group_addGroups_automatic (everyAutomatic between explicit)
    isAutomatic_of_mem_groups explicitForms automatic
  obtain ⟨lastForms, same⟩ := group_addUsers everyUser automaticForms users
  rw [assigned, ← same] at allocated
  exact ⟨lastForms, allocated⟩

/-- A completed run whose additions take the names of the users as they stand is a run of the
registry of uids. -/
theorem registeredUids_main {table : Text}
    (meets : RunMeets tools table (fun _ _ => True)
      (fun entry target => EntersUser tools entry target.passwd) first)
    (forms : ∀ line ∈ first.passwd, HasId line) (completes : main tools table first = .ok last) :
    (∀ line ∈ last.passwd, HasId line) ∧
      RegisteredUids (tableEntries table) first.passwd last.passwd := by
  obtain ⟨_, middle, groups, users⟩ := main_eq_ok.mp completes
  obtain ⟨everyExplicit, everyAutomatic⟩ := everyStep_append.mp (meets.users middle groups)
  obtain ⟨between, explicit, automatic⟩ := foldlM_append_eq_ok.mp users
  have same := passwd_addGroups groups
  obtain ⟨explicitForms, assigned⟩ := passwd_addUsers_assign everyExplicit
    isExplicit_of_mem_users (same ▸ forms) explicit
  obtain ⟨lastForms, allocated⟩ := passwd_addUsers_allocate (everyAutomatic between explicit)
    isAutomatic_of_mem_users explicitForms automatic
  rw [assigned, same] at allocated
  exact ⟨lastForms, allocated⟩

end Run

end Buildroot4G.Users
