/-
This file shows that a second run of a table on the files a first one left, when it
completes, leaves them as they are: it enters the same lines in the same order, with
the ids that the first run registered, and the lines it does not enter have nothing
to clean up.
-/

import Buildroot4G.Users.Writes

namespace Buildroot4G.Users

open Shell Fold Registry Keyed Double

/-! ### Repeated files -/

/-- No list of members has an empty one. -/
structure TidyTarget (target : Target) : Prop where
  group : ∀ line ∈ target.group, Tidy line
  gshadow : ∀ file, target.gshadow = some file → ∀ line ∈ file, Tidy line

/-- The files as the next run finds them. -/
def Target.reopened (target : Target) (salts : ℕ) : Target :=
  { target with salts := salts, script := [] }

/-- Two lines of the shadow file differ only in the salt of a password of the table. -/
def SameButSalt (tools : Tools) (users : List Entry) (first second : Line) : Prop :=
  first = second ∨ ∃ entry ∈ users, ∃ passwd passwd', IsPasswd tools entry passwd ∧
    IsPasswd tools entry passwd' ∧ first = shadowLine entry.username passwd ∧
    second = shadowLine entry.username passwd'

/-- The files are the same but for salts. -/
structure SameFiles (tools : Tools) (users : List Entry) (before after : Target) : Prop where
  passwd : after.passwd = before.passwd
  group : after.group = before.group
  gshadow : after.gshadow = before.gshadow
  shadow : List.Forall₂ (SameButSalt tools users) before.shadow.lines after.shadow.lines
  shadowEnded : after.shadow.ended = before.shadow.ended

/-- The groups a run enters, with the gids of the table. -/
def runGroups (tools : Tools) (entries : List Entry) : List (Text × Text) :=
  explicitGroups entries ++ automaticGroups tools entries

/-- The users a run adds. -/
def runUsers (entries : List Entry) : List Entry := explicitUsers entries ++ automaticUsers entries

/-- The explicit ids of the table are exact for awk. -/
structure SmallTable (entries : List Entry) : Prop where
  gids : ∀ request ∈ groupRequests entries, request.2 < 2 ^ 53
  uids : ∀ request ∈ userRequests entries, request.2 < 2 ^ 53

instance (entries : List Entry) : Decidable (SmallTable entries) :=
  decidable_of_iff ((∀ request ∈ groupRequests entries, request.2 < 2 ^ 53) ∧
      ∀ request ∈ userRequests entries, request.2 < 2 ^ 53)
    ⟨fun ⟨gids, uids⟩ => ⟨gids, uids⟩, fun small => ⟨small.gids, small.uids⟩⟩

/-! ### Edited lines -/

theorem Tidy.editLine {line : Line} (tidy : Tidy line) {edits : List (Text × Text)}
    (others : ∀ edit ∈ edits, Users.headed edit.2 line = false) : editLine edits line = line := by
  induction edits with
  | nil => rfl
  | cons edit rest inductionHypothesis =>
    have stays := tidy.addMemberLine (others edit List.mem_cons_self) edit.1
    change Users.editLine rest (Users.addMemberLine edit.1 edit.2 line) = line
    rw [stays]
    exact inductionHypothesis fun other inside => others other (List.mem_cons_of_mem edit inside)

/-- Entering lines of groups again behind edits of the file is entering them once. -/
theorem enterAll_edit {pairs : List (Text × Line)}
    (forms : ∀ pair ∈ pairs, GroupForm pair.2 ∧ pair.2.field 1 = pair.1) {file : File}
    (tidy : ∀ line ∈ file, Tidy line) {edits : List (Text × Text)}
    (entered : ∀ edit ∈ edits, edit.2 ∈ pairs.map Prod.fst) :
    ((file.enterAll pairs).map (editLine edits)).enterAll pairs = file.enterAll pairs := by
  have own : ∀ pair ∈ pairs, headed pair.1 pair.2 = true := by
    intro pair inside
    obtain ⟨form, isName⟩ := forms pair inside
    rw [form.headed, isName, decide_eq_true rfl]
  refine File.ext (enterAll_congr ((untouched_map (fun line inside free => ?_) ?_).trans
    (untouched_enterAll own file.lines))) rfl
  · rcases mem_of_mem_enterAll inside with old | ⟨pair, member, rfl⟩
    · exact (tidy line old).editLine fun edit isEdit => free edit.2 (entered edit isEdit)
    · have isHead := own pair member
      rw [free pair.1 (List.mem_map_of_mem member)] at isHead
      cases isHead
  · rintro line inside ⟨key, isKey, isHead⟩
    rw [File.enterAll, enterAll_eq, List.mem_append] at inside
    rcases inside with free | new
    · rw [(mem_untouched.mp free).2 key isKey] at isHead
      cases isHead
    · obtain ⟨pair, member, rfl⟩ := (mem_of_mem_enterAll new).resolve_left List.not_mem_nil
      obtain ⟨form, isName⟩ := forms pair member
      obtain ⟨editedForm, same⟩ := form.editLine edits
      have sameName := Line.field_eq_of_take same (n := 1) (by decide)
      refine ⟨pair.1, List.mem_map_of_mem member, ?_⟩
      rw [editedForm.headed, sameName, isName, decide_eq_true rfl]

/-! ### The lines of a run -/

section Lines

variable {tools : Tools}

theorem forms_groupPairs {groups : List (Text × Text)}
    (plain : ∀ group ∈ groups, isPlain group.1 = true) (gids : Text → ℕ) :
    ∀ pair ∈ groupPairs gids groups, GroupForm pair.2 ∧ pair.2.field 1 = pair.1 := by
  intro pair inside
  obtain ⟨group, member, rfl⟩ := List.mem_map.mp inside
  refine ⟨groupForm_groupLine (not_mem_of_isPlain (plain group member) (by decide))
    (not_mem_of_isPlain (plain group member) (by decide)) _, ?_⟩
  change (groupLine group.1 _).field 1 = group.1
  rw [groupLine_eq (not_mem_of_isPlain (plain group member) (by decide))]
  rfl

theorem forms_gshadowPairs {groups : List (Text × Text)}
    (plain : ∀ group ∈ groups, isPlain group.1 = true) :
    ∀ pair ∈ gshadowPairs groups, GroupForm pair.2 ∧ pair.2.field 1 = pair.1 := by
  intro pair inside
  obtain ⟨group, member, rfl⟩ := List.mem_map.mp inside
  have isPlain := plain group member
  have line : gshadowLine group.1 = [group.1, "*".toList, [], []] := by
    simp only [gshadowLine, record, List.flatMap_cons, splitOn_colon_of_isPlain isPlain]
    rfl
  change GroupForm (gshadowLine group.1) ∧ (gshadowLine group.1).field 1 = group.1
  rw [line]
  exact ⟨.line _ _ _ _ (not_mem_of_isPlain isPlain (by decide)) (by decide) (by decide), rfl⟩

theorem keys_groupPairs (gids : Text → ℕ) (groups : List (Text × Text)) :
    (groupPairs gids groups).map Prod.fst = groups.map Prod.fst := by
  rw [groupPairs, List.map_map]
  rfl

theorem keys_gshadowPairs (groups : List (Text × Text)) :
    (gshadowPairs groups).map Prod.fst = groups.map Prod.fst := by
  rw [gshadowPairs, List.map_map]
  rfl

/-- A user is added to groups that the run enters. -/
theorem mem_groups_of_mem_edits {entries : List Entry} {edit : Text × Text}
    (inside : edit ∈ memberEdits tools (runUsers entries)) :
    edit.2 ∈ (runGroups tools entries).map Prod.fst := by
  obtain ⟨entry, member, isEdit⟩ := List.mem_flatMap.mp inside
  obtain ⟨group, extra, rfl⟩ := List.mem_map.mp isEdit
  have asked : (group, "-1".toList) ∈ automaticGroups tools entries :=
    List.mem_append_right _ (List.mem_map_of_mem (f := fun group => (group, "-1".toList))
      (List.mem_flatMap.mpr ⟨entry, mem_of_mem_users member, extra⟩))
  exact List.mem_map_of_mem (List.mem_append_right _ asked)

theorem headed_shadowLine {username : Text} (plain : isPlain username = true) (name passwd : Text) :
    headed name (shadowLine username passwd) = decide (username = name) := by
  have line : ∃ field rest, shadowLine username passwd = username :: field :: rest := by
    simp only [shadowLine, record, List.cons_append, List.nil_append, List.flatMap_cons,
      splitOn_colon_of_isPlain plain]
    cases fields : passwd.splitOn ':' with
    | nil => exact absurd fields (List.splitOn_ne_nil ':' passwd)
    | cons field rest => exact ⟨field, _, rfl⟩
  obtain ⟨field, rest, same⟩ := line
  rw [same]
  simp [headed]

theorem headed_passwdLine {entry : Entry} (plain : isPlain entry.username = true) (uid gid : Int)
    (home : Text) : headed entry.username (passwdLine entry uid gid home) = true := by
  obtain ⟨rest, same⟩ := passwdLine_eq (not_mem_of_isPlain plain (by decide)) uid gid home
  rw [same]
  simp [headed]

end Lines

/-! ### The second run -/

section Run

variable {tools : Tools} {table : Text} {first last again : Target}

/-- What a completed run writes, with functions that read the automatic ids it ends with. -/
structure Written (tools : Tools) (entries : List Entry) (gids uids : Text → ℕ)
    (first last : Target) : Prop where
  passwd : last.passwd =
    first.passwd.enterAll (passwdPairs uids (registryOf last.group) (runUsers entries))
  group : last.group = (first.group.enterAll (groupPairs gids (runGroups tools entries))).map
    (editLine (memberEdits tools (runUsers entries)))
  gshadow : last.gshadow = first.gshadow.map fun file =>
    (file.enterAll (gshadowPairs (runGroups tools entries))).map
      (editLine (memberEdits tools (runUsers entries)))
  shadow : ∃ pairs, List.Forall₂ (IsShadowPair tools) (runUsers entries) pairs ∧
    last.shadow = first.shadow.enterAll pairs

theorem written_main (plain : ∀ entry ∈ tableEntries table, entry.Plain tools)
    (wellFormed : WellFormed first) (ended : EndedTarget first)
    (completes : main tools table first = .ok last) {gids uids : Text → ℕ}
    (readsGids : ∀ name ∈ autoGroups tools (tableEntries table), ∀ id,
      (name, id) ∈ registryOf last.group → gids name = id)
    (readsUids : ∀ name ∈ autoUsers (tableEntries table), ∀ id,
      (name, id) ∈ registryOf last.passwd → uids name = id) :
    Written tools (tableEntries table) gids uids first last := by
  obtain ⟨_, middle, groups, users⟩ := main_eq_ok.mp completes
  have plainGroups := plain_of_mem_groups plain
  have plainUsers := plain_of_mem_users plain
  generalize tableEntries table = entries
    at plainGroups plainUsers groups users readsGids readsUids ⊢
  obtain ⟨afterExplicit, explicit, automatic⟩ := foldlM_append_eq_ok.mp groups
  obtain ⟨afterUsers, explicitUser, automaticUser⟩ := foldlM_append_eq_ok.mp users
  obtain ⟨explicitForm, _, _⟩ := registry_addGroups_explicit
    (fun group inside => plainGroups group (List.mem_append_left _ inside))
    isExplicit_of_mem_groups wellFormed explicit
  obtain ⟨groupsForm, _, _⟩ := registry_addGroups_automatic
    (fun group inside => plainGroups group (List.mem_append_right _ inside))
    isAutomatic_of_mem_groups explicitForm automatic
  obtain ⟨usersForm, _, sameGroups⟩ := registry_addUsers_explicit
    (fun entry inside => plainUsers entry (List.mem_append_left _ inside))
    isExplicit_of_mem_users groupsForm explicitUser
  obtain ⟨_, _, sameGroups'⟩ := registry_addUsers_automatic
    (fun entry inside => plainUsers entry (List.mem_append_right _ inside))
    isAutomatic_of_mem_users usersForm automaticUser
  obtain ⟨afterExplicitEq, explicitEnded⟩ := addGroups_explicit_eq
    (fun group inside => (plainGroups group (List.mem_append_left _ inside)).1)
    isExplicit_of_mem_groups gids ended explicit
  obtain ⟨middleEq, middleEnded⟩ : middle = enterGroups gids (automaticGroups tools entries)
      afterExplicit ∧ EndedTarget middle :=
    addGroups_automatic_eq
    (fun group inside => plainGroups group (List.mem_append_right _ inside))
    isAutomatic_of_mem_groups explicitForm explicitEnded automatic fun group inside id has => by
      rw [← sameGroups, ← sameGroups'] at has
      exact readsGids group.1 (List.mem_map_of_mem inside) id has
  rw [afterExplicitEq, ← enterGroups_append] at middleEq
  have passwd := passwd_addUsers_explicit
    (fun entry inside => plainUsers entry (List.mem_append_left _ inside))
    isExplicit_of_mem_users groupsForm uids explicitUser
  have passwd' : last.passwd = afterUsers.passwd.enterAll
      (passwdPairs uids (registryOf afterUsers.group) (automaticUsers entries)) :=
    passwd_addUsers_automatic
    (fun entry inside => plainUsers entry (List.mem_append_right _ inside))
    isAutomatic_of_mem_users usersForm automaticUser fun entry inside id has =>
      readsUids entry.username (List.mem_map_of_mem inside) id has
  obtain ⟨group, gshadow, shadow⟩ :=
    usersWritten_addUsers (fun entry inside => (plainUsers entry inside).1) middleEnded users
  rw [middleEq] at group gshadow shadow
  refine ⟨?_, group, gshadow.trans (Option.map_map _ _ _), shadow⟩
  rw [passwd', passwd, sameGroups', sameGroups, middleEq, File.enterAll, File.enterAll,
    ← enterAll_append, passwdPairs, passwdPairs, passwdPairs, ← List.map_append]
  rfl

theorem Written.ended {entries : List Entry} {gids uids : Text → ℕ} {salts : ℕ}
    (written : Written tools entries gids uids first last) (ended : EndedTarget first) :
    EndedTarget (last.reopened salts) := by
  obtain ⟨_, _, shadow⟩ := written.shadow
  refine ⟨(congrArg File.ended written.passwd).trans ended.passwd,
    (congrArg File.ended shadow).trans ended.shadow,
    (congrArg File.ended written.group).trans ended.group, fun file isFile => ?_⟩
  obtain ⟨old, isOld, rfl⟩ := Option.map_eq_some_iff.mp (written.gshadow.symm.trans isFile)
  exact ended.gshadow old isOld

/-- An automatic id of a second round is the one of the first. -/
theorem idIn_of_again {low high low' high' : ℕ} {requests : List (Text × ℕ)} {autos : List Text}
    {before between after : Registry Text}
    (allocate : Allocate strnum plainly low high autos (assign requests before) between)
    (allocate' : Allocate strnum plainly low' high' autos (assign requests between) after)
    (nodup : (names before).Nodup) {name : Text} (member : name ∈ autos) {id : ℕ}
    (has : (name, id) ∈ after) : idIn between name = id := by
  have nodup' := allocate.nodup_names (nodup_names_assign nodup requests)
  obtain ⟨⟨_, number⟩, holds, rfl⟩ := List.mem_map.mp (allocate.mem_names.mpr (Or.inl member))
  rw [idIn_eq nodup' holds]
  have kept := allocate'.mem_of_mem ((mem_assign_again allocate nodup).mpr holds)
  exact eq_of_mem (allocate'.nodup_names (nodup_names_assign nodup' requests)) kept has

theorem keys_of_isShadowPair {users : List Entry} {pairs : List (Text × Line)}
    (arePairs : List.Forall₂ (IsShadowPair tools) users pairs) :
    pairs.map Prod.fst = users.map Entry.username := by
  induction arePairs with
  | nil => rfl
  | cons head _ inductionHypothesis =>
    obtain ⟨_, _, rfl⟩ := head
    rw [List.map_cons, List.map_cons, inductionHypothesis]

theorem headed_of_isShadowPair {users : List Entry}
    (plain : ∀ entry ∈ users, isPlain entry.username = true) {pairs : List (Text × Line)}
    (arePairs : List.Forall₂ (IsShadowPair tools) users pairs) :
    ∀ pair ∈ pairs, headed pair.1 pair.2 = true := by
  induction arePairs with
  | nil => nofun
  | cons head _ inductionHypothesis =>
    obtain ⟨isPlain, plainLater⟩ := List.forall_mem_cons.mp plain
    obtain ⟨passwd, _, rfl⟩ := head
    refine List.forall_mem_cons.mpr ⟨?_, inductionHypothesis plainLater⟩
    rw [headed_shadowLine isPlain, decide_eq_true rfl]

theorem headed_of_sameButSalt {users : List Entry}
    (plain : ∀ entry ∈ users, isPlain entry.username = true) {first second : Line}
    (same : SameButSalt tools users first second) (name : Text) :
    headed name first = headed name second := by
  rcases same with rfl | ⟨entry, inside, _, _, _, _, rfl, rfl⟩
  · rfl
  · rw [headed_shadowLine (plain entry inside), headed_shadowLine (plain entry inside)]

/-- The shadow file of a second run has the same lines but for salts. -/
theorem sameButSalt_enterAll {users : List Entry}
    (plain : ∀ entry ∈ users, isPlain entry.username = true)
    {pairs pairs' : List (Text × Line)} (arePairs : List.Forall₂ (IsShadowPair tools) users pairs)
    (arePairs' : List.Forall₂ (IsShadowPair tools) users pairs') (lines : List Line) :
    List.Forall₂ (SameButSalt tools users) (enterAll headed pairs lines)
      (enterAll headed pairs' (enterAll headed pairs lines)) := by
  have related : ∀ some pairs pairs', (∀ entry ∈ some, entry ∈ users) →
      List.Forall₂ (IsShadowPair tools) some pairs →
      List.Forall₂ (IsShadowPair tools) some pairs' →
      List.Forall₂ (fun first second => first.1 = second.1 ∧
        SameButSalt tools users first.2 second.2) pairs pairs' := by
    intro some pairs pairs' inside arePairs
    induction arePairs generalizing pairs' with
    | nil =>
      intro none
      cases none
      exact .nil
    | cons head _ inductionHypothesis =>
      rintro (_ | ⟨head', tail'⟩)
      obtain ⟨passwd, isPasswd, rfl⟩ := head
      obtain ⟨passwd', isPasswd', rfl⟩ := head'
      refine .cons ⟨rfl, Or.inr ⟨_, inside _ List.mem_cons_self, passwd, passwd', isPasswd,
        isPasswd', rfl, rfl⟩⟩ (inductionHypothesis _ ?_ tail')
      exact fun entry member => inside entry (List.mem_cons_of_mem _ member)
  have sameKeys : pairs'.map Prod.fst = pairs.map Prod.fst :=
    (keys_of_isShadowPair arePairs').trans (keys_of_isShadowPair arePairs).symm
  have once : enterAll headed pairs' (enterAll headed pairs lines) = enterAll headed pairs' lines :=
    enterAll_congr (by rw [sameKeys, untouched_enterAll (headed_of_isShadowPair plain arePairs)])
  have sameHeads : ∀ first second, SameButSalt tools users first second → ∀ name,
      headed name first = headed name second :=
    fun first second same name => headed_of_sameButSalt plain same name
  rw [once]
  exact forall₂_enterAll sameHeads
    (related users pairs pairs' (fun _ inside => inside) arePairs arePairs')
    (List.forall₂_same.mpr fun _ _ => Or.inl rfl)

/-- The same entries with the same ids are written over the files that they left. -/
theorem Written.sameFiles {entries : List Entry} {gids uids : Text → ℕ} {salts : ℕ}
    (written : Written tools entries gids uids first last)
    (written' : Written tools entries gids uids (last.reopened salts) again)
    (plainGroups : ∀ group ∈ runGroups tools entries, isPlain group.1 = true)
    (plainUsers : ∀ entry ∈ runUsers entries, isPlain entry.username = true)
    (tidy : TidyTarget first) : SameFiles tools (runUsers entries) last again := by
  have group : again.group = last.group := by
    refine written'.group.trans ?_
    change (last.group.enterAll _).map _ = last.group
    rw [written.group, enterAll_edit (forms_groupPairs plainGroups gids) tidy.group]
    rw [keys_groupPairs]
    exact fun edit isEdit => mem_groups_of_mem_edits isEdit
  obtain ⟨pairs, arePairs, shadow⟩ := written.shadow
  obtain ⟨pairs', arePairs', shadow'⟩ := written'.shadow
  refine ⟨?_, group, ?_, ?_, (congrArg File.ended shadow').trans rfl⟩
  · refine written'.passwd.trans ?_
    change last.passwd.enterAll _ = last.passwd
    rw [group, written.passwd]
    refine File.ext (enterAll_enterAll (fun pair inside => ?_) first.passwd.lines) rfl
    obtain ⟨entry, member, rfl⟩ := List.mem_map.mp inside
    exact headed_passwdLine (plainUsers entry member) _ _ _
  · refine written'.gshadow.trans ?_
    change last.gshadow.map _ = last.gshadow
    rw [written.gshadow]
    cases isFile : first.gshadow with
    | none => rfl
    | some file =>
      rw [Option.map_some, Option.map_some, enterAll_edit (forms_gshadowPairs plainGroups)
        (tidy.gshadow file isFile)]
      rw [keys_gshadowPairs]
      exact fun edit isEdit => mem_groups_of_mem_edits isEdit
  · rw [shadow', Target.reopened, shadow]
    exact sameButSalt_enterAll plainUsers arePairs arePairs' first.shadow.lines

/-- A registered run whose ids are all exact. -/
structure Allotted (tools : Tools) (entries : List Entry) (first last : Target) : Prop where
  group : Allocate strnum plainly minGid maxGid (autoGroups tools entries)
    (assign (groupRequests entries) (registryOf first.group)) (registryOf last.group)
  passwd : Allocate strnum plainly minUid maxUid (autoUsers entries)
    (assign (userRequests entries) (registryOf first.passwd)) (registryOf last.passwd)
  gids : SmallIds (registryOf last.group)
  uids : SmallIds (registryOf last.passwd)

theorem Registered.allotted {entries : List Entry}
    (registered : Registered tools entries first last) (small : SmallTable entries)
    (gids : SmallIds (registryOf first.group)) (uids : SmallIds (registryOf first.passwd)) :
    Allotted tools entries first last := by
  have assignedGids := forall_ids_assign gids small.gids
  have assignedUids := forall_ids_assign uids small.uids
  have group := registered.group.of_exact (shows_nearest (by decide))
    fun id inside => nearest_of_lt (assignedGids id inside)
  have passwd := registered.passwd.of_exact (shows_nearest (by decide))
    fun id inside => nearest_of_lt (assignedUids id inside)
  exact ⟨group, passwd,
    group.forall_ids assignedGids fun id le => le.trans_lt (by decide : maxGid < 2 ^ 53),
    passwd.forall_ids assignedUids fun id le => le.trans_lt (by decide : maxUid < 2 ^ 53)⟩

theorem WellFormed.reopened (wellFormed : WellFormed last) (salts : ℕ) :
    WellFormed (last.reopened salts) :=
  ⟨wellFormed.passwd, wellFormed.passwdEnded, wellFormed.group, wellFormed.groupEnded,
    wellFormed.groupForm⟩

/-- A second run that completes leaves the files as they are. -/
theorem sameFiles_of_completes (plain : ∀ entry ∈ tableEntries table, entry.Plain tools)
    (small : SmallTable (tableEntries table))
    (regular : Regular (runUsers (tableEntries table)) first) (tidy : TidyTarget first)
    (ended : EndedTarget first) (completes : main tools table first = .ok last) (salts : ℕ)
    (completes' : main tools table (last.reopened salts) = .ok again) :
    SameFiles tools (runUsers (tableEntries table)) last again := by
  have wellFormed := regular.wellFormed
  have users := regular.distinct.nodup_names
  have groups := regular.nodup
  obtain ⟨lastForm, registered⟩ := registered_main plain wellFormed completes
  obtain ⟨_, registered'⟩ := registered_main plain (lastForm.reopened salts) completes'
  have allotted := registered.allotted small regular.gids regular.uids
  have allotted' := registered'.allotted small allotted.gids allotted.uids
  have lastUsers := registered.passwd.nodup_names (nodup_names_assign users _)
  have lastGroups := registered.group.nodup_names (nodup_names_assign groups _)
  have written := written_main plain wellFormed ended completes
    (fun name _ id has => idIn_eq lastGroups has) (fun name _ id has => idIn_eq lastUsers has)
  have written' := written_main plain (lastForm.reopened salts) (written.ended ended) completes'
    (fun name member id has => idIn_of_again allotted.group allotted'.group groups member has)
    (fun name member id has => idIn_of_again allotted.passwd allotted'.passwd users member has)
  exact written.sameFiles written'
    (fun group inside => (plain_of_mem_groups plain group inside).1)
    (fun entry inside => (plain_of_mem_users plain entry inside).1.username) tidy

end Run

end Buildroot4G.Users
