/-
This file decides when a table can be run twice. A second run on the files of a
first one has the same effect as long as it completes, so the question is whether its
checks and lookups succeed. They do unless an explicit uid is read differently by `[`
and by `printf`, a user with an automatic uid has an alias, or a user's main group is
unknown while another group has the gid 0 that `printf` makes of it.
-/

import Buildroot4G.Users.Settled
import Buildroot4G.Users.UniqueIds

namespace Buildroot4G.Users

open Shell Fold Registry Keyed Double

/-- The groups of the file and of the table. -/
def knownGroups (tools : Tools) (entries : List Entry) (file : File) : List Text :=
  (runGroups tools entries).map Prod.fst ++ names (registryOf file)

/-- What a table must be like to be run again. -/
structure Repeatable (tools : Tools) (entries : List Entry) (first : Target) : Prop where
  readings : ∀ entry ∈ explicitUsers entries, testInt entry.uid = some (explicitId entry.uid : Int)
  aliases : NoAlias (userRequests entries) (autoUsers entries) first.passwd
  unknown : ∀ entry ∈ runUsers entries, entry.group ∉ knownGroups tools entries first.group →
    0 ∉ ids (assign (groupRequests entries) (registryOf first.group)) ∧
      ∀ name ∈ knownGroups tools entries first.group, strnum name ≠ strnum entry.group
  shared : ∀ entry ∈ runUsers entries, ∀ other ∈ runUsers entries,
    other.username = entry.username → entry.group = other.group ∨
      entry.group ∉ knownGroups tools entries first.group ∧
        other.group ∉ knownGroups tools entries first.group

section Run

variable {tools : Tools} {table : Text} {entries : List Entry} {first last again target : Target}

/-! ### The groups of a completed run -/

theorem mem_names_allotted (allotted : Allotted tools entries first last) (name : Text) :
    name ∈ names (registryOf last.group) ↔ name ∈ knownGroups tools entries first.group := by
  rw [allotted.group.mem_names, mem_names_assign, knownGroups, runGroups, List.map_append,
    List.mem_append, List.mem_append, autoGroups, groupRequests, List.map_map, or_left_comm,
    ← or_assoc]
  rfl

/-- The condition on the main groups, on the table and on the groups in the end. -/
theorem shareGroups_iff (allotted : Allotted tools entries first last)
    (unique : Unique (registryOf last.group))
    (printed : ∀ entry ∈ runUsers entries, ∃ gid,
      printfIds ((found strnum entry.group (registryOf last.group)).map Nat.cast) = (gid, true)) :
    ShareGroups (runUsers entries) (registryOf last.group) ↔
      (∀ entry ∈ runUsers entries, entry.group ∉ knownGroups tools entries first.group →
        0 ∉ ids (assign (groupRequests entries) (registryOf first.group)) ∧
          ∀ name ∈ knownGroups tools entries first.group, strnum name ≠ strnum entry.group) ∧
      ∀ entry ∈ runUsers entries, ∀ other ∈ runUsers entries,
        other.username = entry.username → entry.group = other.group ∨
          entry.group ∉ knownGroups tools entries first.group ∧
            other.group ∉ knownGroups tools entries first.group := by
  have zero : 0 ∈ ids (assign (groupRequests entries) (registryOf first.group)) ↔
      0 ∈ ids (registryOf last.group) := (allotted.group.mem_ids_iff (by decide)).symm
  simp only [← mem_names_allotted allotted, zero]
  have isGid : ∀ entry ∈ runUsers entries, ∀ name id, (name, id) ∈ registryOf last.group →
      strnum name = strnum entry.group → gidFor (registryOf last.group) entry.group = id :=
    fun entry inside name id has same =>
      (gidFor_of_found allotted.gids (printed entry inside).choose_spec
        (mem_found.mpr ⟨name, has, same⟩)).2
  constructor
  · intro share
    -- the group that has the gid of an entry is known
    have unused : ∀ entry ∈ runUsers entries, entry.group ∉ names (registryOf last.group) →
        ∀ group, (group, gidFor (registryOf last.group) entry.group) ∉ registryOf last.group :=
      fun entry inside missing group has => missing (mem_names.mpr
        ⟨_, share entry inside entry inside rfl group has ▸ has⟩)
    refine ⟨fun entry inside missing => ?_, fun entry inside other otherInside isUser => ?_⟩
    · have noAlias : ∀ name ∈ names (registryOf last.group), strnum name ≠ strnum entry.group := by
        intro name present aliased
        obtain ⟨id, has⟩ := mem_names.mp present
        refine unused entry inside missing name ?_
        rw [isGid entry inside name id has aliased]
        exact has
      refine ⟨fun used => ?_, noAlias⟩
      obtain ⟨group, has⟩ := mem_ids.mp used
      have nothing : found strnum entry.group (registryOf last.group) = [] :=
        List.eq_nil_iff_forall_not_mem.mpr fun id member => by
          obtain ⟨name, holds, aliased⟩ := mem_found.mp member
          exact noAlias name (mem_names.mpr ⟨id, holds⟩) aliased
      refine unused entry inside missing group ?_
      rw [gidFor, nothing]
      exact has
    · have same : ∀ entry ∈ runUsers entries, ∀ other ∈ runUsers entries,
          other.username = entry.username → entry.group ∈ names (registryOf last.group) →
          entry.group = other.group := by
        intro entry inside other otherInside isUser known
        obtain ⟨id, has⟩ := mem_names.mp known
        refine share entry inside other otherInside isUser entry.group ?_
        rw [isGid entry inside entry.group id has rfl]
        exact has
      by_cases known : entry.group ∈ names (registryOf last.group)
      · exact Or.inl (same entry inside other otherInside isUser known)
      · by_cases otherKnown : other.group ∈ names (registryOf last.group)
        · exact Or.inl (same other otherInside entry inside isUser.symm otherKnown).symm
        · exact Or.inr ⟨known, otherKnown⟩
  · rintro ⟨unknown, shared⟩ entry inside other otherInside isUser group has
    by_cases known : entry.group ∈ names (registryOf last.group)
    · obtain ⟨id, holds⟩ := mem_names.mp known
      rw [isGid entry inside entry.group id holds rfl] at has
      have sameGroup := unique _ has _ holds rfl
      exact ((shared entry inside other otherInside isUser).resolve_right
        fun missing => missing.1 known) ▸ sameGroup
    · obtain ⟨unused, noAlias⟩ := unknown entry inside known
      have nothing : found strnum entry.group (registryOf last.group) = [] :=
        List.eq_nil_iff_forall_not_mem.mpr fun id member => by
          obtain ⟨name, holds, aliased⟩ := mem_found.mp member
          exact noAlias name (mem_names.mpr ⟨id, holds⟩) aliased
      rw [gidFor, nothing] at has
      exact absurd (mem_ids.mpr ⟨group, has⟩) unused

/-! ### A second run -/

/-- The explicit gids of a table that was run are accepted. -/
theorem accepted_of_addGroups
    (completes : addGroups tools (runGroups tools entries) first = .ok last) :
    ∀ group ∈ explicitGroups entries, (printfInt group.2).2 = true := by
  intro group inside
  obtain ⟨before, _, _, step⟩ := exists_step_of_foldlM (fun _ => True)
    (fun _ _ _ _ _ _ => trivial) completes trivial group (List.mem_append_left _ inside)
  obtain ⟨value, chosen, _⟩ := addOneGroup_eq_ok.mp step
  rw [chooseId_of_isExplicit (isExplicit_of_mem_groups group inside)] at chosen
  exact congrArg Prod.snd (Except.ok.inj chosen)

variable (tools) in
theorem exists_addGroups_explicit {groups : List (Text × Text)}
    (explicit : ∀ group ∈ groups, isExplicit group.2 = true)
    (accepted : ∀ group ∈ groups, (printfInt group.2).2 = true) (target : Target) :
    ∃ after, addGroups tools groups target = .ok after := by
  have completes : ∃ after, addGroups tools groups target = .ok after ∧ True :=
    exists_of_foldlM (fun _ => True) (fun group inside before _ => by
      refine ⟨_, addOneGroup_eq_ok.mpr ⟨(printfInt group.2).1, ?_, rfl⟩, trivial⟩
      rw [chooseId_of_isExplicit (explicit group inside)]
      exact congrArg Except.ok (Prod.ext rfl (accepted group inside))) trivial
  obtain ⟨after, done, _⟩ := completes
  exact ⟨after, done⟩

/-- Registered groups without aliases are entered again with their gids. -/
theorem exists_addGroups_automatic {groups : List (Text × Text)} {gids : Registry Text}
    (plain : ∀ group ∈ groups, isPlain group.1 = true ∧ group.1 ≠ [])
    (automatic : ∀ group ∈ groups, isAutomatic group.2 = true) (nodup : (names gids).Nodup)
    (present : ∀ group ∈ groups, group.1 ∈ names gids)
    (noAlias : ∀ group ∈ groups, ∀ other ∈ names gids, strnum other = strnum group.1 →
      other = group.1)
    (small : SmallIds gids) (wellFormed : WellFormed target)
    (perm : (registryOf target.group).Perm gids) :
    ∃ after, addGroups tools groups target = .ok after ∧
      WellFormed after ∧ (registryOf after.group).Perm gids := by
  refine exists_of_foldlM
    (fun target => WellFormed target ∧ (registryOf target.group).Perm gids) ?_ ⟨wellFormed, perm⟩
  rintro group inside before ⟨form, isPerm⟩
  obtain ⟨isPlain, named⟩ := plain group inside
  obtain ⟨id, has⟩ := mem_names.mp (present group inside)
  have here := isPerm.mem_iff.mpr has
  have hereSmall : SmallIds (registryOf before.group) :=
    fun id inside => small id ((isPerm.map Prod.snd).mem_iff.mp inside)
  have hereNodup : (names (registryOf before.group)).Nodup :=
    (isPerm.map Prod.fst).nodup_iff.mpr nodup
  have one : found strnum group.1 (registryOf before.group) = [id] :=
    found_eq_singleton hereNodup here fun other isName =>
      noAlias group inside other ((isPerm.map Prod.fst).mem_iff.mp isName)
  obtain ⟨afterForm, entered, _⟩ := registry_groupAdded tools isPlain named form id
  refine ⟨_, addOneGroup_eq_ok.mpr ⟨id, ?_, rfl⟩, afterForm, ?_⟩
  · rw [chooseId, if_pos (of_decide_eq_true (automatic group inside)), generateGid,
      generateId_of_found form.group hereSmall isPlain one]
    rfl
  · rw [entered]
    exact (put_perm hereNodup here).trans isPerm

/-- The groups of a run are entered again. -/
theorem exists_addGroups_again (plain : ∀ group ∈ runGroups tools entries,
      isPlain group.1 = true ∧ group.1 ≠ [])
    (accepted : ∀ group ∈ explicitGroups entries, (printfInt group.2).2 = true)
    (allotted : Allotted tools entries first last)
    (nodup : (names (registryOf first.group)).Nodup) (unique : Unique (registryOf last.group))
    (wellFormed : WellFormed target) (same : registryOf target.group = registryOf last.group) :
    ∃ after, addGroups tools (runGroups tools entries) target = .ok after ∧
      (registryOf after.group).Perm (registryOf last.group) := by
  have assignedNodup := nodup_names_assign nodup (groupRequests entries)
  obtain ⟨between, explicit⟩ := exists_addGroups_explicit tools
    isExplicit_of_mem_groups accepted target
  obtain ⟨betweenForm, assigned, _⟩ := registry_addGroups_explicit
    (fun group inside => plain group (List.mem_append_left _ inside)) isExplicit_of_mem_groups
    wellFormed explicit
  rw [same] at assigned
  have perm : (registryOf between.group).Perm (registryOf last.group) :=
    assigned ▸ assign_perm_again allotted.group nodup
  obtain ⟨after, automatic, _, afterPerm⟩ := exists_addGroups_automatic
    (fun group inside => plain group (List.mem_append_right _ inside)) isAutomatic_of_mem_groups
    (allotted.group.nodup_names assignedNodup)
    (fun group inside => allotted.group.mem_names.mpr (Or.inl (List.mem_map_of_mem inside)))
    (fun group inside other => allotted.group.noAlias_of_unique unique
      (List.mem_map_of_mem inside))
    allotted.gids betweenForm perm
  exact ⟨after, foldlM_append_eq_ok.mpr ⟨between, explicit, automatic⟩, afterPerm⟩

/-- The users of a run have lines with the gids of entries of theirs. -/
theorem account_of_written {gids uids : Text → ℕ}
    (written : Written tools entries gids uids first last)
    (small : SmallIds (registryOf last.group))
    (plain : ∀ entry ∈ runUsers entries, isPlain entry.username = true)
    (forms : ∀ line ∈ last.passwd, HasId line) {entry : Entry} (inside : entry ∈ runUsers entries)
    (present : entry.username ∈ names (registryOf last.passwd)) :
    ∃ other ∈ runUsers entries, other.username = entry.username ∧
      Account entry.username (gidFor (registryOf last.group) other.group) last.passwd := by
  obtain ⟨id, has⟩ := mem_names.mp present
  obtain ⟨line, isLine, isEntry⟩ := List.mem_map.mp has
  have isName : line.field 1 = entry.username := congrArg Prod.fst isEntry
  have isHead : headed entry.username line = true := by
    rw [headed_eq (forms line isLine), isName, decide_eq_true rfl]
  have entered : line ∈ last.passwd.lines := isLine
  rw [written.passwd, File.enterAll, enterAll_eq, List.mem_append] at entered
  rcases entered with free | new
  · have isKey : entry.username ∈ (passwdPairs uids (registryOf last.group)
        (runUsers entries)).map Prod.fst := by
      rw [passwdPairs, List.map_map]
      exact List.mem_map_of_mem (f := Entry.username) inside
    rw [(mem_untouched.mp free).2 entry.username isKey] at isHead
    cases isHead
  · obtain ⟨pair, isPair, rfl⟩ := (mem_of_mem_enterAll new).resolve_left List.not_mem_nil
    obtain ⟨other, member, rfl⟩ := List.mem_map.mp isPair
    obtain ⟨isUser, isGid⟩ := awkInt_passwdLine (plain other member)
      (idFor uids other.username other.uid) (gidFor_lt small other.group) (homeText other.home)
    refine ⟨other, member, ?_, _, isLine, isName, ?_⟩
    · exact isUser.symm.trans isName
    · exact isGid

/-- What the results about two runs assume of the first one. -/
structure FirstRun (tools : Tools) (table : Text) (first last : Target) : Prop where
  plain : ∀ entry ∈ tableEntries table, entry.Plain tools
  small : SmallTable (tableEntries table)
  regular : Regular (runUsers (tableEntries table)) first
  tidy : TidyTarget first
  ended : EndedTarget first
  completes : main tools table first = .ok last
  gids : (ids (registryOf last.group)).Nodup

theorem FirstRun.allotted (run : FirstRun tools table first last) :
    WellFormed last ∧ Allotted tools (tableEntries table) first last := by
  obtain ⟨lastForm, registered⟩ := registered_main run.plain run.regular.wellFormed run.completes
  exact ⟨lastForm, registered.allotted run.small run.regular.gids run.regular.uids⟩

theorem FirstRun.nodup_gids (run : FirstRun tools table first last) :
    (names (registryOf last.group)).Nodup :=
  run.allotted.2.group.nodup_names (nodup_names_assign run.regular.nodup _)

theorem FirstRun.unique (run : FirstRun tools table first last) :
    Unique (registryOf last.group) :=
  (nodup_ids_iff run.nodup_gids).mp run.gids

/-- Every user of the first run found its main group once at most. -/
theorem FirstRun.printed (run : FirstRun tools table first last) :
    ∀ entry ∈ runUsers (tableEntries table), ∃ gid,
      printfIds ((found strnum entry.group (registryOf last.group)).map Nat.cast) =
        (gid, true) := by
  obtain ⟨middle, between, regularRun⟩ :=
    regularRun_main run.plain run.small run.regular run.unique run.completes
  intro entry inside
  obtain ⟨target, found, form, group, done⟩ := exists_completes_of_addUsers
    (plain_of_mem_users run.plain) reads_of_mem_runUsers regularRun.middleRegular.wellFormed
    regularRun.users entry inside
  have printed := done.gid
  rw [idsOf_eq tools form.group (plain_of_mem_users run.plain entry inside).1.group, group,
    ← regularRun.group, run.allotted.2.gids.map_nearest] at printed
  exact ⟨found.gid, printed⟩

/-- A user of the run is in the password file that it leaves. -/
theorem FirstRun.mem_users (run : FirstRun tools table first last) :
    ∀ entry ∈ runUsers (tableEntries table),
      entry.username ∈ names (registryOf last.passwd) := by
  intro entry inside
  rw [run.allotted.2.passwd.mem_names, mem_names_assign]
  rcases List.mem_append.mp inside with explicit | automatic
  · refine Or.inr (Or.inl ?_)
    rw [userRequests, List.map_map]
    exact List.mem_map_of_mem explicit
  · exact Or.inl (List.mem_map_of_mem automatic)

theorem FirstRun.nodup_uids (run : FirstRun tools table first last) :
    (names (registryOf last.passwd)).Nodup :=
  run.allotted.2.passwd.nodup_names (nodup_names_assign run.regular.distinct.nodup_names _)

/-- The users of the run have lines with the gids of entries of theirs. -/
theorem FirstRun.accounts (run : FirstRun tools table first last) :
    ∀ entry ∈ runUsers (tableEntries table), ∃ other ∈ runUsers (tableEntries table),
      other.username = entry.username ∧
        Account entry.username (gidFor (registryOf last.group) other.group) last.passwd := by
  obtain ⟨lastForm, allotted⟩ := run.allotted
  have written := written_main run.plain run.regular.wellFormed run.ended run.completes
    (fun name _ id has => idIn_eq run.nodup_gids has)
    (fun name _ id has => idIn_eq run.nodup_uids has)
  exact fun entry inside => account_of_written written allotted.gids
    (fun other member => (plain_of_mem_users run.plain other member).1.username) lastForm.passwd
    inside (run.mem_users entry inside)

/-- A repeatable table is run again. -/
theorem FirstRun.exists_again (run : FirstRun tools table first last)
    (repeatable : Repeatable tools (tableEntries table) first) (salts : ℕ) :
    ∃ again, main tools table (last.reopened salts) = .ok again := by
  obtain ⟨middle, between, regularRun⟩ :=
    regularRun_main run.plain run.small run.regular run.unique run.completes
  obtain ⟨lastForm, allotted⟩ := run.allotted
  have plainGroups := plain_of_mem_groups run.plain
  have plainUsers := plain_of_mem_users run.plain
  have distinct := regularRun.distinct_iff.mpr repeatable.aliases
  have regular := regularRun.last_regular plainUsers run.unique lastForm distinct run.accounts
  have shared := (shareGroups_iff allotted run.unique run.printed).mpr
    ⟨repeatable.unknown, repeatable.shared⟩
  obtain ⟨middle', groups, perm⟩ := exists_addGroups_again plainGroups
    (accepted_of_addGroups regularRun.groups) allotted run.regular.nodup run.unique
    (regular.reopened salts).wellFormed rfl
  have regular' := regular_addGroups plainGroups reads_of_mem_runGroups run.small.gid
    (regular.reopened salts) groups
  have passwd : middle'.passwd = (last.reopened salts).passwd := passwd_addGroups groups
  change middle'.passwd = last.passwd at passwd
  have settled : Settled (runUsers (tableEntries table)) (registryOf last.passwd)
      (registryOf last.group) middle' := by
    refine ⟨regular', passwd ▸ .refl _, perm, fun entry inside => ?_⟩
    rw [passwd]
    exact run.accounts entry inside
  have known : ∀ entry ∈ runUsers (tableEntries table), isExplicit entry.gid = true →
      entry.group ∈ names (registryOf last.group) := by
    intro entry inside explicit
    rw [mem_names_allotted allotted, knownGroups, List.mem_append]
    have asked : (entry.group, entry.gid) ∈ explicitGroups (tableEntries table) :=
      List.mem_map.mpr ⟨entry, List.mem_filter.mpr ⟨mem_of_mem_users inside, explicit⟩, rfl⟩
    exact Or.inl (List.mem_map_of_mem (f := Prod.fst) (List.mem_append_left _ asked))
  have settles := settles_of_run regularRun plainUsers known distinct repeatable.readings
  obtain ⟨again, users, _⟩ := exists_of_foldlM
    (Settled (runUsers (tableEntries table)) (registryOf last.passwd) (registryOf last.group))
    (fun entry inside before isSettled =>
      isSettled.addOneUser (settles entry inside) distinct.nodup_names run.unique shared inside)
    settled
  exact ⟨again, main_eq_ok.mpr ⟨(main_eq_ok.mp run.completes).1, middle', groups, users⟩⟩

/-! ### What a second run shows -/

/-- A user whose line has the gid of a group keeps it, and this is the user's main group. -/
theorem keeps_account {users adds : List Entry} (areUsers : ∀ entry ∈ adds, entry ∈ users)
    (plain : ∀ entry ∈ adds, entry.Plain tools ∧ entry.username ≠ [])
    (reads : ∀ entry ∈ adds, isExplicit entry.uid = true ∨ isAutomatic entry.uid = true)
    (small : ∀ entry ∈ adds, isExplicit entry.uid = true → explicitId entry.uid < 2 ^ 53)
    (regular : Regular users first) (unique : Unique (registryOf first.group))
    (present : ∀ entry ∈ adds, entry.username ∈ names (registryOf first.passwd))
    (completes : addUsers tools adds first = .ok last) {username group : Text} {gid : ℕ}
    (has : (group, gid) ∈ registryOf first.group)
    (account : Account username gid first.passwd) :
    (∀ entry ∈ adds, entry.username = username → entry.group = group) ∧
      Account username gid last.passwd := by
  induction adds generalizing first with
  | nil =>
    cases completes
    exact ⟨nofun, account⟩
  | cons entry rest inductionHypothesis =>
    obtain ⟨next, step, later⟩ := foldlM_cons_eq_ok.mp completes
    obtain ⟨found, done, rfl⟩ := addOneUser_eq_ok.mp step
    obtain ⟨isPlain, _⟩ := plain entry List.mem_cons_self
    have isUser := areUsers entry List.mem_cons_self
    obtain ⟨nextRegular, sameGroup, stays⟩ := regular_addUsers
      (fun other inside => areUsers other (List.mem_singleton.mp inside ▸ List.mem_cons_self))
      (fun other inside => plain other (List.mem_singleton.mp inside ▸ List.mem_cons_self))
      (fun other inside => reads other (List.mem_singleton.mp inside ▸ List.mem_cons_self))
      (fun other inside => small other (List.mem_singleton.mp inside ▸ List.mem_cons_self))
      regular unique
      (fun other inside => present other (List.mem_singleton.mp inside ▸ List.mem_cons_self))
      (foldlM_cons_eq_ok.mpr ⟨_, step, rfl⟩)
    have passwd := passwd_userAdded isPlain regular.wellFormed done
    have rest := inductionHypothesis
      (fun other inside => areUsers other (List.mem_cons_of_mem entry inside))
      (fun other inside => plain other (List.mem_cons_of_mem entry inside))
      (fun other inside => reads other (List.mem_cons_of_mem entry inside))
      (fun other inside => small other (List.mem_cons_of_mem entry inside)) nextRegular
      (sameGroup ▸ unique)
      (fun other inside => stays _ (present other (List.mem_cons_of_mem entry inside))) later
      (sameGroup ▸ has)
    by_cases same : entry.username = username
    · subst same
      have valid := done.valid
      rw [checkUserValidity] at valid
      split at valid
      · cases valid
      rw [Option.or_eq_none_iff, Option.or_eq_none_iff] at valid
      have isGroup := (checkUgroup_eq_none regular isUser isPlain account).mp valid.2.2 group has
      have printed := done.gid
      rw [idsOf_eq tools regular.wellFormed.group isPlain.group,
        regular.gids.map_nearest] at printed
      have isGid := (gidFor_of_found regular.gids printed
        (mem_found.mpr ⟨group, has, by rw [isGroup]⟩)).2
      obtain ⟨groups, accountLast⟩ := rest (by
        rw [passwd, isGid]
        exact account_enter isPlain.username _ (regular.gids gid (mem_ids.mpr ⟨_, has⟩)) _ _)
      exact ⟨List.forall_mem_cons.mpr ⟨fun _ => isGroup.symm, groups⟩, accountLast⟩
    · obtain ⟨groups, accountLast⟩ := rest (by
        rw [passwd]
        exact account.enter regular.wellFormed.passwd (Ne.symm same) _)
      exact ⟨List.forall_mem_cons.mpr ⟨fun isUser => absurd isUser same, groups⟩, accountLast⟩

/-- Users that leave the password file as it is share their groups: the gid that an entry prints
is still the user's when the users are gone through again. -/
theorem shareGroups_of_addUsers {users : List Entry}
    (plain : ∀ entry ∈ users, entry.Plain tools ∧ entry.username ≠ [])
    (reads : ∀ entry ∈ users, isExplicit entry.uid = true ∨ isAutomatic entry.uid = true)
    (small : ∀ entry ∈ users, isExplicit entry.uid = true → explicitId entry.uid < 2 ^ 53)
    (regular : Regular users first) (unique : Unique (registryOf first.group))
    (present : ∀ entry ∈ users, entry.username ∈ names (registryOf first.passwd))
    (completes : addUsers tools users first = .ok last) (same : last.passwd = first.passwd) :
    ShareGroups users (registryOf first.group) := by
  intro entry inside other otherInside isUser group has
  obtain ⟨before, after, rfl⟩ := List.append_of_mem inside
  have inBefore : ∀ user ∈ before, user ∈ before ++ entry :: after :=
    fun user member => List.mem_append_left _ member
  have inAfter : ∀ user ∈ after, user ∈ before ++ entry :: after :=
    fun user member => List.mem_append_right _ (List.mem_cons_of_mem entry member)
  obtain ⟨here, first', there⟩ := foldlM_append_eq_ok.mp completes
  obtain ⟨next, step, later⟩ := foldlM_cons_eq_ok.mp there
  obtain ⟨hereRegular, hereGroup, hereStays⟩ := regular_addUsers inBefore
    (fun user member => plain user (inBefore user member))
    (fun user member => reads user (inBefore user member))
    (fun user member => small user (inBefore user member)) regular unique
    (fun user member => present user (inBefore user member)) first'
  have hereUnique : Unique (registryOf here.group) := hereGroup ▸ unique
  obtain ⟨nextRegular, nextGroup, nextStays⟩ := regular_addUsers
    (fun user member => List.mem_singleton.mp member ▸ inside)
    (fun user member => plain user (List.mem_singleton.mp member ▸ inside))
    (fun user member => reads user (List.mem_singleton.mp member ▸ inside))
    (fun user member => small user (List.mem_singleton.mp member ▸ inside)) hereRegular hereUnique
    (fun user member => hereStays _ (present user (List.mem_singleton.mp member ▸ inside)))
    (foldlM_cons_eq_ok.mpr ⟨next, step, rfl⟩)
  obtain ⟨found, done, rfl⟩ := addOneUser_eq_ok.mp step
  have isPlain := (plain entry inside).1
  -- the line that this entry writes has the gid, and so has the user's line in the end
  have account : Account entry.username (gidFor (registryOf first.group) entry.group)
      (userAdded tools entry found here).passwd := by
    rw [passwd_userAdded isPlain hereRegular.wellFormed done, hereGroup]
    exact account_enter isPlain.username _ (gidFor_lt regular.gids entry.group) _ _
  have hasNext : (group, gidFor (registryOf first.group) entry.group) ∈
      registryOf (userAdded tools entry found here).group := by
    rw [nextGroup, hereGroup]
    exact has
  have atEnd := (keeps_account inAfter (fun user member => plain user (inAfter user member))
    (fun user member => reads user (inAfter user member))
    (fun user member => small user (inAfter user member)) nextRegular (nextGroup ▸ hereUnique)
    (fun user member => nextStays _ (hereStays _ (present user (inAfter user member)))) later
    hasNext account).2
  rw [same] at atEnd
  exact ((keeps_account (fun _ member => member) plain reads small regular unique present
    completes has atEnd).1 other
    otherInside isUser).symm

/-- A table that is run again has readings that agree. -/
theorem RegularRun.readings {middle' between' : Target} {reopened : Target}
    (run : RegularRun tools entries reopened middle' between' again)
    (nodup : (names (registryOf reopened.passwd)).Nodup)
    (same : again.passwd = reopened.passwd)
    (present : ∀ entry ∈ explicitUsers entries,
      entry.username ∈ names (registryOf reopened.passwd)) :
    ∀ entry ∈ explicitUsers entries, testInt entry.uid = some (explicitId entry.uid : Int) := by
  intro entry inside
  have explicit := isExplicit_of_mem_users entry inside
  obtain ⟨uid, has⟩ := mem_names.mp (present entry inside)
  have less : ∀ request ∈ userReadings (explicitUsers entries), request.2.2 ≤ request.2.1 := by
    intro request member
    obtain ⟨other, otherInside, rfl⟩ := List.mem_map.mp member
    exact explicitId_le (isExplicit_of_mem_users other otherInside)
  obtain ⟨number, holds, _, bounds⟩ := run.admits.le less has
  have kept := run.allocates.mem_of_mem holds
  rw [same] at kept
  obtain rfl := eq_of_mem nodup kept has
  obtain ⟨above, below⟩ := bounds _ (List.mem_map_of_mem inside) rfl
  have readings := explicitId_le explicit
  rw [testInt_eq_askedId explicit]
  have equal : askedId entry.uid = explicitId entry.uid := by
    change askedId entry.uid ≤ number at above
    change number ≤ explicitId entry.uid at below
    omega
  rw [equal]

/-- A table that is run again leaves no user with an automatic uid an alias. -/
theorem FirstRun.noAlias (run : FirstRun tools table first last) {salts : ℕ}
    (completes : main tools table (last.reopened salts) = .ok again) :
    NoAlias (userRequests (tableEntries table)) (autoUsers (tableEntries table)) first.passwd := by
  obtain ⟨lastForm, allotted⟩ := run.allotted
  obtain ⟨_, registered'⟩ := registered_main run.plain (lastForm.reopened salts) completes
  have allotted' := registered'.allotted run.small allotted.gids allotted.uids
  have present : ∀ name, name ∈ autoUsers (tableEntries table) ++
      ((userRequests (tableEntries table)).map Prod.fst ++ names (registryOf first.passwd)) →
      name ∈ names (assign (userRequests (tableEntries table)) (registryOf last.passwd)) :=
    fun name inside => mem_names_assign.mpr
      (Or.inr ((mem_names_last allotted.passwd name).mpr inside))
  exact fun name member _ _ other otherInside same =>
    allotted'.passwd.eq_of_alias member (present name (List.mem_append_left _ member))
      (present other otherInside) same

/-- A table that is run again is repeatable. -/
theorem FirstRun.repeatable (run : FirstRun tools table first last) {salts : ℕ}
    (completes : main tools table (last.reopened salts) = .ok again) :
    Repeatable tools (tableEntries table) first := by
  obtain ⟨middle, between, regularRun⟩ :=
    regularRun_main run.plain run.small run.regular run.unique run.completes
  obtain ⟨lastForm, allotted⟩ := run.allotted
  have plainUsers := plain_of_mem_users run.plain
  have same := sameFiles_of_completes run.plain run.small run.regular run.tidy run.ended
    run.completes salts completes
  have aliases := run.noAlias completes
  have distinct := regularRun.distinct_iff.mpr aliases
  have regular := (regularRun.last_regular plainUsers run.unique lastForm distinct
    run.accounts).reopened salts
  have unique : Unique (registryOf again.group) := by
    rw [same.group]
    exact run.unique
  obtain ⟨middle', between', regularRun'⟩ :=
    regularRun_main run.plain run.small regular unique completes
  have readings := regularRun'.readings distinct.nodup_names same.passwd
    fun entry inside => run.mem_users entry (List.mem_append_left _ inside)
  have sameGroups : registryOf middle'.group = registryOf last.group := by
    rw [← regularRun'.group, same.group]
  have samePasswd : middle'.passwd = last.passwd := regularRun'.passwd
  have present : ∀ entry ∈ runUsers (tableEntries table),
      entry.username ∈ names (registryOf middle'.passwd) := by
    rw [samePasswd]
    exact run.mem_users
  have shared : ShareGroups (runUsers (tableEntries table)) (registryOf last.group) :=
    sameGroups ▸ shareGroups_of_addUsers plainUsers reads_of_mem_runUsers
      run.small.uid regularRun'.middleRegular (sameGroups ▸ run.unique) present regularRun'.users
      (same.passwd.trans samePasswd.symm)
  obtain ⟨unknown, sharedGroups⟩ := (shareGroups_iff allotted run.unique run.printed).mp shared
  exact ⟨readings, aliases, unknown, sharedGroups⟩

end Run

theorem tidy_smallTarget : TidyTarget smallTarget := ⟨by decide +kernel, nofun⟩

theorem ended_smallTarget : EndedTarget smallTarget := ⟨rfl, rfl, rfl, nofun⟩

end Buildroot4G.Users
