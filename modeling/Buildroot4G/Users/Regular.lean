/-
This file follows regular targets through a run: adding groups and users with ids
that are exact for awk keeps a target regular as long as no user that is added has an
alias, which the check of an explicit uid excludes. What the checks look up stays named by
ordinary words: a user that is added has the gid of its main group, and when no two groups
share a gid nobody else has it.
-/

import Buildroot4G.Users.Again
import Buildroot4G.Users.UniqueIds

namespace Buildroot4G.Users

open Shell Fold Registry Keyed Double

/-! ### Regular targets -/

section Regular

variable {tools : Tools} {users : List Entry} {first last : Target}

theorem SmallIds.of_put {before after : File} {name : Text} {id : ℕ}
    (entered : registryOf after = put name id (registryOf before))
    (small : SmallIds (registryOf before))
    (isSmall : id < 2 ^ 53) : SmallIds (registryOf after) := by
  rw [SmallIds, entered]
  exact forall_ids_put small isSmall name

theorem Regular.groupAdded {group : Text} (plain : isPlain group = true) (named : group ≠ [])
    (regular : Regular users first) {gid : ℕ} (small : gid < 2 ^ 53) :
    Regular users (groupAdded tools group gid first) := by
  obtain ⟨wellFormed, entered, passwd⟩ :=
    registry_groupAdded tools plain named regular.wellFormed gid
  exact {
    wellFormed := wellFormed
    distinct := passwd ▸ regular.distinct
    nodup := entered ▸ nodup_names_put regular.nodup group gid
    userNames := regular.userNames
    groupNames := by
      rw [entered]
      rintro ⟨name, id⟩ has looksUp
      rcases mem_put.mp has with ⟨rfl, _⟩ | ⟨_, old⟩
      · exact not_mem_operators_of_isPlain plain
      · exact regular.groupNames (name, id) old looksUp
    uids := regular.uids
    gids := regular.gids.of_put entered small }

/-! ### The gids of the users -/

/-- A word that `[` takes for an operator is no number, so that it has no alias. -/
theorem not_mem_operators_of_strnum {name group : Text} (plain : isPlain group = true)
    (same : strnum name = strnum group) : name ∉ operators := by
  intro operator
  have texts : ∀ word ∈ operators, strnum word = .text word := by decide +kernel
  have isText : strnum group = .text name := same.symm.trans (texts name operator)
  have sameWord : group = name := by
    rw [strnum] at isText
    split at isText
    · split at isText
      · cases isText
      · exact Strnum.text.inj isText
    · exact Strnum.text.inj isText
  exact not_mem_operators_of_isPlain plain (sameWord ▸ operator)

/-- The gid that is printed for a group of small gids. -/
theorem gidFor_lt {gids : Registry Text} (small : SmallIds gids) (group : Text) :
    gidFor gids group < 2 ^ 53 := by
  rw [gidFor, small.map_nearest]
  cases isFound : found strnum group gids with
  | nil => exact Nat.two_pow_pos 53
  | cons id rest => exact small.lt (isFound ▸ List.mem_cons_self)

/-- Who has the gid that is printed for a group is an alias of the group, or has the gid 0. -/
theorem ordinary_gidFor {gids : Registry Text} (small : SmallIds gids) (unique : Unique gids)
    (zero : ∀ name, (name, 0) ∈ gids → name ∉ operators) {group : Text}
    (plain : isPlain group = true) {name : Text} (has : (name, gidFor gids group) ∈ gids) :
    name ∉ operators := by
  cases finds : found strnum group gids with
  | nil =>
    rw [gidFor, finds] at has
    exact zero name has
  | cons id rest =>
    have isGid : gidFor gids group = id := by
      rw [gidFor, small.map_nearest, finds]
      rfl
    rw [isGid] at has
    obtain ⟨holder, holds, aliased⟩ := mem_found.mp (finds ▸ List.mem_cons_self (l := rest))
    have same : name = holder := unique _ has _ holds rfl
    exact not_mem_operators_of_strnum plain (same ▸ aliased)

/-- The line of a user has the user's gid. -/
theorem awkInt_passwdLine {entry : Entry} (plain : isPlain entry.username = true) (uid : Int)
    {gid : ℕ} (small : gid < 2 ^ 53) (home : Text) :
    (passwdLine entry uid gid home).field 1 = entry.username ∧
      awkInt ((passwdLine entry uid gid home).field 4) = gid := by
  obtain ⟨rest, same⟩ := passwdLine_eq (not_mem_of_isPlain plain (by decide)) uid gid home
  rw [same]
  refine ⟨rfl, ?_⟩
  change awkInt (decimal gid) = gid
  rw [(isNumber_decimal gid).awkInt, number_decimal, nearest_of_lt small]

/-- A user has the gid of one line only. -/
theorem Account.eq {username : Text} {gid gid' : ℕ} {file : File}
    (nodup : (names (registryOf file)).Nodup) (account : Account username gid file)
    (account' : Account username gid' file) : gid = gid' := by
  obtain ⟨line, inside, isUser, isGid⟩ := account
  obtain ⟨line', inside', isUser', isGid'⟩ := account'
  rw [names, registryOf, List.map_map] at nodup
  have same : line = line' :=
    List.inj_on_of_nodup_map nodup inside inside' (isUser.trans isUser'.symm)
  rw [same, isGid'] at isGid
  exact Int.ofNat.inj isGid.symm

/-- A user has the gid of the line that is entered for it, or has had its gid before. -/
theorem Account.of_userAdded {entry : Entry} (plain : entry.Plain tools)
    (regular : Regular users first) {found : Found} (done : Completes tools entry first found)
    {username : Text} {gid : ℕ} (account : Account username gid
      (userAdded tools entry found first).passwd) :
    Account username gid first.passwd ∨ gid = gidFor (registryOf first.group) entry.group := by
  obtain ⟨line, inside, isUser, isGid⟩ := account
  rw [passwd_userAdded plain regular.wellFormed done] at inside
  rcases mem_of_mem_enterAll inside with old | ⟨pair, isPair, rfl⟩
  · exact Or.inl ⟨line, old, isUser, isGid⟩
  · rw [List.mem_singleton.mp isPair] at isGid
    exact Or.inr (Int.ofNat.inj (isGid.symm.trans
      (awkInt_passwdLine plain.username _ (gidFor_lt regular.gids entry.group) _).2))

theorem Regular.userAdded {entry : Entry} (plain : entry.Plain tools) (named : entry.username ≠ [])
    (regular : Regular users first) (unique : Unique (registryOf first.group)) {found : Found}
    (done : Completes tools entry first found) {uid : ℕ} (isUid : found.uid = uid)
    (small : uid < 2 ^ 53)
    (noAlias : ∀ other ∈ names (registryOf first.passwd),
      strnum other = strnum entry.username → other = entry.username) :
    Regular users (userAdded tools entry found first) := by
  obtain ⟨wellFormed, entered, group⟩ := registry_userAdded plain named regular.wellFormed isUid
  exact {
    wellFormed := wellFormed
    distinct := entered ▸ regular.distinct.put noAlias uid
    nodup := group ▸ regular.nodup
    userNames := by
      rw [entered]
      rintro asking inside ⟨name, id⟩ has asks
      rcases mem_put.mp has with ⟨rfl, _⟩ | ⟨_, old⟩
      · exact not_mem_operators_of_isPlain plain.username
      · exact regular.userNames asking inside (name, id) old asks
    groupNames := by
      rw [group]
      rintro ⟨name, gid⟩ has (zero | ⟨asking, inside, asks | account⟩)
      · exact regular.groupNames (name, gid) has (Or.inl zero)
      · exact regular.groupNames (name, gid) has (Or.inr ⟨asking, inside, Or.inl asks⟩)
      · rcases account.of_userAdded plain regular done with before | rfl
        · exact regular.groupNames (name, gid) has (Or.inr ⟨asking, inside, Or.inr before⟩)
        · exact ordinary_gidFor regular.gids unique
            (fun name has => regular.groupNames (name, 0) has (Or.inl rfl)) plain.group has
    uids := regular.uids.of_put entered small
    gids := fun id inside => regular.gids id (group ▸ inside) }

/-! ### The passes over the table -/

/-- The ids that are entered are natural numbers, and small when the explicit ones are. -/
theorem exists_gid_of_chosen {group gid : Text} (plain : isPlain group = true)
    (forms : ∀ line ∈ first.group, HasId line)
    (reads : isExplicit gid = true ∨ isAutomatic gid = true) {value : Int} {accepted : Bool}
    (chosen : chooseId (generateGid tools group first.group) gid = .ok (value, accepted)) :
    ∃ id : ℕ, value = id ∧ (SmallIds (registryOf first.group) →
      (isExplicit gid = true → explicitId gid < 2 ^ 53) → id < 2 ^ 53) := by
  rcases reads with explicit | automatic
  · exact ⟨_, eq_explicitId_of_chooseId explicit chosen, fun _ isSmall => isSmall explicit⟩
  · obtain ⟨id, isId, finds⟩ := generateId_eq_ok forms (findsIds_of_isPlain tools plain _)
      (generate_eq_ok_of_chooseId automatic chosen)
    exact ⟨id, isId, fun small _ => small.lt_of_generateId (by decide) finds⟩

theorem exists_uid_of_chosen {entry : Entry} (plain : entry.Plain tools)
    (forms : ∀ line ∈ first.passwd, HasId line)
    (reads : isExplicit entry.uid = true ∨ isAutomatic entry.uid = true) {value : Int}
    {accepted : Bool}
    (chosen : chooseId (generateUid tools entry.username first.passwd) entry.uid =
      .ok (value, accepted)) :
    ∃ id : ℕ, value = id ∧ (SmallIds (registryOf first.passwd) →
      (isExplicit entry.uid = true → explicitId entry.uid < 2 ^ 53) → id < 2 ^ 53) := by
  rcases reads with explicit | automatic
  · exact ⟨_, eq_explicitId_of_chooseId explicit chosen, fun _ isSmall => isSmall explicit⟩
  · obtain ⟨id, isId, finds⟩ := generateId_eq_ok forms
      (findsIds_of_isPlain tools plain.username _) (generate_eq_ok_of_chooseId automatic chosen)
    exact ⟨id, isId, fun small _ => small.lt_of_generateId (by decide) finds⟩

theorem not_isExplicit_of_isAutomatic {id : Text} (automatic : isAutomatic id = true) :
    isExplicit id ≠ true := by
  rw [isExplicit, of_decide_eq_true automatic]
  decide

/-- The explicit ids of a small table are small. -/
theorem SmallTable.gid {entries : List Entry} (small : SmallTable entries) :
    ∀ group ∈ runGroups tools entries, isExplicit group.2 = true →
      explicitId group.2 < 2 ^ 53 := by
  intro group inside explicit
  rcases List.mem_append.mp inside with asked | automatic
  · exact small.gids _ (List.mem_map_of_mem asked)
  · exact absurd explicit
      (not_isExplicit_of_isAutomatic (isAutomatic_of_mem_groups group automatic))

theorem SmallTable.uid {entries : List Entry} (small : SmallTable entries) :
    ∀ entry ∈ runUsers entries, isExplicit entry.uid = true → explicitId entry.uid < 2 ^ 53 := by
  intro entry inside explicit
  rcases List.mem_append.mp inside with asked | automatic
  · exact small.uids _ (List.mem_map_of_mem asked)
  · exact absurd explicit
      (not_isExplicit_of_isAutomatic (isAutomatic_of_mem_users entry automatic))

theorem reads_of_mem_runGroups {entries : List Entry} :
    ∀ group ∈ runGroups tools entries, isExplicit group.2 = true ∨ isAutomatic group.2 = true :=
  fun group inside => (List.mem_append.mp inside).imp (isExplicit_of_mem_groups group)
    (isAutomatic_of_mem_groups group)

theorem reads_of_mem_runUsers {entries : List Entry} :
    ∀ entry ∈ runUsers entries, isExplicit entry.uid = true ∨ isAutomatic entry.uid = true :=
  fun entry inside => (List.mem_append.mp inside).imp (isExplicit_of_mem_users entry)
    (isAutomatic_of_mem_users entry)

theorem regular_addGroups {groups : List (Text × Text)}
    (plain : ∀ group ∈ groups, isPlain group.1 = true ∧ group.1 ≠ [])
    (reads : ∀ group ∈ groups, isExplicit group.2 = true ∨ isAutomatic group.2 = true)
    (small : ∀ group ∈ groups, isExplicit group.2 = true → explicitId group.2 < 2 ^ 53)
    (regular : Regular users first) (completes : addGroups tools groups first = .ok last) :
    Regular users last := by
  refine invariant_of_foldlM (Regular users) ?_ completes regular
  intro group inside before after step regular
  obtain ⟨value, chosen, rfl⟩ := addOneGroup_eq_ok.mp step
  obtain ⟨isPlain, named⟩ := plain group inside
  obtain ⟨gid, rfl, isSmall⟩ := exists_gid_of_chosen isPlain regular.wellFormed.group
    (reads group inside) chosen
  exact regular.groupAdded isPlain named (isSmall regular.gids (small group inside))

/-- Users keep the groups, and every one of them is added in some state. -/
theorem exists_completes_of_addUsers
    (plain : ∀ entry ∈ users, entry.Plain tools ∧ entry.username ≠ [])
    (reads : ∀ entry ∈ users, isExplicit entry.uid = true ∨ isAutomatic entry.uid = true)
    (wellFormed : WellFormed first) (completes : addUsers tools users first = .ok last) :
    ∀ entry ∈ users, ∃ target found, WellFormed target ∧
      registryOf target.group = registryOf first.group ∧ Completes tools entry target found := by
  have keeps : ∀ entry ∈ users, ∀ before after, addOneUser tools entry before = .ok after →
      WellFormed before ∧ registryOf before.group = registryOf first.group →
      WellFormed after ∧ registryOf after.group = registryOf first.group := by
    rintro entry inside before after step ⟨form, group⟩
    obtain ⟨found, done, rfl⟩ := addOneUser_eq_ok.mp step
    obtain ⟨isPlain, named⟩ := plain entry inside
    obtain ⟨uid, isUid, _⟩ := exists_uid_of_chosen isPlain form.passwd (reads entry inside) done.uid
    obtain ⟨nextForm, _, same⟩ := registry_userAdded isPlain named form isUid
    exact ⟨nextForm, same.trans group⟩
  intro entry inside
  obtain ⟨target, next, ⟨form, group⟩, step⟩ :=
    exists_step_of_foldlM _ keeps completes ⟨wellFormed, rfl⟩ entry inside
  obtain ⟨found, done, _⟩ := addOneUser_eq_ok.mp step
  exact ⟨target, found, form, group, done⟩

end Regular

/-! ### Explicit users -/

/-- The uid that `[` reads. -/
def askedId (id : Text) : ℕ := ((testInt id).getD 0).toNat

/-- The uids of the table as `[` and as `printf` read them. -/
def userReadings (users : List Entry) : List (Text × ℕ × ℕ) :=
  users.map fun entry => (entry.username, askedId entry.uid, explicitId entry.uid)

theorem testInt_eq_askedId {id : Text} (explicit : isExplicit id = true) :
    testInt id = some (askedId id : Int) := by
  obtain ⟨value, reads, nonneg⟩ := testInt_of_isExplicit explicit
  rw [askedId, reads, Option.getD_some, Int.toNat_of_nonneg nonneg]

theorem explicitId_le {id : Text} (explicit : isExplicit id = true) :
    explicitId id ≤ askedId id := by
  have bounds := printfInt_le (testInt_eq_askedId explicit) (Int.natCast_nonneg _)
  rw [explicitId]
  omega

section Explicit

variable {tools : Tools} {first last : Target}

theorem checkUid_of_completes {entry : Entry} {found : Found}
    (done : Completes tools entry first found) : checkUid tools entry first = none := by
  have valid := done.valid
  rw [checkUserValidity] at valid
  split at valid
  · cases valid
  · rw [Option.or_eq_none_iff, Option.or_eq_none_iff] at valid
    exact valid.2.1

/-- The pass over the explicit users enters their uids behind a check. -/
theorem admit_addUsers {users adds : List Entry} (areUsers : ∀ entry ∈ adds, entry ∈ users)
    (plain : ∀ entry ∈ adds, entry.Plain tools ∧ entry.username ≠ [])
    (explicit : ∀ entry ∈ adds, isExplicit entry.uid = true)
    (small : ∀ entry ∈ adds, explicitId entry.uid < 2 ^ 53) (regular : Regular users first)
    (unique : Unique (registryOf first.group)) (completes : addUsers tools adds first = .ok last) :
    Regular users last ∧
      Admit strnum (userReadings adds) (registryOf first.passwd) (registryOf last.passwd) := by
  induction adds generalizing first with
  | nil =>
    cases completes
    exact ⟨regular, .done _⟩
  | cons entry rest inductionHypothesis =>
    obtain ⟨next, step, later⟩ := foldlM_cons_eq_ok.mp completes
    obtain ⟨found, done, rfl⟩ := addOneUser_eq_ok.mp step
    obtain ⟨isPlain, named⟩ := plain entry List.mem_cons_self
    have isExplicit := explicit entry List.mem_cons_self
    have isValue := eq_explicitId_of_chooseId isExplicit done.uid
    obtain ⟨_, free, same⟩ := (checkUid_eq_none regular (areUsers entry List.mem_cons_self)
      isPlain.username (testInt_eq_askedId isExplicit)).mp (checkUid_of_completes done)
    obtain ⟨_, entered, group⟩ := registry_userAdded isPlain named regular.wellFormed isValue
    obtain ⟨lastRegular, admits⟩ := inductionHypothesis
      (fun other inside => areUsers other (List.mem_cons_of_mem entry inside))
      (fun other inside => plain other (List.mem_cons_of_mem entry inside))
      (fun other inside => explicit other (List.mem_cons_of_mem entry inside))
      (fun other inside => small other (List.mem_cons_of_mem entry inside))
      (regular.userAdded isPlain named unique done isValue (small entry List.mem_cons_self)
        (noAlias_of_check free same)) (group ▸ unique) later
    rw [entered] at admits
    exact ⟨lastRegular, .next free same admits⟩

end Explicit

/-! ### Regular runs -/

/-- A completed run from a regular target, with the states behind the groups and behind the
explicit users. -/
structure RegularRun (tools : Tools) (entries : List Entry) (first middle between last : Target) :
    Prop where
  groups : addGroups tools (runGroups tools entries) first = .ok middle
  users : addUsers tools (runUsers entries) middle = .ok last
  middleRegular : Regular (runUsers entries) middle
  betweenRegular : Regular (runUsers entries) between
  passwd : middle.passwd = first.passwd
  group : registryOf last.group = registryOf middle.group
  admits : Admit strnum (userReadings (explicitUsers entries)) (registryOf first.passwd)
    (registryOf between.passwd)
  allocates : Allocate strnum plainly minUid maxUid (autoUsers entries) (registryOf between.passwd)
    (registryOf last.passwd)

section Run

variable {tools : Tools} {table : Text} {entries : List Entry}
  {first middle between last : Target}

theorem regularRun_main (plain : ∀ entry ∈ tableEntries table, entry.Plain tools)
    (small : SmallTable (tableEntries table))
    (regular : Regular (runUsers (tableEntries table)) first)
    (unique : Unique (registryOf last.group)) (completes : main tools table first = .ok last) :
    ∃ middle between, RegularRun tools (tableEntries table) first middle between last := by
  obtain ⟨_, middle, groups, users⟩ := main_eq_ok.mp completes
  have plainGroups := plain_of_mem_groups plain
  have plainUsers := plain_of_mem_users plain
  generalize tableEntries table = entries at plainGroups plainUsers groups users small regular
  have middleRegular :=
    regular_addGroups plainGroups reads_of_mem_runGroups small.gid regular groups
  have passwd := passwd_addGroups groups
  obtain ⟨between, explicit, automatic⟩ := foldlM_append_eq_ok.mp users
  obtain ⟨betweenForm, _, group⟩ := registry_addUsers_explicit
    (fun entry inside => plainUsers entry (List.mem_append_left _ inside))
    isExplicit_of_mem_users middleRegular.wellFormed explicit
  obtain ⟨_, allocates, group'⟩ := registry_addUsers_automatic
    (fun entry inside => plainUsers entry (List.mem_append_right _ inside))
    isAutomatic_of_mem_users betweenForm automatic
  obtain ⟨betweenRegular, admits⟩ := admit_addUsers
    (fun entry inside => List.mem_append_left _ inside)
    (fun entry inside => plainUsers entry (List.mem_append_left _ inside))
    isExplicit_of_mem_users (fun entry inside => small.uids _ (List.mem_map_of_mem inside))
    middleRegular (group'.trans group ▸ unique) explicit
  rw [passwd] at admits
  exact ⟨middle, between, groups, users, middleRegular, betweenRegular, passwd,
    group'.trans group, admits, allocates.of_exact (shows_nearest (by decide))
      fun id inside => nearest_of_lt (betweenRegular.uids id inside)⟩

theorem userRequests_eq (entries : List Entry) :
    (userReadings (explicitUsers entries)).map (fun request => (request.1, request.2.2)) =
      userRequests entries := by
  rw [userReadings, List.map_map]
  rfl

theorem mem_users_of_mem_autoUsers {name : Text} (automatic : name ∈ autoUsers entries) :
    name ∈ (runUsers entries).map Entry.username := by
  obtain ⟨entry, inside, rfl⟩ := List.mem_map.mp automatic
  exact List.mem_map_of_mem (List.mem_append_right _ inside)

/-- The users stay distinct when those with an automatic uid have no aliases. -/
theorem RegularRun.distinct_iff (run : RegularRun tools entries first middle between last) :
    Distinct strnum ((runUsers entries).map Entry.username) (registryOf last.passwd) ↔
      NoAlias (userRequests entries) (autoUsers entries) first.passwd := by
  have assigned := run.admits.eq_assign
  have allocates := run.allocates
  rw [userRequests_eq] at assigned
  rw [allocates.distinct_iff (fun _ => mem_users_of_mem_autoUsers) run.betweenRegular.distinct]
  rw [assigned] at allocates ⊢
  refine forall₂_congr fun name _ => ?_
  rw [mem_names_assign, not_or, and_imp]
  exact forall₂_congr fun _ _ => forall_congr' fun other => by rw [mem_names_last allocates]

/-- The target behind a run is regular when its users are distinct. -/
theorem RegularRun.last_regular (run : RegularRun tools entries first middle between last)
    (plain : ∀ entry ∈ runUsers entries, entry.Plain tools ∧ entry.username ≠ [])
    (unique : Unique (registryOf last.group)) (wellFormed : WellFormed last)
    (distinct : Distinct strnum ((runUsers entries).map Entry.username) (registryOf last.passwd))
    (accounts : ∀ entry ∈ runUsers entries, ∃ other ∈ runUsers entries,
      other.username = entry.username ∧
        Account entry.username (gidFor (registryOf last.group) other.group) last.passwd) :
    Regular (runUsers entries) last := by
  have gids : SmallIds (registryOf last.group) :=
    fun id inside => run.middleRegular.gids id (run.group ▸ inside)
  have zero : ∀ name, (name, 0) ∈ registryOf last.group → name ∉ operators :=
    fun name has => run.middleRegular.groupNames (name, 0) (run.group ▸ has) (Or.inl rfl)
  refine ⟨wellFormed, distinct, run.group ▸ run.middleRegular.nodup, ?_, ?_, ?_, gids⟩
  · rintro asking inside ⟨name, id⟩ has asks
    rcases em (name ∈ names (registryOf between.passwd)) with old | new
    · obtain ⟨number, holds⟩ := mem_names.mp old
      have same := eq_of_mem distinct.nodup_names (run.allocates.mem_of_mem holds) has
      exact run.betweenRegular.userNames asking inside (name, id) (same ▸ holds) asks
    · have automatic := (run.allocates.mem_names.mp (mem_names.mpr ⟨id, has⟩)).resolve_right new
      obtain ⟨entry, member, rfl⟩ := List.mem_map.mp automatic
      exact not_mem_operators_of_isPlain (plain entry (List.mem_append_right _ member)).1.username
  · rintro ⟨name, gid⟩ has (rfl | ⟨asking, inside, asks | account⟩)
    · exact zero name has
    · exact run.middleRegular.groupNames (name, gid) (run.group ▸ has)
        (Or.inr ⟨asking, inside, Or.inl asks⟩)
    · obtain ⟨other, member, _, account'⟩ := accounts asking inside
      obtain rfl := account.eq distinct.nodup_names account'
      exact ordinary_gidFor gids unique zero (plain other member).1.group has
  · exact run.allocates.forall_ids run.betweenRegular.uids
      fun id le => le.trans_lt (by decide : maxUid < 2 ^ 53)

theorem Regular.reopened {users : List Entry} (regular : Regular users last) (salts : ℕ) :
    Regular users (last.reopened salts) :=
  ⟨regular.wellFormed.reopened salts, regular.distinct, regular.nodup, regular.userNames,
    regular.groupNames, regular.uids, regular.gids⟩

/-- Registered users keep a target regular. -/
theorem regular_addUsers {users adds : List Entry} (areUsers : ∀ entry ∈ adds, entry ∈ users)
    (plain : ∀ entry ∈ adds, entry.Plain tools ∧ entry.username ≠ [])
    (reads : ∀ entry ∈ adds, isExplicit entry.uid = true ∨ isAutomatic entry.uid = true)
    (small : ∀ entry ∈ adds, isExplicit entry.uid = true → explicitId entry.uid < 2 ^ 53)
    (regular : Regular users first) (unique : Unique (registryOf first.group))
    (present : ∀ entry ∈ adds, entry.username ∈ names (registryOf first.passwd))
    (completes : addUsers tools adds first = .ok last) :
    Regular users last ∧ registryOf last.group = registryOf first.group ∧
      ∀ name ∈ names (registryOf first.passwd), name ∈ names (registryOf last.passwd) := by
  refine invariant_of_foldlM (fun target => Regular users target ∧
    registryOf target.group = registryOf first.group ∧
    ∀ name ∈ names (registryOf first.passwd), name ∈ names (registryOf target.passwd)) ?_ completes
    ⟨regular, rfl, fun _ inside => inside⟩
  rintro entry inside before after step ⟨isRegular, group, stays⟩
  obtain ⟨found, done, rfl⟩ := addOneUser_eq_ok.mp step
  obtain ⟨isPlain, named⟩ := plain entry inside
  obtain ⟨uid, isUid, isSmall⟩ := exists_uid_of_chosen isPlain isRegular.wellFormed.passwd
    (reads entry inside) done.uid
  have uidSmall := isSmall isRegular.uids (small entry inside)
  obtain ⟨_, entered, sameGroup⟩ := registry_userAdded isPlain named isRegular.wellFormed isUid
  have here := stays _ (present entry inside)
  have isLooked : entry.username ∈ users.map Entry.username :=
    List.mem_map_of_mem (areUsers entry inside)
  refine ⟨isRegular.userAdded isPlain named (group ▸ unique) done isUid uidSmall
    fun other member same => isRegular.distinct.eq_of_alias isLooked here member same,
    sameGroup.trans group, fun name old => ?_⟩
  rw [entered]
  exact mem_names_put.mpr (Or.inr (stays name old))

end Run

end Buildroot4G.Users
