/-
This file has what makes an entry of the table be added again: an entry that a first
run left settled passes its checks and finds the ids that it has, in every state of a
second run. The states of the second run have the ids of the first run's result, only
the order of the lines changes.
-/

import Buildroot4G.Users.Regular

namespace Buildroot4G.Users

open Shell Fold Registry Keyed Double

/-- What an entry needs of the ids to be added again. -/
structure Settles (tools : Tools) (uids gids : Registry Text) (entry : Entry) : Prop where
  plain : entry.Plain tools
  named : entry.username ≠ []
  notRoot : entry.username ≠ "root".toList
  uid : (∃ uid : ℕ, testInt entry.uid = some (uid : Int) ∧ uid ≠ 0 ∧
      printfInt entry.uid = ((uid : Int), true) ∧ Sole entry.username uid uids) ∨
    (isAutomatic entry.uid = true ∧ ∃ uid, (entry.username, uid) ∈ uids)
  gid : ∀ value, testInt entry.gid = some value →
    value = -1 ∨ ∃ gid : ℕ, value = gid ∧ gid ≠ 0 ∧ Sole entry.group gid gids ∧
      found strnum entry.group gids = [gid]
  group : ∃ gid, printfIds ((found strnum entry.group gids).map Nat.cast) = (gid, true)
  home : ∃ home, homeOf entry.home = .ok home
  passwd : ∀ salts, ∃ result, encodePasswd tools entry.passwd salts = some result
  made : entry.home = "-".toList ∨ tools.mkdir (homePath tools entry.home) = true

/-- The group that has the gid of an entry is the main group of all entries of its user. -/
def ShareGroups (users : List Entry) (gids : Registry Text) : Prop :=
  ∀ entry ∈ users, ∀ other ∈ users, other.username = entry.username →
    ∀ group, (group, gidFor gids entry.group) ∈ gids → group = other.group

/-- A state of a second run. -/
structure Settled (users : List Entry) (uids gids : Registry Text) (target : Target) : Prop where
  regular : Regular users target
  passwd : (registryOf target.passwd).Perm uids
  group : (registryOf target.group).Perm gids
  account : ∀ entry ∈ users, ∃ other ∈ users, other.username = entry.username ∧
    Account entry.username (gidFor gids other.group) target.passwd

section Add

variable {tools : Tools} {users : List Entry} {uids gids : Registry Text} {target : Target}
  {entry : Entry}

theorem eq_of_perm_of_printfIds {ids ids' : List ℕ} {gid : Int}
    (printed : printfIds (ids.map Nat.cast) = (gid, true)) (perm : ids'.Perm ids) : ids' = ids := by
  match ids with
  | [] => exact List.perm_nil.mp perm
  | [id] => exact List.perm_singleton.mp perm
  | _ :: _ :: _ => cases congrArg Prod.snd printed

/-- The line of a user has the user's gid. -/
theorem account_enter (plain : isPlain entry.username = true) (uid : Int) {gid : ℕ}
    (small : gid < 2 ^ 53) (home : Text) (file : File) :
    Account entry.username gid
      (file.enterAll [(entry.username, passwdLine entry uid gid home)]) := by
  exact ⟨_, List.mem_append_right _ (List.mem_singleton_self _),
    awkInt_passwdLine plain uid small home⟩

/-- Entering a user keeps the lines of the others. -/
theorem Account.enter {file : File} {name username : Text} {gid : ℕ}
    (account : Account username gid file) (forms : ∀ line ∈ file, HasId line)
    (different : username ≠ name) (line : Line) :
    Account username gid (file.enterAll [(name, line)]) := by
  obtain ⟨old, inside, rfl, isGid⟩ := account
  refine ⟨old, List.mem_append_left _ (List.mem_filter.mpr ⟨inside, ?_⟩), rfl, isGid⟩
  rw [headed_eq (forms old inside), decide_eq_false different]
  rfl

/-- The lookups of the main group find what they found in the first run. -/
theorem Settled.found_group (settled : Settled users uids gids target)
    (settles : Settles tools uids gids entry) :
    found strnum entry.group (registryOf target.group) = found strnum entry.group gids := by
  obtain ⟨gid, printed⟩ := settles.group
  exact eq_of_perm_of_printfIds printed ((settled.group.filter _).map _)

theorem Settled.small_gids (settled : Settled users uids gids target) : SmallIds gids :=
  fun id inside => settled.regular.gids id ((settled.group.map Prod.snd).mem_iff.mpr inside)

/-- A user that is registered is found with its uid. -/
theorem Settled.found_user (settled : Settled users uids gids target) (inside : entry ∈ users)
    {uid : ℕ} (has : (entry.username, uid) ∈ uids) :
    found strnum entry.username (registryOf target.passwd) = [uid] := by
  have distinct := settled.regular.distinct
  have here := settled.passwd.mem_iff.mpr has
  exact found_eq_singleton distinct.nodup_names here fun other member same =>
    distinct.eq_of_alias (List.mem_map_of_mem inside) (List.mem_map_of_mem here) member same

theorem Settled.checkUid (settled : Settled users uids gids target)
    (settles : Settles tools uids gids entry) (inside : entry ∈ users) :
    checkUid tools entry target = none := by
  rcases settles.uid with ⟨uid, reads, nonzero, _, has, others⟩ | ⟨automatic, _⟩
  · refine (checkUid_eq_none settled.regular inside settles.plain.username reads).mpr
      ⟨nonzero, fun other holds => others other (settled.passwd.mem_iff.mp holds), ?_⟩
    rw [settled.found_user inside has]
    exact fun id inside => List.mem_singleton.mp inside
  · exact checkUid_of_automatic automatic

theorem Settled.checkGid (settled : Settled users uids gids target)
    (settles : Settles tools uids gids entry) (shared : ShareGroups users gids)
    (inside : entry ∈ users) : checkGid tools entry target = none := by
  have regular := settled.regular
  cases reads : testInt entry.gid with
  | none => rw [Users.checkGid, reads]
  | some value =>
    rcases settles.gid value reads with rfl | ⟨gid, rfl, nonzero, ⟨has, others⟩, one⟩
    · rw [Users.checkGid, reads]
      rfl
    · have isGid : ∀ group, found strnum group gids = [gid] → gidFor gids group = gid := by
        intro group one
        rw [gidFor, settled.small_gids.map_nearest, one]
        rfl
      have gidSmall : gid < 2 ^ 53 := settled.small_gids gid (mem_ids.mpr ⟨_, has⟩)
      obtain ⟨other, member, isUser, account⟩ := settled.account entry inside
      have sameGroup : entry.group = other.group := by
        refine shared entry inside other member isUser entry.group ?_
        rw [isGid entry.group one]
        exact has
      rw [← sameGroup, isGid entry.group one] at account
      refine (checkGid_eq_none regular.wellFormed.group regular.nodup regular.gids
        settles.plain.group reads fun name holds => regular.groupNames (name, gid) holds
          (Or.inr ⟨entry, inside, Or.inl reads⟩)).mpr
        ⟨nonzero, fun name holds => others name (settled.group.mem_iff.mp holds), ?_, ?_⟩
      · rw [idsOf_eq tools regular.wellFormed.group settles.plain.group,
          regular.gids.map_nearest, settled.found_group settles, one]
        exact (idsDiffer_singleton gidSmall).mpr rfl
      · rw [regular.idsOf_account inside settles.plain.username account]
        exact (idsDiffer_singleton gidSmall).mpr rfl

theorem Settled.checkUgroup (settled : Settled users uids gids target)
    (settles : Settles tools uids gids entry) (shared : ShareGroups users gids)
    (inside : entry ∈ users) : checkUgroup tools entry target = none := by
  obtain ⟨other, member, isUser, account⟩ := settled.account entry inside
  refine (checkUgroup_eq_none settled.regular inside settles.plain account).mpr
    fun group holds => ?_
  exact shared other member entry inside isUser.symm group (settled.group.mem_iff.mp holds)

theorem Settled.checkUserValidity (settled : Settled users uids gids target)
    (settles : Settles tools uids gids entry) (shared : ShareGroups users gids)
    (inside : entry ∈ users) : checkUserValidity tools entry target = none := by
  rw [Users.checkUserValidity, if_neg settles.notRoot, settled.checkGid settles shared inside,
    settled.checkUid settles inside, settled.checkUgroup settles shared inside]
  rfl

/-- The id of a settled user. -/
theorem Settles.exists_uid (settles : Settles tools uids gids entry) :
    ∃ uid, (entry.username, uid) ∈ uids := by
  rcases settles.uid with ⟨uid, _, _, _, has, _⟩ | ⟨_, uid, has⟩
  · exact ⟨uid, has⟩
  · exact ⟨uid, has⟩

theorem Settled.chooseId (settled : Settled users uids gids target)
    (settles : Settles tools uids gids entry) (inside : entry ∈ users)
    (nodup : (names uids).Nodup) {uid : ℕ} (has : (entry.username, uid) ∈ uids) :
    chooseId (generateUid tools entry.username target.passwd) entry.uid =
      .ok ((uid : Int), true) := by
  rcases settles.uid with ⟨number, reads, _, printed, holds, _⟩ | ⟨automatic, _⟩
  · rw [eq_of_mem nodup has holds, Users.chooseId, if_neg, printed]
    rw [reads]
    intro same
    have := Option.some.inj same
    omega
  · rw [Users.chooseId, if_pos (of_decide_eq_true automatic), generateUid, generateId_of_found
      settled.regular.wellFormed.passwd settled.regular.uids settles.plain.username
      (settled.found_user inside has)]
    rfl

/-- A settled entry is added again, and the state stays one of a second run. -/
theorem Settled.addOneUser (settled : Settled users uids gids target)
    (settles : Settles tools uids gids entry) (nodup : (names uids).Nodup)
    (unique : Unique gids) (shared : ShareGroups users gids) (inside : entry ∈ users) :
    ∃ after, addOneUser tools entry target = .ok after ∧ Settled users uids gids after := by
  have regular := settled.regular
  obtain ⟨uid, has⟩ := settles.exists_uid
  obtain ⟨gid, printed⟩ := settles.group
  obtain ⟨home, isHome⟩ := settles.home
  obtain ⟨⟨passwd, salts⟩, encoded⟩ := settles.passwd target.salts
  have sameGid : gidFor (registryOf target.group) entry.group = gidFor gids entry.group := by
    rw [gidFor, gidFor, settled.found_group settles]
  let foundNow : Found := ⟨uid, gid, home, passwd, salts⟩
  have isUid : foundNow.uid = (uid : Int) := rfl
  have completes : Completes tools entry target foundNow := {
    valid := settled.checkUserValidity settles shared inside
    uid := settled.chooseId settles inside nodup has
    gid := by
      rw [idsOf_eq tools regular.wellFormed.group settles.plain.group, regular.gids.map_nearest,
        settled.found_group settles, printed]
    home := isHome
    passwd := encoded
    made := settles.made }
  have here := settled.passwd.mem_iff.mpr has
  have uidSmall := regular.uids uid (mem_ids.mpr ⟨_, here⟩)
  have noAlias : ∀ other ∈ names (registryOf target.passwd),
      strnum other = strnum entry.username → other = entry.username :=
    fun other member same => regular.distinct.eq_of_alias (List.mem_map_of_mem inside)
      (List.mem_map_of_mem here) member same
  have uniqueHere : Unique (registryOf target.group) := fun first has second has' =>
    unique first (settled.group.mem_iff.mp has) second (settled.group.mem_iff.mp has')
  obtain ⟨_, entered, group⟩ :=
    registry_userAdded settles.plain settles.named regular.wellFormed isUid
  refine ⟨_, addOneUser_eq_ok.mpr ⟨_, completes, rfl⟩,
    regular.userAdded settles.plain settles.named uniqueHere completes isUid uidSmall noAlias, ?_,
    ?_, ?_⟩
  · rw [entered]
    exact (put_perm regular.distinct.nodup_names here).trans settled.passwd
  · rw [group]
    exact settled.group
  · intro other member
    rw [passwd_userAdded settles.plain regular.wellFormed completes]
    by_cases same : other.username = entry.username
    · refine ⟨entry, inside, same.symm, ?_⟩
      rw [same, ← sameGid]
      exact account_enter settles.plain.username _ (gidFor_lt regular.gids _) _ _
    · obtain ⟨holder, isUser, sameUser, account⟩ := settled.account other member
      exact ⟨holder, isUser, sameUser, account.enter regular.wellFormed.passwd same _⟩

end Add

/-! ### Settled by a first run -/

section First

variable {tools : Tools} {entries : List Entry} {first middle between last target : Target}
  {entry : Entry}

/-- A gid that a lookup of a main group finds is the one that is printed. -/
theorem gidFor_of_found {gids : Registry Text} (small : SmallIds gids) {group : Text} {id : ℕ}
    {printed : Int}
    (isPrinted : printfIds ((found strnum group gids).map Nat.cast) = (printed, true))
    (member : id ∈ found strnum group gids) :
    found strnum group gids = [id] ∧ gidFor gids group = id := by
  have one : found strnum group gids = [id] := by
    match ids : found strnum group gids with
    | [] =>
      rw [ids] at member
      cases member
    | [other] =>
      rw [ids] at member
      rw [List.mem_singleton.mp member]
    | _ :: _ :: _ =>
      rw [ids] at isPrinted
      cases congrArg Prod.snd isPrinted
  exact ⟨one, by rw [gidFor, small.map_nearest, one]; rfl⟩

theorem nonzero_of_checkUid (valid : checkUid tools entry target = none) {uid : ℕ}
    (reads : testInt entry.uid = some (uid : Int)) : uid ≠ 0 := by
  rintro rfl
  rw [checkUid, reads] at valid
  cases valid

/-- Whether a password can be encoded does not depend on the salts. -/
theorem isSome_encodePasswd (passwd : Text) (salts salts' : ℕ) :
    (encodePasswd tools passwd salts).isSome = (encodePasswd tools passwd salts').isSome := by
  rw [encodePasswd, encodePasswd]
  split
  · rfl
  · split
    · rw [Option.isSome_map, Option.isSome_map]
    · split
      · rw [Option.isSome_map, Option.isSome_map]
      · rfl

/-- The gid of an entry that passed its check. -/
theorem gid_of_checkGid (valid : checkGid tools entry target = none)
    (forms : ∀ line ∈ target.group, HasId line)
    (nodup : (names (registryOf target.group)).Nodup)
    (small : SmallIds (registryOf target.group))
    (plain : isPlain entry.group = true)
    (ordinary : ∀ group ∈ registryOf target.group, testInt entry.gid = some (group.2 : Int) →
      group.1 ∉ operators) {printed : Int}
    (isPrinted : printfIds ((found strnum entry.group (registryOf target.group)).map Nat.cast) =
      (printed, true))
    (known : isExplicit entry.gid = true → entry.group ∈ names (registryOf target.group))
    {value : Int} (reads : testInt entry.gid = some value) :
    value = -1 ∨ ∃ gid : ℕ, value = gid ∧ gid ≠ 0 ∧
      Sole entry.group gid (registryOf target.group) ∧
      found strnum entry.group (registryOf target.group) = [gid] := by
  by_cases automatic : value = -1
  · exact Or.inl automatic
  by_cases negative : value < 0
  · rw [checkGid, reads] at valid
    simp only at valid
    rw [if_pos (by omega)] at valid
    cases valid
  obtain ⟨gid, rfl⟩ := Int.eq_ofNat_of_zero_le (by omega : 0 ≤ value)
  obtain ⟨nonzero, others, agrees, _⟩ :=
    (checkGid_eq_none forms nodup small plain reads
      fun name has => ordinary (name, gid) has reads).mp valid
  have explicit : isExplicit entry.gid = true := by
    rw [isExplicit, reads]
    exact decide_eq_true (by omega)
  obtain ⟨id, has⟩ := mem_names.mp (known explicit)
  obtain ⟨one, _⟩ := gidFor_of_found small isPrinted (mem_found.mpr ⟨entry.group, has, rfl⟩)
  have few : [id] = [] ∨ ∃ id', [id] = [id'] := Or.inr ⟨id, rfl⟩
  have fewSmall : ∀ id' ∈ [id], id' < 2 ^ 53 :=
    fun id' isId => small id' (mem_ids.mpr ⟨_, List.mem_singleton.mp isId ▸ has⟩)
  rw [idsOf_eq tools forms plain, small.map_nearest, one] at agrees
  obtain rfl : id = gid := (idsDiffer_iff few fewSmall).mp agrees id List.mem_cons_self
  exact Or.inr ⟨id, rfl, nonzero, ⟨has, others⟩, one⟩

/-- The users of a completed run are settled by it. -/
theorem settles_of_run (run : RegularRun tools entries first middle between last)
    (plain : ∀ entry ∈ runUsers entries, entry.Plain tools ∧ entry.username ≠ [])
    (known : ∀ entry ∈ runUsers entries, isExplicit entry.gid = true →
      entry.group ∈ names (registryOf last.group))
    (distinct : Distinct strnum ((runUsers entries).map Entry.username) (registryOf last.passwd))
    (readings : ∀ entry ∈ explicitUsers entries,
      testInt entry.uid = some (explicitId entry.uid : Int)) :
    ∀ entry ∈ runUsers entries,
      Settles tools (registryOf last.passwd) (registryOf last.group) entry := by
  intro entry inside
  obtain ⟨target, found, form, sameGroup, done⟩ := exists_completes_of_addUsers plain
    reads_of_mem_runUsers run.middleRegular.wellFormed run.users entry inside
  obtain ⟨isPlain, named⟩ := plain entry inside
  have group : registryOf target.group = registryOf last.group := sameGroup.trans run.group.symm
  have valid := done.valid
  rw [checkUserValidity] at valid
  split at valid
  · cases valid
  rename_i notRoot
  rw [Option.or_eq_none_iff, Option.or_eq_none_iff] at valid
  obtain ⟨validGid, validUid, _⟩ := valid
  have small : SmallIds (registryOf target.group) := sameGroup ▸ run.middleRegular.gids
  have printed := done.gid
  rw [idsOf_eq tools form.group isPlain.group, small.map_nearest] at printed
  refine ⟨isPlain, named, notRoot, ?_, ?_, ⟨found.gid, group ▸ printed⟩, ⟨_, done.home⟩,
    fun salts => ?_, done.made⟩
  · rcases List.mem_append.mp inside with explicit | automatic
    · have isExplicit := isExplicit_of_mem_users entry explicit
      have reads := readings entry explicit
      have asked : askedId entry.uid = explicitId entry.uid := by
        rw [askedId, reads]
        rfl
      have agree : ∀ request ∈ userReadings (explicitUsers entries),
          request.2.1 = request.2.2 := by
        intro request member
        obtain ⟨other, otherInside, rfl⟩ := List.mem_map.mp member
        change askedId other.uid = explicitId other.uid
        rw [askedId, readings other otherInside]
        rfl
      have sole := run.admits.sole agree _ (List.mem_map_of_mem explicit)
      refine Or.inl ⟨explicitId entry.uid, reads, nonzero_of_checkUid validUid reads, ?_,
        run.allocates.keeps_sole (fun _ => mem_users_of_mem_autoUsers) distinct (asked ▸ sole)⟩
      have isValue := eq_explicitId_of_chooseId isExplicit done.uid
      have chosen := done.uid
      rw [chooseId_of_isExplicit isExplicit] at chosen
      rw [Except.ok.inj chosen, isValue]
    · refine Or.inr ⟨isAutomatic_of_mem_users entry automatic, ?_⟩
      exact mem_names.mp (run.allocates.mem_names.mpr (Or.inl (List.mem_map_of_mem automatic)))
  · intro value reads
    have regular := run.middleRegular
    have nodup : (names (registryOf target.group)).Nodup := sameGroup ▸ regular.nodup
    have ordinary : ∀ group ∈ registryOf target.group, testInt entry.gid = some (group.2 : Int) →
        group.1 ∉ operators := by
      rw [sameGroup]
      exact fun group has asks =>
        regular.groupNames group has (Or.inr ⟨entry, inside, Or.inl asks⟩)
    have isKnown : isExplicit entry.gid = true → entry.group ∈ names (registryOf target.group) :=
      group ▸ known entry inside
    have := gid_of_checkGid validGid form.group nodup small isPlain.group ordinary printed isKnown
      reads
    rwa [group] at this
  · rw [← Option.isSome_iff_exists, isSome_encodePasswd entry.passwd salts target.salts,
      done.passwd]
    rfl

end First

end Buildroot4G.Users
