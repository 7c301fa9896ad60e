/-
This file says what the checks of `check_user_validity` check. On a target where awk takes
no two names for a user of the table and whose ids it has exactly, every lookup of a user of
the table finds one line at most, and the checks become statements about the two registries:
the uid of a user's line is the user's or free, and so is its gid, and the group that has the
user's gid is the main group of the line.
-/

import Buildroot4G.Users.Plain

namespace Buildroot4G.Users

open Shell Registry Double

/-- All ids are exact for awk. -/
def SmallIds (registry : Registry Text) : Prop := ∀ id ∈ ids registry, id < 2 ^ 53

instance (registry : Registry Text) : Decidable (SmallIds registry) :=
  inferInstanceAs (Decidable (∀ id ∈ ids registry, _))

/-- The user has a line with the gid. -/
def Account (username : Text) (gid : ℕ) (file : File) : Prop :=
  ∃ line ∈ file, line.field 1 = username ∧ awkInt (line.field 4) = gid

instance (username : Text) (gid : ℕ) (file : File) : Decidable (Account username gid file) :=
  inferInstanceAs (Decidable (∃ line ∈ file, _))

/-- The checks of the users look up who has the gid: it is the one of an unknown group, or an
entry asks for it, or a user has it. -/
def LooksUpGid (users : List Entry) (gid : ℕ) (passwd : File) : Prop :=
  gid = 0 ∨ ∃ entry ∈ users, testInt entry.gid = some (gid : Int) ∨
    Account entry.username gid passwd

instance (users : List Entry) (gid : ℕ) (passwd : File) :
    Decidable (LooksUpGid users gid passwd) :=
  inferInstanceAs (Decidable (_ ∨ ∃ entry ∈ users, _))

/-- A target in which the users of a table and their groups can be looked up: awk takes no two
names for a user, no group has two lines, no id is too large for awk, and who has an id that is
looked up is not named by a word that `[` takes for an operator. -/
structure Regular (users : List Entry) (target : Target) : Prop where
  wellFormed : WellFormed target
  distinct : Distinct strnum (users.map Entry.username) (registryOf target.passwd)
  nodup : (names (registryOf target.group)).Nodup
  userNames : ∀ entry ∈ users, ∀ user ∈ registryOf target.passwd,
    testInt entry.uid = some (user.2 : Int) → user.1 ∉ operators
  groupNames : ∀ group ∈ registryOf target.group, LooksUpGid users group.2 target.passwd →
    group.1 ∉ operators
  uids : SmallIds (registryOf target.passwd)
  gids : SmallIds (registryOf target.group)

instance (users : List Entry) (target : Target) : Decidable (Regular users target) :=
  decidable_of_iff (WellFormed target ∧
      Distinct strnum (users.map Entry.username) (registryOf target.passwd) ∧
      (names (registryOf target.group)).Nodup ∧
      (∀ entry ∈ users, ∀ user ∈ registryOf target.passwd,
        testInt entry.uid = some (user.2 : Int) → user.1 ∉ operators) ∧
      (∀ group ∈ registryOf target.group, LooksUpGid users group.2 target.passwd →
        group.1 ∉ operators) ∧
      SmallIds (registryOf target.passwd) ∧ SmallIds (registryOf target.group))
    ⟨fun ⟨wellFormed, distinct, nodup, userNames, groupNames, uids, gids⟩ =>
        ⟨wellFormed, distinct, nodup, userNames, groupNames, uids, gids⟩,
      fun regular => ⟨regular.wellFormed, regular.distinct, regular.nodup, regular.userNames,
        regular.groupNames, regular.uids, regular.gids⟩⟩

/-! ### Captured names -/

/-- Nothing is removed from the end of names. -/
theorem capture_eq {lines : List Text} (named : ∀ line ∈ lines, line ≠ [] ∧ '\n' ∉ line) :
    capture lines = ['\n'].intercalate lines := by
  have ends : ∀ lines : List Text, (∀ line ∈ lines, line ≠ [] ∧ '\n' ∉ line) → lines ≠ [] →
      ∃ before c, ['\n'].intercalate lines = before ++ [c] ∧ c ≠ '\n' := by
    intro lines named nonempty
    induction lines with
    | nil => exact absurd rfl nonempty
    | cons line rest inductionHypothesis =>
      cases rest with
      | nil =>
        obtain ⟨lineNonempty, oneLine⟩ := named line List.mem_cons_self
        refine ⟨line.dropLast, line.getLast lineNonempty, ?_, fun same => ?_⟩
        · rw [List.dropLast_concat_getLast]
          simp [List.intercalate]
        · exact oneLine (same ▸ List.getLast_mem lineNonempty)
      | cons next rest =>
        obtain ⟨before, c, same, different⟩ := inductionHypothesis
          (fun other inside => named other (List.mem_cons_of_mem line inside)) nofun
        exact ⟨line ++ ['\n'] ++ before, c,
          by rw [List.intercalate_cons_cons, same, List.append_assoc _ before], different⟩
  cases lines with
  | nil => rfl
  | cons line rest =>
    obtain ⟨before, c, same, different⟩ := ends (line :: rest) named nofun
    rw [capture, same, List.reverse_append, List.reverse_singleton, List.singleton_append,
      List.dropWhile_cons_of_neg (by rw [beq_iff_eq]; exact different), List.reverse_cons,
      List.reverse_reverse]

/-- The tests on the names that awk printed: there is none, or only this one. -/
theorem testDiffers_capture {tools : Tools} {lines : List Text} {name : Text}
    (named : ∀ line ∈ lines, line ≠ [] ∧ '\n' ∉ line) (ordinary : ∀ line ∈ lines, line ∉ operators)
    (oneLine : '\n' ∉ name) :
    testDiffers tools (capture lines) name = false ↔ lines = [] ∨ lines = [name] := by
  have noNewline : ∀ operator ∈ operators, '\n' ∉ operator := by decide
  rw [testDiffers, capture_eq named]
  match lines with
  | [] => exact iff_of_true rfl (Or.inl rfl)
  | [line] =>
    have whole : ['\n'].intercalate [line] = line := by simp [List.intercalate]
    rw [whole, if_neg (ordinary line List.mem_cons_self),
      decide_eq_true (named line List.mem_cons_self).1, Bool.true_and, decide_eq_false_iff_not,
      not_not, List.cons.injEq, and_iff_left rfl]
    exact ⟨Or.inr, fun one => one.resolve_left nofun⟩
  | line :: next :: rest =>
    have newline : '\n' ∈ ['\n'].intercalate (line :: next :: rest) := by
      rw [List.intercalate_cons_cons]
      simp
    have different : ['\n'].intercalate (line :: next :: rest) ≠ name :=
      fun same => oneLine (same ▸ newline)
    rw [if_neg fun operator => noNewline _ operator newline,
      decide_eq_true (List.ne_nil_of_mem newline), decide_eq_true different]
    exact iff_of_false nofun (fun one => one.elim nofun nofun)

/-! ### Lookups -/

section File

variable {tools : Tools} {file : File}

variable (tools) in
theorem variableValue_of_testInt {text : Text} {id : ℕ} (reads : testInt text = some (id : Int)) :
    variableValue tools text = .number (nearest id) := by
  rw [variableValue_eq (not_mem_of_testInt reads rfl (by decide) rfl), strnum_of_testInt reads,
    Int.cast_natCast, toDouble_natCast]

/-- The ids that are found are small. -/
theorem SmallIds.lt {registry : Registry Text} (small : SmallIds registry) {name : Text} {id : ℕ}
    (isFound : id ∈ found strnum name registry) : id < 2 ^ 53 := by
  obtain ⟨holder, has, _⟩ := mem_found.mp isFound
  exact small id (mem_ids.mpr ⟨holder, has⟩)

theorem SmallIds.map_nearest {registry : Registry Text} (small : SmallIds registry) (name : Text) :
    (found strnum name registry).map nearest = found strnum name registry :=
  (List.map_congr_left fun _ isFound => nearest_of_lt (small.lt isFound)).trans (List.map_id _)

/-- A generated id is small. -/
theorem SmallIds.lt_of_generateId {registry : Registry Text} (small : SmallIds registry)
    {name : Text} {low high id : ℕ} (highSmall : high < 2 ^ 53)
    (finds : (found strnum name registry).map nearest = [id] ∨
      found strnum name registry = [] ∧ low ≤ id ∧ id ≤ high ∧
        id ∉ ids registry) : id < 2 ^ 53 := by
  rcases finds with one | ⟨_, _, below, _⟩
  · rw [small.map_nearest] at one
    exact small.lt (one ▸ List.mem_singleton_self id)
  · exact below.trans_lt highSmall

theorem SmallIds.seenRegistry_eq (small : SmallIds (registryOf file)) :
    seenRegistry file = registryOf file := by
  refine (List.map_congr_left fun entry inside => ?_).trans (List.map_id _)
  exact Prod.ext rfl (nearest_of_lt (small entry.2 (List.mem_map_of_mem inside)))

/-- A small id is the only number with its double. -/
theorem SmallIds.mem_nearest (small : SmallIds (registryOf file)) {name : Text} {id : ℕ} :
    (name, nearest id) ∈ registryOf file ↔ (name, id) ∈ registryOf file := by
  constructor
  · intro has
    have less := small _ (mem_ids.mpr ⟨name, has⟩)
    rwa [(nearest_eq_iff less).mp rfl]
  · intro has
    rwa [nearest_of_lt (small _ (mem_ids.mpr ⟨name, has⟩))]

variable (tools) in
/-- The test on the names that have a number. -/
theorem testDiffers_namesOf (forms : ∀ line ∈ file, HasId line)
    (nodup : (names (registryOf file)).Nodup) (small : SmallIds (registryOf file))
    {text name : Text} {id : ℕ}
    (ordinary : ∀ other, (other, id) ∈ registryOf file → other ∉ operators)
    (reads : variableValue tools text = .number (nearest id)) (oneLine : '\n' ∉ name) :
    testDiffers tools (capture (namesOf tools text file)) name = false ↔
      ∀ other, (other, id) ∈ registryOf file → other = name := by
  have inside : ∀ other ∈ holders (nearest id) (registryOf file),
      ∃ line ∈ file, line.field 1 = other := by
    intro other holds
    obtain ⟨entry, kept, rfl⟩ := List.mem_map.mp holds
    obtain ⟨line, member, rfl⟩ := List.mem_map.mp (List.mem_of_mem_filter kept)
    exact ⟨line, member, rfl⟩
  rw [namesOf_eq forms reads, small.seenRegistry_eq, testDiffers_capture ?_ ?_ oneLine,
    holders_iff nodup]
  · exact forall_congr' fun other => by rw [small.mem_nearest]
  · intro other holds
    obtain ⟨line, member, rfl⟩ := inside other holds
    exact ⟨(forms line member).named, (forms line member).oneLine⟩
  · exact fun other holds => ordinary other (small.mem_nearest.mp (mem_holders.mp holds))

/-- A lookup of a user finds the fields of the user's line. -/
theorem idsOf_eq_singleton (forms : ∀ line ∈ file, HasId line) {looked : List Text}
    (distinct : Distinct strnum looked (registryOf file)) {line : Line} (inside : line ∈ file)
    (isLooked : line.field 1 ∈ looked) (plain : isPlain (line.field 1) = true) (n : ℕ) :
    idsOf tools n (line.field 1) file = [awkInt (line.field n)] := by
  have isName : ∀ other ∈ file, Line.field 1 other ∈ names (registryOf file) :=
    fun other member => List.mem_map_of_mem (f := Prod.fst) (List.mem_map_of_mem member)
  have nodup : (file.lines.map fun line => line.field 1).Nodup := by
    have nodup := distinct.nodup_names
    rw [names, registryOf, List.map_map] at nodup
    exact nodup
  have only : file.lines.filter (Line.equals 1 (variableValue tools (line.field 1))) =
      file.lines.filter fun other => decide (other = line) := by
    refine List.filter_congr fun other member => ?_
    have three := (forms other member).fields
    rw [Line.equals_eq (by omega), variableValue_eq (not_mem_of_isPlain plain (by decide))]
    refine decide_eq_decide.mpr ⟨fun same => List.inj_on_of_nodup_map nodup member inside
      (distinct.eq_of_alias isLooked (isName line inside) (isName other member) same), ?_⟩
    rintro rfl
    rfl
  rw [idsOf, idsUnder, only, List.filter_eq,
    List.count_eq_one_of_mem (List.Nodup.of_map _ nodup) inside]
  rfl

theorem fitsInt_of_lt {id : ℕ} (small : id < 2 ^ 53) : FitsInt id := by
  constructor <;> omega

/-- `generate_gid` and `generate_uid` report the id of a name. -/
theorem generateId_of_found (forms : ∀ line ∈ file, HasId line) (small : SmallIds (registryOf file))
    {name : Text} (plain : isPlain name = true) {low high : ℕ} {format : String} {id : ℕ}
    (one : found strnum name (registryOf file) = [id]) :
    generateId tools low high format name file = .ok (id : Int) := by
  have fits := fitsInt_of_lt (small.lt (one ▸ List.mem_singleton_self id))
  rw [generateId, idsOf_eq tools forms plain, small.map_nearest, one]
  exact if_pos fits

end File

/-! ### The checks -/

theorem refuses_iff {refuses : Bool} {failure : Failure} {later : Option Failure} :
    (if refuses = true then some failure else later) = none ↔ refuses = false ∧ later = none := by
  cases refuses with
  | false => simp
  | true => simp

theorem idsDiffer_iff {ids : List ℕ} (few : ids = [] ∨ ∃ id, ids = [id])
    (small : ∀ id ∈ ids, id < 2 ^ 53) {value : ℕ} :
    idsDiffer (ids.map Nat.cast) value = false ↔ ∀ id ∈ ids, id = value := by
  rcases few with rfl | ⟨id, rfl⟩
  · exact iff_of_true rfl nofun
  · have fits := fitsInt_of_lt (small id List.mem_cons_self)
    simp [idsDiffer, fits]

theorem idsDiffer_singleton {id value : ℕ} (small : id < 2 ^ 53) :
    idsDiffer [(id : Int)] value = false ↔ id = value :=
  (idsDiffer_iff (Or.inr ⟨id, rfl⟩) fun _ inside => List.mem_singleton.mp inside ▸ small).trans
    (by simp)

section Checks

variable {tools : Tools} {users : List Entry} {entry : Entry} {target : Target}

theorem checkUid_eq_none (regular : Regular users target) (inside : entry ∈ users)
    (plain : isPlain entry.username = true) {uid : ℕ}
    (reads : testInt entry.uid = some (uid : Int)) :
    checkUid tools entry target = none ↔
      uid ≠ 0 ∧ (∀ other, (other, uid) ∈ registryOf target.passwd → other = entry.username) ∧
        ∀ id ∈ found strnum entry.username (registryOf target.passwd), id = uid := by
  have forms := regular.wellFormed.passwd
  have few : found strnum entry.username (registryOf target.passwd) = [] ∨
      ∃ id, found strnum entry.username (registryOf target.passwd) = [id] :=
    (regular.distinct.found_cases (List.mem_map_of_mem inside)).imp_right
      fun ⟨_, id, _, _, one⟩ => ⟨id, one⟩
  rw [← testDiffers_namesOf tools forms regular.distinct.nodup_names regular.uids
    (fun other has => regular.userNames entry inside (other, uid) has reads)
    (variableValue_of_testInt tools reads) (not_mem_of_isPlain plain (by decide)),
    ← idsDiffer_iff few fun _ isFound => regular.uids.lt isFound,
    ← regular.uids.map_nearest, ← idsOf_eq tools forms plain, checkUid, reads]
  simp only [Nat.cast_eq_zero]
  by_cases zero : uid = 0
  · simp [zero]
  · rw [if_neg (by omega), if_neg (by omega), refuses_iff, refuses_iff, and_iff_left rfl,
      and_iff_right zero]

theorem checkUid_of_automatic (automatic : isAutomatic entry.uid = true) :
    checkUid tools entry target = none := by
  rw [checkUid, of_decide_eq_true automatic]
  rfl

theorem checkGid_eq_none (forms : ∀ line ∈ target.group, HasId line)
    (nodup : (names (registryOf target.group)).Nodup) (small : SmallIds (registryOf target.group))
    (plain : isPlain entry.group = true) {gid : ℕ} (reads : testInt entry.gid = some (gid : Int))
    (ordinary : ∀ name, (name, gid) ∈ registryOf target.group → name ∉ operators) :
    checkGid tools entry target = none ↔
      gid ≠ 0 ∧ (∀ other, (other, gid) ∈ registryOf target.group → other = entry.group) ∧
        idsDiffer (idsOf tools 3 entry.group target.group) gid = false ∧
        idsDiffer (idsOf tools 4 entry.username target.passwd) gid = false := by
  rw [← testDiffers_namesOf tools forms nodup small ordinary (variableValue_of_testInt tools reads)
    (not_mem_of_isPlain plain (by decide)), checkGid, reads]
  simp only [Nat.cast_eq_zero]
  by_cases zero : gid = 0
  · simp [zero]
  · rw [if_neg (by omega), if_neg (by omega), refuses_iff, refuses_iff, refuses_iff,
      and_iff_left rfl, and_iff_right zero]

/-- awk finds the gid in the line of a user. -/
theorem Regular.idsOf_account (regular : Regular users target) (inside : entry ∈ users)
    (plain : isPlain entry.username = true) {gid : ℕ}
    (account : Account entry.username gid target.passwd) :
    idsOf tools 4 entry.username target.passwd = [(gid : Int)] := by
  obtain ⟨line, isLine, isName, isGid⟩ := account
  have isLooked : line.field 1 ∈ users.map Entry.username := isName ▸ List.mem_map_of_mem inside
  rw [← isName] at plain ⊢
  rw [idsOf_eq_singleton regular.wellFormed.passwd regular.distinct isLine isLooked plain, isGid]

theorem checkUgroup_eq_none (regular : Regular users target) (inside : entry ∈ users)
    (plain : entry.Plain tools) {gid : ℕ} (account : Account entry.username gid target.passwd) :
    checkUgroup tools entry target = none ↔
      ∀ other, (other, gid) ∈ registryOf target.group → other = entry.group := by
  have shown : showIds [(gid : Int)] = decimal gid := by
    rw [showIds, List.map_singleton, capture_eq]
    · simp [List.intercalate, showInt]
    · intro line inside
      rw [List.mem_singleton.mp inside]
      exact ⟨(isNumber_decimal gid).1, not_mem_showInt rfl (by decide) (Int.ofNat gid)⟩
  have ordinary : ∀ other, (other, gid) ∈ registryOf target.group → other ∉ operators :=
    fun other has =>
      regular.groupNames (other, gid) has (Or.inr ⟨entry, inside, Or.inr account⟩)
  rw [← testDiffers_namesOf tools regular.wellFormed.group regular.nodup regular.gids ordinary
    (variableValue_decimal gid) (not_mem_of_isPlain plain.group (by decide)), checkUgroup, ugroupOf,
    regular.idsOf_account inside plain.username account, if_neg (List.cons_ne_nil _ _), shown]
  exact refuses_iff.trans (and_iff_left rfl)

end Checks

end Buildroot4G.Users
