/-
This file has the results about ids of completed runs that take the names as they stand.
A group that was there keeps its gid exactly when no line of the table asks for another one and awk,
where it reads the gid again, prints it as it is. An automatic id is in the range and
nobody else's exactly when the name has no alias, that is, no other name that awk takes
for the same number. And all ids are unique exactly when the explicit ids of the table,
the last one for a name counting, and those that awk prints for a name or its alias
leave them unique, and no two new names are aliases.

The checks of `check_user_validity` play no part in these results: they make runs
fail, but they are made behind the passes that enter the groups, and only for users.
-/

import Buildroot4G.Users.Ids

namespace Buildroot4G.Users

open Shell Registry Double

/-! ### Existing groups -/

/-- The groups of the file keep their gids. -/
def KeepsGids (before after : File) : Prop := ∀ entry ∈ registryOf before, entry ∈ registryOf after

instance (before after : File) : Decidable (KeepsGids before after) :=
  inferInstanceAs (Decidable (∀ entry ∈ registryOf before, _))

/-- A line of the table asks for another gid for a group of the file. -/
def AsksOther (entries : List Entry) (file : File) : Prop :=
  ∃ entry ∈ entries, isExplicit entry.gid = true ∧
    ∃ line ∈ file, line.field 1 = entry.group ∧ number (line.field 3) ≠ explicitId entry.gid

instance (entries : List Entry) (file : File) : Decidable (AsksOther entries file) :=
  inferInstanceAs (Decidable (∃ entry ∈ entries, _ ∧ ∃ line ∈ file, _))

/-- The gid of a group of the file behind a run: the last one that the table asks for or its own,
as a double when awk reads it again. -/
def finalGid (tools : Tools) (entries : List Entry) (group : Text × ℕ) : ℕ :=
  settledId nearest (autoGroups tools entries) group.1
    ((requested (groupRequests entries) group.1).getD group.2)

/-- No group was renumbered, and no line that asks for it was accepted. -/
structure NotRenumbered (table : Text) (first last : Target) : Prop where
  kept : KeepsGids first.group last.group
  refused : ¬AsksOther (tableEntries table) first.group

section Results

variable {tools : Tools} {table : Text} {first last : Target}

theorem mem_groupRequests {entries : List Entry} {name : Text} {id : ℕ} :
    (name, id) ∈ groupRequests entries ↔
      ∃ entry ∈ entries, isExplicit entry.gid = true ∧ entry.group = name ∧
        explicitId entry.gid = id := by
  simp [groupRequests, explicitGroups, and_assoc]

/-- A completed run whose additions take the names as they stand is a run of both registries. -/
theorem registered_of_meets
    (meets : RunMeets tools table (fun group target => EntersGroup tools group target.group)
      (fun entry target => EntersUser tools entry target.passwd ∧
        JoinsGroups tools entry target.group) first)
    (users : ∀ line ∈ first.passwd, HasId line) (groups : ∀ line ∈ first.group, GivesGid line)
    (completes : main tools table first = .ok last) :
    RegisteredGids tools (tableEntries table) first.group last.group ∧
      RegisteredUids (tableEntries table) first.passwd last.passwd :=
  ⟨(registeredGids_main (meets.mono (fun _ _ enters => enters) fun _ _ enters => enters.2) groups
      completes).2,
    (registeredUids_main (meets.mono (fun _ _ _ => trivial) fun _ _ enters => enters.1) users
      completes).2⟩

theorem shows_gids : Shows nearest maxGid := shows_nearest (by decide)

theorem shows_uids : Shows nearest maxUid := shows_nearest (by decide)

/-- A group keeps its gid when the one it has in the end is it. -/
theorem keepsGids_iff_finalGid
    (registered : RegisteredGids tools (tableEntries table) first.group last.group)
    (nodup : (names (registryOf first.group)).Nodup) :
    KeepsGids first.group last.group ↔
      ∀ group ∈ registryOf first.group, finalGid tools (tableEntries table) group = group.2 := by
  have lastNodup := registered.nodup_names (nodup_names_assign nodup _)
  have final : ∀ group ∈ registryOf first.group,
      (group.1, finalGid tools (tableEntries table) group) ∈ registryOf last.group := by
    intro group inside
    refine registered.settled_mem shows_gids (mem_assign.mpr ?_)
    cases asked : requested (groupRequests (tableEntries table)) group.1 with
    | none => exact Or.inr ⟨rfl, inside⟩
    | some id => exact Or.inl rfl
  constructor
  · exact fun kept group inside => eq_of_mem lastNodup (final group inside) (kept group inside)
  · intro same group inside
    have isFinal := final group inside
    rw [same group inside] at isFinal
    exact isFinal

/-- A name with an automatic id that neither the file nor an explicit id of the table gave one
gets an id of the range that no other name has. -/
def OwnIds (low high : ℕ) (requests : List (Text × ℕ)) (autos : List Text) (before after : File) :
    Prop :=
  ∀ name ∈ autos, name ∉ requests.map Prod.fst → name ∉ names (registryOf before) →
    Own low high name (registryOf after)

/-- No such name is equal, for awk, to another name of the table or of the file. -/
def NoAlias (requests : List (Text × ℕ)) (autos : List Text) (before : File) : Prop :=
  ∀ name ∈ autos, name ∉ requests.map Prod.fst → name ∉ names (registryOf before) →
    ∀ other ∈ autos ++ (requests.map Prod.fst ++ names (registryOf before)),
      strnum other = strnum name → other = name

instance (requests : List (Text × ℕ)) (autos : List Text) (before : File) :
    Decidable (NoAlias requests autos before) :=
  inferInstanceAs (Decidable (∀ name ∈ autos, _ → _ → ∀ other ∈ _ ++ _, _))

theorem mem_names_last {shown : ℕ → ℕ} {low high : ℕ} {requests : List (Text × ℕ)}
    {autos : List Text} {before after : File}
    (allocate : Allocate strnum shown low high autos (assign requests (registryOf before))
      (registryOf after)) (name : Text) :
    name ∈ names (registryOf after) ↔
      name ∈ autos ++ (requests.map Prod.fst ++ names (registryOf before)) := by
  rw [allocate.mem_names, mem_names_assign, List.mem_append, List.mem_append]

theorem ownIds_iff {low high : ℕ} {requests : List (Text × ℕ)} {autos : List Text}
    {before after : File} (shows : Shows nearest high)
    (allocate : Allocate strnum nearest low high autos (assign requests (registryOf before))
      (registryOf after)) :
    OwnIds low high requests autos before after ↔ NoAlias requests autos before := by
  refine forall₂_congr fun name member => forall₂_congr fun notAsked missing => ?_
  rw [allocate.own_iff shows member
    fun present => (mem_names_assign.mp present).elim notAsked missing]
  exact forall_congr' fun other => by rw [mem_names_last allocate]

/-- No name and no id occurs twice in the file. -/
def UniqueIds (file : File) : Prop :=
  (names (registryOf file)).Nodup ∧ (ids (registryOf file)).Nodup

instance (file : File) : Decidable (UniqueIds file) :=
  inferInstanceAs (Decidable (_ ∧ _))

/-- The registry with the explicit ids of the table. -/
def explicitRegistry (requests : List (Text × ℕ)) (before : File) : Registry Text :=
  assign requests (registryOf before)

/-- The ids of the file and the explicit ids of the table, rounded for names with an automatic id,
are unique together with those that new names get from their aliases, and no two new names are
aliases. -/
def AgreeOnIds (requests : List (Text × ℕ)) (autos : List Text) (before : File) : Prop :=
  Unique (settled nearest autos (explicitRegistry requests before) ++
      copied strnum nearest autos (explicitRegistry requests before)) ∧
    ∀ name ∈ autos, name ∉ names (explicitRegistry requests before) →
      ∀ other ∈ autos, other ∉ names (explicitRegistry requests before) →
        strnum other = strnum name → other = name

instance (requests : List (Text × ℕ)) (autos : List Text) (before : File) :
    Decidable (AgreeOnIds requests autos before) :=
  inferInstanceAs (Decidable ((∀ first ∈ _, ∀ second ∈ _, _) ∧ ∀ name ∈ autos, _ → _))

theorem uniqueIds_iff {low high : ℕ} {requests : List (Text × ℕ)} {autos : List Text}
    {before after : File} (shows : Shows nearest high)
    (nodup : (names (registryOf before)).Nodup)
    (allocate : Allocate strnum nearest low high autos (assign requests (registryOf before))
      (registryOf after)) :
    UniqueIds after ↔ AgreeOnIds requests autos before := by
  have assignedNodup := nodup_names_assign nodup requests
  have lastNodup := allocate.nodup_names assignedNodup
  rw [UniqueIds, and_iff_right lastNodup, nodup_ids_iff lastNodup]
  exact allocate.unique_iff shows assignedNodup

end Results

end Buildroot4G.Users
