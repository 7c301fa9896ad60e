/-
This file is a theory of registries that give names their numbers, as a password
file gives users their ids. An entry is entered again by removing it and appending
it, with a number that the caller asks for (`assign`) or with a number that the
registry finds by itself (`Allocate`): the one it already has for the name, as it is
shown to the one who looks, or an unused one of a range.

A registry looks names up through a `key`, and two names with the same key are
aliases: a name that is not registered is taken for its alias and gets its number.
The main results say what a run of allocations keeps, that an allocated number is
nobody else's unless the name has an alias, and when the numbers are unique in the
end.
-/

import Mathlib.Data.List.Nodup
import Mathlib.Data.List.Dedup

variable {ν κ : Type} [DecidableEq ν] [DecidableEq κ]

/-- Names and their numbers, in the order of the entries. -/
abbrev Registry (ν : Type) := List (ν × ℕ)

namespace Registry

def names (registry : Registry ν) : List ν := registry.map Prod.fst

def ids (registry : Registry ν) : List ℕ := registry.map Prod.snd

/-- Enters a name again, at the end. -/
def put (name : ν) (id : ℕ) (registry : Registry ν) : Registry ν :=
  registry.filter (fun entry => decide (entry.1 ≠ name)) ++ [(name, id)]

/-- The numbers a lookup of a name finds. -/
def found (key : ν → κ) (name : ν) (registry : Registry ν) : List ℕ :=
  (registry.filter fun entry => decide (key entry.1 = key name)).map Prod.snd

/-- Enters names with the numbers that are asked for. -/
def assign (requests : List (ν × ℕ)) (registry : Registry ν) : Registry ν :=
  requests.foldl (fun registry request => put request.1 request.2 registry) registry

/-- The number that is asked for a name, the last request winning. -/
def requested : List (ν × ℕ) → ν → Option ℕ
  | [], _ => none
  | request :: rest, name =>
    (requested rest name).or (if request.1 = name then some request.2 else none)

/-- Enters names with the numbers the registry shows for them or finds in a range. -/
inductive Allocate (key : ν → κ) (shown : ℕ → ℕ) (low high : ℕ) :
    List ν → Registry ν → Registry ν → Prop
  | done (registry : Registry ν) : Allocate key shown low high [] registry registry
  | known {name rest registry last id} (one : (found key name registry).map shown = [id])
      (later : Allocate key shown low high rest (put name id registry) last) :
      Allocate key shown low high (name :: rest) registry last
  | fresh {name rest registry last id} (none : found key name registry = [])
      (above : low ≤ id) (below : id ≤ high) (unused : id ∉ ids registry)
      (later : Allocate key shown low high rest (put name id registry) last) :
      Allocate key shown low high (name :: rest) registry last

/-- What is shown is shown as it is, and a number of the range is shown for itself only. -/
structure Shows (shown : ℕ → ℕ) (high : ℕ) : Prop where
  again : ∀ id, shown (shown id) = shown id
  exact : ∀ id, ∀ other ≤ high, shown id = other ↔ id = other

/-- The number of a registered name behind the allocations. -/
def settledId (shown : ℕ → ℕ) (autos : List ν) (name : ν) (id : ℕ) : ℕ :=
  if name ∈ autos then shown id else id

/-- The registered names with their numbers behind the allocations. -/
def settled (shown : ℕ → ℕ) (autos : List ν) (registry : Registry ν) : Registry ν :=
  registry.map fun entry => (entry.1, settledId shown autos entry.1 entry.2)

/-- The names that are not registered, with the numbers that are shown for their aliases. -/
def copied (key : ν → κ) (shown : ℕ → ℕ) (autos : List ν) (registry : Registry ν) : Registry ν :=
  (autos.filter fun name => decide (name ∉ names registry)).flatMap fun name =>
    (found key name registry).map fun id => (name, shown id)

/-- Two entries with one number have one name. -/
def Unique (registry : Registry ν) : Prop :=
  ∀ first ∈ registry, ∀ second ∈ registry, first.2 = second.2 → first.1 = second.1

omit [DecidableEq ν] in
theorem mem_names {name : ν} {registry : Registry ν} :
    name ∈ names registry ↔ ∃ id, (name, id) ∈ registry := by
  simp [names]

omit [DecidableEq ν] in
theorem mem_ids {id : ℕ} {registry : Registry ν} :
    id ∈ ids registry ↔ ∃ name, (name, id) ∈ registry := by
  simp [ids]

/-! ### Entering a name -/

theorem mem_put {name other : ν} {id number : ℕ} {registry : Registry ν} :
    (other, number) ∈ put name id registry ↔
      other = name ∧ number = id ∨ other ≠ name ∧ (other, number) ∈ registry := by
  rw [put, List.mem_append, List.mem_filter, List.mem_singleton, Prod.mk.injEq,
    decide_eq_true_iff]
  exact or_comm.trans (or_congr_right and_comm)

theorem mem_names_put {name other : ν} {id : ℕ} {registry : Registry ν} :
    other ∈ names (put name id registry) ↔ other = name ∨ other ∈ names registry := by
  simp only [names, List.mem_map, Prod.exists, exists_and_right, exists_eq_right, mem_put]
  by_cases same : other = name
  · simp [same]
  · simp [same]

/-- The numbers behind an entry. -/
theorem forall_ids_put {holds : ℕ → Prop} {registry : Registry ν}
    (start : ∀ number ∈ ids registry, holds number) {id : ℕ} (entered : holds id) (name : ν) :
    ∀ number ∈ ids (put name id registry), holds number := by
  intro number inside
  obtain ⟨holder, has⟩ := mem_ids.mp inside
  rcases mem_put.mp has with ⟨_, rfl⟩ | ⟨_, old⟩
  · exact entered
  · exact start number (mem_ids.mpr ⟨holder, old⟩)

theorem nodup_names_put {registry : Registry ν} (nodup : (names registry).Nodup) (name : ν)
    (id : ℕ) : (names (put name id registry)).Nodup := by
  rw [names, put, List.map_append, List.nodup_append]
  refine ⟨nodup.sublist (List.Sublist.map _ List.filter_sublist), List.nodup_singleton _, ?_⟩
  intro other member last isLast
  obtain ⟨entry, kept, rfl⟩ := List.mem_map.mp member
  rw [List.map_singleton, List.mem_singleton] at isLast
  rw [isLast]
  exact of_decide_eq_true (List.mem_filter.mp kept).2

omit [DecidableEq ν] in
/-- A name has one number in a registry without duplicate names. -/
theorem eq_of_mem {registry : Registry ν} (nodup : (names registry).Nodup) {name : ν}
    {first second : ℕ} (has : (name, first) ∈ registry) (has' : (name, second) ∈ registry) :
    first = second :=
  congrArg Prod.snd (List.inj_on_of_nodup_map nodup has has' rfl)

omit [DecidableEq ν] in
theorem mem_found {key : ν → κ} {name : ν} {registry : Registry ν} {id : ℕ} :
    id ∈ found key name registry ↔ ∃ other, (other, id) ∈ registry ∧ key other = key name := by
  simp [found]

omit [DecidableEq ν] in
/-- Without duplicate names the numbers are unique exactly when there is no duplicate number. -/
theorem nodup_ids_iff {registry : Registry ν} (nodup : (names registry).Nodup) :
    (ids registry).Nodup ↔ Unique registry := by
  constructor
  · intro nodupIds first firstMem second secondMem same
    exact congrArg Prod.fst (List.inj_on_of_nodup_map nodupIds firstMem secondMem same)
  · intro unique
    refine List.Nodup.map_on (fun first firstMem second secondMem same => ?_)
      (List.Nodup.of_map _ nodup)
    exact Prod.ext (unique first firstMem second secondMem same) same

/-! ### Requests -/

@[simp]
theorem assign_nil (registry : Registry ν) : assign [] registry = registry := rfl

@[simp]
theorem assign_cons (request : ν × ℕ) (rest : List (ν × ℕ)) (registry : Registry ν) :
    assign (request :: rest) registry = assign rest (put request.1 request.2 registry) :=
  rfl

theorem nodup_names_assign {registry : Registry ν} (nodup : (names registry).Nodup)
    (requests : List (ν × ℕ)) : (names (assign requests registry)).Nodup := by
  induction requests generalizing registry with
  | nil => exact nodup
  | cons request rest inductionHypothesis =>
    exact inductionHypothesis (nodup_names_put nodup request.1 request.2)

theorem mem_names_assign {requests : List (ν × ℕ)} {registry : Registry ν} {name : ν} :
    name ∈ names (assign requests registry) ↔
      name ∈ requests.map Prod.fst ∨ name ∈ names registry := by
  induction requests generalizing registry with
  | nil => simp
  | cons request rest inductionHypothesis =>
    rw [assign_cons, inductionHypothesis, mem_names_put, List.map_cons, List.mem_cons]
    exact or_left_comm.trans or_assoc.symm

theorem requested_eq_none_iff {requests : List (ν × ℕ)} {name : ν} :
    requested requests name = none ↔ name ∉ requests.map Prod.fst := by
  induction requests with
  | nil => simp [requested]
  | cons request rest inductionHypothesis =>
    rw [requested, Option.or_eq_none_iff, inductionHypothesis, List.map_cons, List.mem_cons,
      not_or, and_comm]
    refine and_congr_left fun _ => ?_
    by_cases same : request.1 = name
    · simp [same]
    · simp [same, Ne.symm same]

theorem mem_of_requested {requests : List (ν × ℕ)} {name : ν} {id : ℕ}
    (asks : requested requests name = some id) : (name, id) ∈ requests := by
  induction requests with
  | nil => cases asks
  | cons request rest inductionHypothesis =>
    rw [requested, Option.or_eq_some_iff] at asks
    rcases asks with later | ⟨_, now⟩
    · exact List.mem_cons_of_mem _ (inductionHypothesis later)
    · by_cases same : request.1 = name
      · rw [if_pos same] at now
        rw [← same, ← Option.some.inj now]
        exact List.mem_cons_self
      · rw [if_neg same] at now
        cases now

/-- A name has the number that was asked for last, or the one it had. -/
theorem mem_assign {requests : List (ν × ℕ)} {registry : Registry ν} {name : ν} {id : ℕ} :
    (name, id) ∈ assign requests registry ↔
      requested requests name = some id ∨
        requested requests name = none ∧ (name, id) ∈ registry := by
  induction requests generalizing registry with
  | nil => simp [requested]
  | cons request rest inductionHypothesis =>
    rw [assign_cons, inductionHypothesis, requested, mem_put]
    cases later : requested rest name with
    | some number => simp
    | none =>
      by_cases same : request.1 = name
      · simp [same, eq_comm]
      · simp [same, Ne.symm same]

/-! ### Allocations -/

section Allocate

variable {key : ν → κ} {shown : ℕ → ℕ} {low high : ℕ} {autos : List ν} {registry last : Registry ν}

theorem Allocate.nodup_names (allocate : Allocate key shown low high autos registry last)
    (nodup : (names registry).Nodup) : (names last).Nodup := by
  induction allocate with
  | done => exact nodup
  | known _ _ inductionHypothesis => exact inductionHypothesis (nodup_names_put nodup _ _)
  | fresh _ _ _ _ _ inductionHypothesis => exact inductionHypothesis (nodup_names_put nodup _ _)

theorem Allocate.mem_names (allocate : Allocate key shown low high autos registry last) {name : ν} :
    name ∈ names last ↔ name ∈ autos ∨ name ∈ names registry := by
  induction allocate with
  | done => simp
  | known _ _ inductionHypothesis =>
    rw [inductionHypothesis, mem_names_put, List.mem_cons]
    exact or_left_comm.trans or_assoc.symm
  | fresh _ _ _ _ _ inductionHypothesis =>
    rw [inductionHypothesis, mem_names_put, List.mem_cons]
    exact or_left_comm.trans or_assoc.symm

omit [DecidableEq ν] in
/-- A lookup that shows one number shows it for every number it finds. -/
theorem shown_eq_of_one {name : ν} {id number : ℕ}
    (one : (found key name registry).map shown = [id])
    (isFound : number ∈ found key name registry) :
    shown number = id := by
  have member := List.mem_map_of_mem (f := shown) isFound
  rw [one] at member
  exact List.mem_singleton.mp member

omit [DecidableEq ν] in
theorem exists_of_one {name : ν} {id : ℕ} (one : (found key name registry).map shown = [id]) :
    ∃ holder number, (holder, number) ∈ registry ∧ key holder = key name ∧ shown number = id := by
  obtain ⟨number, isFound, isId⟩ := List.mem_map.mp (one ▸ List.mem_singleton_self id)
  obtain ⟨holder, has, same⟩ := mem_found.mp isFound
  exact ⟨holder, number, has, same, isId⟩

omit [DecidableEq κ] in
theorem settledId_cons_of_ne {name entered : ν} (different : name ≠ entered) (rest : List ν)
    (id : ℕ) : settledId shown (entered :: rest) name id = settledId shown rest name id := by
  simp only [settledId, List.mem_cons, or_iff_right different]

/-- A registered name keeps its number, as it is shown if the name is entered again. -/
theorem Allocate.settled_mem (allocate : Allocate key shown low high autos registry last)
    (shows : Shows shown high) {name : ν} {id : ℕ} (has : (name, id) ∈ registry) :
    (name, settledId shown autos name id) ∈ last := by
  induction allocate generalizing id with
  | done => exact has
  | @known entered rest registry last number one _ inductionHypothesis =>
    by_cases same : name = entered
    · subst same
      have isNumber := shown_eq_of_one one (mem_found.mpr ⟨name, has, rfl⟩)
      have kept := inductionHypothesis (mem_put.mpr (Or.inl ⟨rfl, rfl⟩))
      have fixed : settledId shown rest name number = number := by
        rw [settledId, ← isNumber, shows.again, ite_self]
      rw [fixed] at kept
      rwa [settledId, if_pos List.mem_cons_self, isNumber]
    · rw [settledId_cons_of_ne same]
      exact inductionHypothesis (mem_put.mpr (Or.inr ⟨same, has⟩))
  | @fresh entered rest registry last number none _ _ _ _ inductionHypothesis =>
    have different : name ≠ entered := by
      intro same
      have member := mem_found.mpr ⟨name, has, congrArg key same⟩
      rw [none] at member
      cases member
    rw [settledId_cons_of_ne different]
    exact inductionHypothesis (mem_put.mpr (Or.inr ⟨different, has⟩))

/-- A registered name keeps a number that is shown as it is. -/
theorem Allocate.mem_of_shown (allocate : Allocate key shown low high autos registry last)
    (shows : Shows shown high) {name : ν} {id : ℕ} (has : (name, id) ∈ registry)
    (fixed : shown id = id) : (name, id) ∈ last := by
  have kept := allocate.settled_mem shows has
  rwa [settledId, fixed, ite_self] at kept

/-- A name that is entered has a number that is shown as it is. -/
theorem Allocate.shown_eq (allocate : Allocate key shown low high autos registry last)
    (shows : Shows shown high) {name : ν} {id : ℕ} (has : (name, id) ∈ last)
    (start : name ∈ autos ∨ ∀ number, (name, number) ∈ registry → shown number = number) :
    shown id = id := by
  induction allocate with
  | done => exact start.elim nofun fun fixed => fixed id has
  | @known entered rest registry last number one _ inductionHypothesis =>
    refine inductionHypothesis has ?_
    by_cases same : name = entered
    · refine Or.inr fun other otherHas => ?_
      obtain ⟨_, finder, _, _, isNumber⟩ := exists_of_one one
      rcases mem_put.mp otherHas with ⟨_, rfl⟩ | ⟨different, _⟩
      · rw [← isNumber, shows.again]
      · exact absurd same different
    · refine start.imp (fun member => (List.mem_cons.mp member).resolve_left same) ?_
      intro fixed other otherHas
      exact (mem_put.mp otherHas).elim (fun entered => absurd entered.1 same)
        fun old => fixed other old.2
  | @fresh entered rest registry last number none above below _ _ inductionHypothesis =>
    refine inductionHypothesis has ?_
    by_cases same : name = entered
    · refine Or.inr fun other otherHas => ?_
      rcases mem_put.mp otherHas with ⟨_, rfl⟩ | ⟨different, _⟩
      · exact (shows.exact other other below).mpr rfl
      · exact absurd same different
    · refine start.imp (fun member => (List.mem_cons.mp member).resolve_left same) ?_
      intro fixed other otherHas
      exact (mem_put.mp otherHas).elim (fun entered => absurd entered.1 same)
        fun old => fixed other old.2

/-- A name has a number of the range that no other name has. -/
def Own (low high : ℕ) (name : ν) (registry : Registry ν) : Prop :=
  ∃ id, (name, id) ∈ registry ∧ low ≤ id ∧ id ≤ high ∧
    ∀ other, (other, id) ∈ registry → other = name

/-- Entering a name that is no alias with the number it is found with. -/
theorem Own.put_known {name entered : ν} {id : ℕ} (own : Own low high name registry)
    (shows : Shows shown high) (noAlias : key entered = key name → entered = name)
    (one : (found key entered registry).map shown = [id]) :
    Own low high name (put entered id registry) := by
  obtain ⟨number, holds, above, below, others⟩ := own
  obtain ⟨finder, shownNumber, has, same, isId⟩ := exists_of_one one
  refine ⟨number, mem_put.mpr ?_, above, below, fun other otherHas => ?_⟩
  · refine (em _).imp (fun isName => ⟨isName, ?_⟩) (fun different => ⟨different, holds⟩)
    have member := mem_found.mpr ⟨name, holds, congrArg key isName⟩
    exact ((shows.exact number number below).mpr rfl).symm.trans (shown_eq_of_one one member)
  · rcases mem_put.mp otherHas with ⟨otherIs, numberIs⟩ | ⟨_, old⟩
    · rw [(shows.exact shownNumber number below).mp (isId.trans numberIs.symm)] at has
      rw [otherIs]
      rw [others finder has] at same
      exact noAlias same.symm
    · exact others other old

/-- Entering another name with an unused number. -/
theorem Own.put_fresh {name entered : ν} {id : ℕ} (own : Own low high name registry)
    (none : found key entered registry = []) (unused : id ∉ ids registry) :
    Own low high name (put entered id registry) := by
  obtain ⟨number, holds, above, below, others⟩ := own
  have different : name ≠ entered := by
    intro same
    have member := mem_found.mpr ⟨name, holds, congrArg key same⟩
    rw [none] at member
    cases member
  refine ⟨number, mem_put.mpr (Or.inr ⟨different, holds⟩), above, below, fun other has => ?_⟩
  rcases mem_put.mp has with ⟨_, numberIs⟩ | ⟨_, old⟩
  · rw [numberIs] at holds
    exact absurd (List.mem_map_of_mem holds) unused
  · exact others other old

/-- A name without aliases that was not registered gets a number of the range, which is and stays
its own. -/
theorem Allocate.own (allocate : Allocate key shown low high autos registry last)
    (shows : Shows shown high) {name : ν}
    (noAlias : ∀ other ∈ names last, key other = key name → other = name)
    (before : name ∉ names registry ∧ name ∈ autos ∨ Own low high name registry) :
    Own low high name last := by
  induction allocate with
  | done =>
    rcases before with ⟨_, member⟩ | own
    · cases member
    · exact own
  | @known entered rest registry last id one later inductionHypothesis =>
    refine inductionHypothesis noAlias ?_
    have stays : ∀ other ∈ names (put entered id registry), other ∈ names last :=
      fun other member => later.mem_names.mpr (Or.inr member)
    rcases before with ⟨missing, member⟩ | own
    · -- a name that is not registered is found through an alias only
      have different : name ≠ entered := by
        intro same
        obtain ⟨finder, number, has, sameKey, _⟩ := exists_of_one one
        have present := List.mem_map_of_mem (f := Prod.fst) has
        rw [noAlias finder (stays finder (mem_names_put.mpr (Or.inr present)))
          (sameKey.trans (congrArg key same.symm))] at present
        exact missing present
      exact Or.inl ⟨fun present => (mem_names_put.mp present).elim different missing,
        (List.mem_cons.mp member).resolve_left different⟩
    · exact Or.inr (own.put_known shows (noAlias entered
        (stays entered (mem_names_put.mpr (Or.inl rfl)))) one)
  | @fresh entered rest registry last id none above below unused later inductionHypothesis =>
    refine inductionHypothesis noAlias ?_
    rcases before with ⟨missing, member⟩ | own
    · by_cases same : name = entered
      · refine Or.inr ⟨id, mem_put.mpr (Or.inl ⟨same, rfl⟩), above, below, fun other has => ?_⟩
        rcases mem_put.mp has with ⟨otherIs, _⟩ | ⟨_, old⟩
        · rw [otherIs, same]
        · exact absurd (List.mem_map_of_mem old) unused
      · exact Or.inl ⟨fun present => (mem_names_put.mp present).elim same missing,
          (List.mem_cons.mp member).resolve_left same⟩
    · exact Or.inr (own.put_fresh none unused)

/-- The names a lookup takes for a registered name are shown with one number. -/
def Uniform (key : ν → κ) (shown : ℕ → ℕ) (name : ν) (registry : Registry ν) : Prop :=
  name ∈ names registry → ∀ first ∈ found key name registry, ∀ second ∈ found key name registry,
    shown first = shown second

/-- Entering a name with the number that its lookup shows, if it finds any. -/
theorem Uniform.put {name entered : ν} {id : ℕ} (uniform : Uniform key shown name registry)
    (all : ∀ number ∈ found key entered registry, shown number = shown id) :
    Uniform key shown name (put entered id registry) := by
  intro present
  by_cases same : key entered = key name
  · have isId : ∀ number ∈ found key name (Registry.put entered id registry),
        shown number = shown id := by
      intro number isFound
      obtain ⟨holder, holds, sameKey⟩ := mem_found.mp isFound
      rcases mem_put.mp holds with ⟨_, rfl⟩ | ⟨_, old⟩
      · rfl
      · exact all number (mem_found.mpr ⟨holder, old, sameKey.trans same.symm⟩)
    intro first firstFound second secondFound
    rw [isId first firstFound, isId second secondFound]
  · have old : name ∈ names registry :=
      (mem_names_put.mp present).resolve_left fun isEntered => same (congrArg key isEntered.symm)
    have fewer : ∀ number ∈ found key name (Registry.put entered id registry),
        number ∈ found key name registry := by
      intro number isFound
      obtain ⟨holder, holds, sameKey⟩ := mem_found.mp isFound
      rcases mem_put.mp holds with ⟨isEntered, _⟩ | ⟨_, before⟩
      · exact absurd (isEntered ▸ sameKey) same
      · exact mem_found.mpr ⟨holder, before, sameKey⟩
    exact fun first firstFound second secondFound =>
      uniform old first (fewer first firstFound) second (fewer second secondFound)

theorem Allocate.uniform (allocate : Allocate key shown low high autos registry last)
    (shows : Shows shown high) {name : ν} (before : Uniform key shown name registry) :
    Uniform key shown name last := by
  induction allocate with
  | done => exact before
  | known one _ inductionHypothesis =>
    refine inductionHypothesis (before.put fun number isFound => ?_)
    rw [← shown_eq_of_one one isFound, shows.again]
  | fresh none _ _ _ _ inductionHypothesis =>
    refine inductionHypothesis (before.put fun number isFound => ?_)
    rw [none] at isFound
    cases isFound

/-- A name that was not registered ends with the number that is shown for its alias. -/
theorem Allocate.shares (allocate : Allocate key shown low high autos registry last)
    (shows : Shows shown high) {name other : ν} {id number : ℕ} (aliased : key other = key name)
    (member : name ∈ autos) (before : name ∉ names registry) (has : (name, id) ∈ last)
    (otherHas : (other, number) ∈ last) : id = shown number := by
  have same := allocate.uniform shows (fun present => absurd present before)
    (List.mem_map_of_mem has) id (mem_found.mpr ⟨name, has, rfl⟩) number
    (mem_found.mpr ⟨other, otherHas, aliased⟩)
  rw [← same, allocate.shown_eq shows has (Or.inl member)]

/-- A name that was not registered gets a number of its own exactly when it has no alias. -/
theorem Allocate.own_iff (allocate : Allocate key shown low high autos registry last)
    (shows : Shows shown high) {name : ν} (member : name ∈ autos)
    (before : name ∉ names registry) :
    Own low high name last ↔ ∀ other ∈ names last, key other = key name → other = name := by
  refine ⟨fun ⟨id, has, _, below, others⟩ other present aliased => ?_,
    fun noAlias => allocate.own shows noAlias (Or.inl ⟨before, member⟩)⟩
  obtain ⟨⟨_, number⟩, otherHas, rfl⟩ := List.mem_map.mp present
  have isShown := (allocate.shares shows aliased member before has otherHas).symm
  rw [(shows.exact number id below).mp isShown] at otherHas
  exact others _ otherHas

/-! ### Unique numbers -/

omit [DecidableEq κ] in
theorem mem_settled {name : ν} {id : ℕ} :
    (name, id) ∈ settled shown autos registry ↔
      ∃ number, (name, number) ∈ registry ∧ settledId shown autos name number = id := by
  rw [settled, List.mem_map]
  constructor
  · rintro ⟨⟨_, number⟩, has, same⟩
    obtain ⟨rfl, isId⟩ := Prod.mk.inj same
    exact ⟨number, has, isId⟩
  · rintro ⟨number, has, rfl⟩
    exact ⟨_, has, rfl⟩

theorem mem_copied {name : ν} {id : ℕ} :
    (name, id) ∈ copied key shown autos registry ↔
      (name ∈ autos ∧ name ∉ names registry) ∧
        ∃ number ∈ found key name registry, shown number = id := by
  simp [copied]

/-- The settled names and the copies are in the end. -/
theorem Allocate.mem_of_settled (allocate : Allocate key shown low high autos registry last)
    (shows : Shows shown high) {entry : ν × ℕ}
    (inside : entry ∈ settled shown autos registry ++ copied key shown autos registry) :
    entry ∈ last := by
  obtain ⟨name, id⟩ := entry
  rcases List.mem_append.mp inside with old | copy
  · obtain ⟨before, has, rfl⟩ := mem_settled.mp old
    exact allocate.settled_mem shows has
  · obtain ⟨⟨member, missing⟩, number, isFound, rfl⟩ := mem_copied.mp copy
    obtain ⟨holder, has, same⟩ := mem_found.mp isFound
    obtain ⟨⟨_, id⟩, holds, rfl⟩ := List.mem_map.mp (allocate.mem_names.mpr (Or.inl member))
    have shared := allocate.shares shows same member missing holds (allocate.settled_mem shows has)
    have isShown : shown (settledId shown autos holder number) = shown number := by
      rw [settledId]
      split
      · exact shows.again number
      · rfl
    rw [← isShown, ← shared]
    exact holds

/-- The numbers end unique exactly when those of the settled names and the copies are, and no two
names that were not registered are aliases. -/
theorem Allocate.unique_iff (allocate : Allocate key shown low high autos registry last)
    (shows : Shows shown high) (nodup : (names registry).Nodup) :
    Unique last ↔ Unique (settled shown autos registry ++ copied key shown autos registry) ∧
      ∀ name ∈ autos, name ∉ names registry → ∀ other ∈ autos, other ∉ names registry →
        key other = key name → other = name := by
  constructor
  · intro unique
    refine ⟨fun first firstMem second secondMem => unique first
      (allocate.mem_of_settled shows firstMem) second (allocate.mem_of_settled shows secondMem),
      fun name member missing other otherMember otherMissing aliased => ?_⟩
    obtain ⟨⟨_, id⟩, has, rfl⟩ := List.mem_map.mp (allocate.mem_names.mpr (Or.inl member))
    obtain ⟨⟨_, number⟩, otherHas, rfl⟩ :=
      List.mem_map.mp (allocate.mem_names.mpr (Or.inl otherMember))
    have shared := allocate.shares shows aliased member missing has otherHas
    rw [allocate.shown_eq shows otherHas (Or.inl otherMember)] at shared
    exact unique _ otherHas _ has shared.symm
  · rintro ⟨unique, noAlias⟩
    have lastNodup := allocate.nodup_names nodup
    -- a name is settled, or a copy, or has a number of its own
    have kinds : ∀ name id, (name, id) ∈ last →
        (name, id) ∈ settled shown autos registry ++ copied key shown autos registry ∨
          ∀ other, (other, id) ∈ last → other = name := by
      intro name id has
      by_cases present : name ∈ names registry
      · obtain ⟨number, holds⟩ := Registry.mem_names.mp present
        have same := eq_of_mem lastNodup has (allocate.settled_mem shows holds)
        exact Or.inl (List.mem_append_left _ (mem_settled.mpr ⟨number, holds, same.symm⟩))
      have member : name ∈ autos :=
        (allocate.mem_names.mp (List.mem_map_of_mem has)).resolve_right present
      by_cases nothing : found key name registry = []
      · have own : Own low high name last := by
          refine allocate.own shows (fun other otherPresent aliased => ?_)
            (Or.inl ⟨present, member⟩)
          by_cases old : other ∈ names registry
          · obtain ⟨number, holds⟩ := Registry.mem_names.mp old
            have isFound := mem_found.mpr ⟨other, holds, aliased⟩
            rw [nothing] at isFound
            cases isFound
          · have otherMember := (allocate.mem_names.mp otherPresent).resolve_right old
            exact noAlias name member present other otherMember old aliased
        obtain ⟨number, holds, _, _, others⟩ := own
        exact Or.inr (eq_of_mem lastNodup has holds ▸ others)
      · obtain ⟨number, isFound⟩ := List.exists_mem_of_ne_nil _ nothing
        have copy : (name, shown number) ∈ copied key shown autos registry :=
          mem_copied.mpr ⟨⟨member, present⟩, number, isFound, rfl⟩
        have holds := allocate.mem_of_settled shows (List.mem_append_right _ copy)
        rw [eq_of_mem lastNodup has holds]
        exact Or.inl (List.mem_append_right _ copy)
    rintro ⟨first, id⟩ firstMem ⟨second, number⟩ secondMem same
    obtain rfl : id = number := same
    rcases kinds first id firstMem with firstKind | only
    · rcases kinds second id secondMem with secondKind | only
      · exact unique _ firstKind _ secondKind rfl
      · exact only first firstMem
    · exact (only second secondMem).symm

end Allocate

end Registry
