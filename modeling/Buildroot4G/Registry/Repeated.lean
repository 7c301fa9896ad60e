/-
This file is about rounds of a registry that are repeated on what they left, where
every number is shown as it is. It adds to the theory of registries the requests that
are checked before they are entered (`Admit`): a check looks for the number that is
asked for, which need not be the one that is entered. The main results say when the names
of a registry stay distinct for its lookups, what the requests of a round leave in it, and
that a second round of the same requests and allocations keeps every entry of the first.
-/

import Mathlib.Data.List.Perm.Basic
import Buildroot4G.Registry

variable {ν κ : Type} [DecidableEq ν] [DecidableEq κ]

namespace Registry

/-- Every name is there once, and no two of them are the same for a lookup of some name. -/
structure Distinct (key : ν → κ) (looked : List ν) (registry : Registry ν) : Prop where
  nodup_names : (names registry).Nodup
  eq_of_names : ∀ name ∈ looked, ∀ first ∈ names registry, ∀ second ∈ names registry,
    key first = key name → key second = key name → first = second

instance (key : ν → κ) (looked : List ν) (registry : Registry ν) :
    Decidable (Distinct key looked registry) :=
  decidable_of_iff ((names registry).Nodup ∧ ∀ name ∈ looked, ∀ first ∈ names registry,
      ∀ second ∈ names registry, key first = key name → key second = key name → first = second)
    ⟨fun ⟨nodup, same⟩ => ⟨nodup, same⟩, fun distinct =>
      ⟨distinct.nodup_names, distinct.eq_of_names⟩⟩

/-- The names that have a number. -/
def holders (id : ℕ) (registry : Registry ν) : List ν :=
  (registry.filter fun entry => decide (entry.2 = id)).map Prod.fst

/-- The number is the name's and nobody else's. -/
def Sole (name : ν) (id : ℕ) (registry : Registry ν) : Prop :=
  (name, id) ∈ registry ∧ ∀ other, (other, id) ∈ registry → other = name

/-- Enters names with a number, after a check of another one: it must be free, and the number
that a lookup of the name finds. -/
inductive Admit (key : ν → κ) : List (ν × ℕ × ℕ) → Registry ν → Registry ν → Prop
  | done (registry : Registry ν) : Admit key [] registry registry
  | next {name asked entered rest registry last}
      (free : ∀ other, (other, asked) ∈ registry → other = name)
      (same : ∀ id ∈ found key name registry, id = asked)
      (later : Admit key rest (put name entered registry) last) :
      Admit key ((name, asked, entered) :: rest) registry last

/-! ### Distinct names -/

section Distinct

variable {key : ν → κ} {looked : List ν} {registry : Registry ν}

omit [DecidableEq ν] [DecidableEq κ] in
/-- A name that is looked up has no alias where it is registered. -/
theorem Distinct.eq_of_alias (distinct : Distinct key looked registry) {name other : ν}
    (isLooked : name ∈ looked) (has : name ∈ names registry) (has' : other ∈ names registry)
    (same : key other = key name) : other = name :=
  distinct.eq_of_names name isLooked other has' name has same rfl

omit [DecidableEq κ] in
/-- Entering a name without aliases. -/
theorem Distinct.put (distinct : Distinct key looked registry) {name : ν}
    (noAlias : ∀ other ∈ names registry, key other = key name → other = name) (id : ℕ) :
    Distinct key looked (put name id registry) := by
  refine ⟨nodup_names_put distinct.nodup_names name id, ?_⟩
  intro lookup isLooked first has second has' same same'
  rcases mem_names_put.mp has with rfl | old
  · rcases mem_names_put.mp has' with rfl | old'
    · rfl
    · exact (noAlias second old' (same'.trans same.symm)).symm
  · rcases mem_names_put.mp has' with rfl | old'
    · exact noAlias first old (same.trans same'.symm)
    · exact distinct.eq_of_names lookup isLooked first old second old' same same'

/-- A lookup of a name without aliases finds its number only. -/
theorem found_eq_singleton (nodup : (names registry).Nodup) {name : ν} {id : ℕ}
    (has : (name, id) ∈ registry)
    (noAlias : ∀ other ∈ names registry, key other = key name → other = name) :
    found key name registry = [id] := by
  have only : registry.filter (fun entry => decide (key entry.1 = key name)) =
      registry.filter (fun entry => decide (entry = (name, id))) := by
    refine List.filter_congr fun entry member => decide_eq_decide.mpr ⟨fun same => ?_, ?_⟩
    · have isName := noAlias entry.1 (List.mem_map_of_mem member) same
      exact List.inj_on_of_nodup_map nodup member has isName
    · rintro rfl
      rfl
  rw [found, only, List.filter_eq, List.count_eq_one_of_mem (List.Nodup.of_map _ nodup) has]
  rfl

/-- With distinct names a lookup finds one number at most. -/
theorem Distinct.found_cases (distinct : Distinct key looked registry) {name : ν}
    (isLooked : name ∈ looked) :
    found key name registry = [] ∨ ∃ holder id, (holder, id) ∈ registry ∧ key holder = key name ∧
      found key name registry = [id] := by
  cases finds : found key name registry with
  | nil => exact Or.inl rfl
  | cons id rest =>
    refine Or.inr ?_
    obtain ⟨holder, has, same⟩ := mem_found.mp (finds ▸ List.mem_cons_self (l := rest))
    have one : found key holder registry = [id] := found_eq_singleton distinct.nodup_names has
      fun other member alike => distinct.eq_of_names name isLooked other member holder
        (List.mem_map_of_mem has) (alike.trans same) same
    rw [found, same] at one
    rw [found, one] at finds
    exact ⟨holder, id, has, same, finds.symm⟩

omit [DecidableEq ν] [DecidableEq κ] in
theorem mem_holders {name : ν} {id : ℕ} : name ∈ holders id registry ↔ (name, id) ∈ registry := by
  simp [holders]

omit [DecidableEq ν] [DecidableEq κ] in
theorem holders_eq_nil_iff {id : ℕ} : holders id registry = [] ↔ id ∉ ids registry := by
  rw [List.eq_nil_iff_forall_not_mem, mem_ids, not_exists]
  exact forall_congr' fun name => not_congr mem_holders

omit [DecidableEq ν] [DecidableEq κ] in
/-- Nobody but the name has the number. -/
theorem holders_iff (nodup : (names registry).Nodup) {name : ν} {id : ℕ} :
    holders id registry = [] ∨ holders id registry = [name] ↔
      ∀ other, (other, id) ∈ registry → other = name := by
  constructor
  · rintro (none | one) other has
    · rw [← mem_holders, none] at has
      cases has
    · rw [← mem_holders, one] at has
      exact List.mem_singleton.mp has
  · intro only
    have nodupHolders : (holders id registry).Nodup :=
      nodup.sublist (List.Sublist.map _ List.filter_sublist)
    have all : ∀ other ∈ holders id registry, other = name :=
      fun other member => only other (mem_holders.mp member)
    match holds : holders id registry with
    | [] => exact Or.inl rfl
    | [other] =>
      rw [holds] at all
      exact Or.inr (by rw [all other List.mem_cons_self])
    | first :: second :: rest =>
      rw [holds] at all nodupHolders
      have same : first = second := (all first List.mem_cons_self).trans
        (all second (List.mem_cons_of_mem first List.mem_cons_self)).symm
      exact absurd (same ▸ List.mem_cons_self) (List.nodup_cons.mp nodupHolders).1

end Distinct

/-! ### Checked requests -/

section Admit

variable {key : ν → κ} {requests : List (ν × ℕ × ℕ)} {registry last : Registry ν}

theorem Admit.eq_assign (admitted : Admit key requests registry last) :
    last = assign (requests.map fun request => (request.1, request.2.2)) registry := by
  induction admitted with
  | done => rfl
  | next _ _ _ inductionHypothesis => exact inductionHypothesis

omit [DecidableEq ν] in
/-- What a check excludes. -/
theorem noAlias_of_check {name : ν} {asked : ℕ}
    (free : ∀ other, (other, asked) ∈ registry → other = name)
    (same : ∀ id ∈ found key name registry, id = asked) :
    ∀ other ∈ names registry, key other = key name → other = name := by
  intro other member aliased
  obtain ⟨⟨_, id⟩, has, rfl⟩ := List.mem_map.mp member
  have isAsked := same id (mem_found.mpr ⟨_, has, aliased⟩)
  rw [isAsked] at has
  exact free _ has

/-- When the number that is checked is the one that is entered, a number stays its name's. -/
theorem Admit.keeps_sole (admitted : Admit key requests registry last)
    (agree : ∀ request ∈ requests, request.2.1 = request.2.2) {name : ν} {id : ℕ}
    (sole : Sole name id registry) : Sole name id last := by
  induction admitted with
  | done => exact sole
  | @next entered asked number rest registry last free same _ inductionHypothesis =>
    obtain rfl : asked = number := agree _ List.mem_cons_self
    refine inductionHypothesis (fun request member =>
      agree request (List.mem_cons_of_mem _ member)) ?_
    obtain ⟨has, others⟩ := sole
    refine ⟨mem_put.mpr ?_, fun other otherHas => ?_⟩
    · refine (em _).imp (fun isEntered => ⟨isEntered, ?_⟩) (fun different => ⟨different, has⟩)
      exact same id (mem_found.mpr ⟨name, has, congrArg key isEntered⟩)
    · rcases mem_put.mp otherHas with ⟨rfl, rfl⟩ | ⟨_, old⟩
      · exact (free name has).symm
      · exact others other old

/-- Then every request leaves its name the only one with the number. -/
theorem Admit.sole (admitted : Admit key requests registry last)
    (agree : ∀ request ∈ requests, request.2.1 = request.2.2) :
    ∀ request ∈ requests, Sole request.1 request.2.1 last := by
  induction admitted with
  | done => nofun
  | @next entered asked number rest registry last free same later inductionHypothesis =>
    have agreeLater : ∀ request ∈ rest, request.2.1 = request.2.2 :=
      fun request member => agree request (List.mem_cons_of_mem _ member)
    refine List.forall_mem_cons.mpr ⟨?_, inductionHypothesis agreeLater⟩
    obtain rfl : asked = number := agree _ List.mem_cons_self
    refine later.keeps_sole agreeLater ⟨mem_put.mpr (Or.inl ⟨rfl, rfl⟩), fun other has => ?_⟩
    exact (mem_put.mp has).elim And.left fun ⟨_, old⟩ => free other old

/-- When no number that is entered is above the one that is checked, the numbers of a name only
go down. -/
theorem Admit.le (admitted : Admit key requests registry last)
    (less : ∀ request ∈ requests, request.2.2 ≤ request.2.1) {name : ν} {id : ℕ}
    (has : (name, id) ∈ registry) :
    ∃ number, (name, number) ∈ last ∧ number ≤ id ∧
      ∀ request ∈ requests, request.1 = name → request.2.1 ≤ id ∧ number ≤ request.2.2 := by
  induction admitted generalizing id with
  | done => exact ⟨id, has, Nat.le_refl id, nofun⟩
  | @next entered asked given rest registry last free same _ inductionHypothesis =>
    have lessLater : ∀ request ∈ rest, request.2.2 ≤ request.2.1 :=
      fun request member => less request (List.mem_cons_of_mem _ member)
    have lessNow : given ≤ asked := less _ List.mem_cons_self
    by_cases isEntered : name = entered
    · have isAsked : id = asked := same id (mem_found.mpr ⟨name, has, congrArg key isEntered⟩)
      obtain ⟨number, holds, le, bounds⟩ := inductionHypothesis lessLater
        (mem_put.mpr (Or.inl ⟨isEntered, rfl⟩))
      refine ⟨number, holds, by omega, List.forall_mem_cons.mpr
        ⟨fun _ => ⟨Nat.le_of_eq isAsked.symm, le⟩, ?_⟩⟩
      · intro request member isName
        obtain ⟨above, below⟩ := bounds request member isName
        exact ⟨by omega, below⟩
    · obtain ⟨number, holds, le, bounds⟩ := inductionHypothesis lessLater
        (mem_put.mpr (Or.inr ⟨isEntered, has⟩))
      exact ⟨number, holds, le, List.forall_mem_cons.mpr
        ⟨fun isName => absurd isName.symm isEntered, bounds⟩⟩

end Admit

/-! ### Numbers that are shown as they are -/

/-- A number is shown as it is. -/
def plainly (id : ℕ) : ℕ := id

theorem map_plainly (numbers : List ℕ) : numbers.map plainly = numbers := List.map_id' numbers

theorem shows_plainly (high : ℕ) : Shows plainly high := ⟨fun _ => rfl, fun _ _ _ => Iff.rfl⟩

/-- Allocations from a registry whose numbers are all shown as they are. -/
theorem Allocate.of_exact {key : ν → κ} {shown : ℕ → ℕ} {low high : ℕ} {autos : List ν}
    {registry last : Registry ν} (allocate : Allocate key shown low high autos registry last)
    (shows : Shows shown high) (exact : ∀ id ∈ ids registry, shown id = id) :
    Allocate key plainly low high autos registry last := by
  induction allocate with
  | done => exact .done _
  | @known entered rest registry last number one _ inductionHypothesis =>
    obtain ⟨holder, id, has, _, isNumber⟩ := exists_of_one one
    have isExact := exact id (mem_ids.mpr ⟨holder, has⟩)
    have same : (found key entered registry).map shown = found key entered registry := by
      refine (List.map_congr_left fun found isFound => ?_).trans (List.map_id _)
      obtain ⟨holder, has, _⟩ := mem_found.mp isFound
      exact exact found (mem_ids.mpr ⟨holder, has⟩)
    refine .known (by rw [map_plainly, ← same, one])
      (inductionHypothesis (forall_ids_put exact ?_ entered))
    rw [← isNumber, isExact]
    exact isExact
  | @fresh entered rest registry last number none above below unused _ inductionHypothesis =>
    exact .fresh none above below unused
      (inductionHypothesis
        (forall_ids_put exact ((shows.exact number number below).mpr rfl) entered))

/-! ### Repeated rounds -/

section Repeated

variable {key : ν → κ} {low high : ℕ} {autos : List ν} {registry last : Registry ν}

/-- Names stay distinct when the new ones have no aliases. -/
theorem Allocate.distinct_iff (allocate : Allocate key plainly low high autos registry last)
    {looked : List ν} (areLooked : ∀ name ∈ autos, name ∈ looked)
    (distinct : Distinct key looked registry) :
    Distinct key looked last ↔ ∀ name ∈ autos, name ∉ names registry →
      ∀ other ∈ names last, key other = key name → other = name := by
  constructor
  · intro after name member _ other present same
    exact after.eq_of_alias (areLooked name member) (allocate.mem_names.mpr (Or.inl member)) present
      same
  · intro noAlias
    refine ⟨allocate.nodup_names distinct.nodup_names, ?_⟩
    intro lookup isLooked name present other otherPresent same same'
    by_cases old : name ∈ names registry
    · by_cases otherOld : other ∈ names registry
      · exact distinct.eq_of_names lookup isLooked name old other otherOld same same'
      · have member := (allocate.mem_names.mp otherPresent).resolve_right otherOld
        exact noAlias other member otherOld name present (same.trans same'.symm)
    · have member := (allocate.mem_names.mp present).resolve_right old
      exact (noAlias name member old other otherPresent (same'.trans same.symm)).symm

/-- The number of one name stays its own. -/
theorem Allocate.keeps_sole (allocate : Allocate key plainly low high autos registry last)
    {looked : List ν} (areLooked : ∀ name ∈ autos, name ∈ looked)
    (distinct : Distinct key looked last) {name : ν} {id : ℕ} (sole : Sole name id registry) :
    Sole name id last := by
  induction allocate with
  | done => exact sole
  | @known entered rest registry last number one later inductionHypothesis =>
    rw [map_plainly] at one
    obtain ⟨isLooked, restLooked⟩ := List.forall_mem_cons.mp areLooked
    refine inductionHypothesis restLooked distinct ?_
    have stays : ∀ other ∈ names (put entered number registry), other ∈ names last :=
      fun other member => later.mem_names.mpr (Or.inr member)
    obtain ⟨has, others⟩ := sole
    obtain ⟨holder, holds, same⟩ := mem_found.mp (one ▸ List.mem_singleton_self number)
    have isEntered : holder = entered := distinct.eq_of_alias isLooked
      (stays entered (mem_names_put.mpr (Or.inl rfl)))
      (stays holder (mem_names_put.mpr (Or.inr (List.mem_map_of_mem (f := Prod.fst) holds)))) same
    refine ⟨mem_put.mpr ?_, fun other otherHas => ?_⟩
    · refine (em _).imp (fun isName => ⟨isName, ?_⟩) (fun different => ⟨different, has⟩)
      have member := mem_found.mpr ⟨name, has, congrArg key isName⟩
      rw [one] at member
      exact List.mem_singleton.mp member
    · rcases mem_put.mp otherHas with ⟨rfl, rfl⟩ | ⟨_, old⟩
      · exact others _ (isEntered ▸ holds)
      · exact others other old
  | @fresh entered rest registry last number none above below unused later inductionHypothesis =>
    refine inductionHypothesis (List.forall_mem_cons.mp areLooked).2 distinct ?_
    obtain ⟨has, others⟩ := sole
    refine ⟨mem_put.mpr (Or.inr ⟨fun isName => ?_, has⟩), fun other otherHas => ?_⟩
    · have member := mem_found.mpr ⟨name, has, congrArg key isName⟩
      rw [none] at member
      cases member
    · rcases mem_put.mp otherHas with ⟨_, rfl⟩ | ⟨_, old⟩
      · exact absurd (List.mem_map_of_mem (f := Prod.snd) has) unused
      · exact others other old

/-- No number below the range comes or goes. -/
theorem Allocate.mem_ids_iff (allocate : Allocate key plainly low high autos registry last) {id : ℕ}
    (below : id < low) : id ∈ ids last ↔ id ∈ ids registry := by
  induction allocate with
  | done => rfl
  | @known entered rest registry last number one later inductionHypothesis =>
    rw [map_plainly] at one
    refine inductionHypothesis.trans ?_
    rw [mem_ids, mem_ids]
    constructor
    · rintro ⟨other, has⟩
      rcases mem_put.mp has with ⟨_, rfl⟩ | ⟨_, old⟩
      · obtain ⟨holder, holds, _⟩ := mem_found.mp (one ▸ List.mem_singleton_self id)
        exact ⟨holder, holds⟩
      · exact ⟨other, old⟩
    · rintro ⟨other, has⟩
      refine ⟨other, mem_put.mpr ((em _).imp (fun isEntered => ⟨isEntered, ?_⟩)
        (fun different => ⟨different, has⟩))⟩
      have member := mem_found.mpr ⟨other, has, congrArg key isEntered⟩
      rw [one] at member
      exact List.mem_singleton.mp member
  | @fresh entered rest registry last number none above _ _ later inductionHypothesis =>
    refine inductionHypothesis.trans ?_
    rw [mem_ids, mem_ids]
    constructor
    · rintro ⟨other, has⟩
      rcases mem_put.mp has with ⟨_, rfl⟩ | ⟨_, old⟩
      · omega
      · exact ⟨other, old⟩
    · rintro ⟨other, has⟩
      refine ⟨other, mem_put.mpr (Or.inr ⟨fun isEntered => ?_, has⟩)⟩
      have member := mem_found.mpr ⟨other, has, congrArg key isEntered⟩
      rw [none] at member
      cases member

/-- A round that completes met no name that was registered together with an alias. -/
theorem Allocate.eq_of_alias (allocate : Allocate key plainly low high autos registry last)
    {name other : ν} (member : name ∈ autos) (present : name ∈ names registry)
    (otherPresent : other ∈ names registry) (same : key other = key name) : other = name := by
  induction allocate with
  | done => cases member
  | @known entered rest registry last number one later inductionHypothesis =>
    rw [map_plainly] at one
    rcases List.mem_cons.mp member with rfl | later'
    · obtain ⟨entry, has, rfl⟩ := List.mem_map.mp present
      obtain ⟨entry', has', rfl⟩ := List.mem_map.mp otherPresent
      obtain ⟨only, filtered⟩ := List.length_eq_one_iff.mp
        (List.length_map Prod.snd ▸ congrArg List.length one)
      have isOnly : ∀ candidate ∈ registry, key candidate.1 = key entry.1 → candidate = only := by
        intro candidate inside aliased
        have kept : candidate ∈ registry.filter fun entry' =>
            decide (key entry'.1 = key entry.1) :=
          List.mem_filter.mpr ⟨inside, decide_eq_true aliased⟩
        rw [filtered] at kept
        exact List.mem_singleton.mp kept
      rw [isOnly entry' has' same, isOnly entry has rfl]
    · exact inductionHypothesis later' (mem_names_put.mpr (Or.inr present))
        (mem_names_put.mpr (Or.inr otherPresent))
  | @fresh entered rest registry last number none _ _ _ later inductionHypothesis =>
    rcases List.mem_cons.mp member with rfl | later'
    · obtain ⟨entry, has, rfl⟩ := List.mem_map.mp present
      have inside := mem_found.mpr ⟨entry.1, has, (rfl : key entry.1 = key entry.1)⟩
      rw [none] at inside
      cases inside
    · exact inductionHypothesis later' (mem_names_put.mpr (Or.inr present))
        (mem_names_put.mpr (Or.inr otherPresent))

/-- A registered name keeps its number. -/
theorem Allocate.mem_of_mem (allocate : Allocate key plainly low high autos registry last)
    {name : ν} {id : ℕ} (has : (name, id) ∈ registry) : (name, id) ∈ last :=
  allocate.mem_of_shown (shows_plainly high) has rfl

/-- What the registered numbers and those of the range have in common, all numbers have. -/
theorem Allocate.forall_ids (allocate : Allocate key plainly low high autos registry last)
    {holds : ℕ → Prop} (start : ∀ id ∈ ids registry, holds id) (range : ∀ id ≤ high, holds id) :
    ∀ id ∈ ids last, holds id := by
  induction allocate with
  | done => exact start
  | @known entered rest registry last number one _ inductionHypothesis =>
    obtain ⟨holder, id, has, _, rfl⟩ := exists_of_one one
    exact inductionHypothesis (forall_ids_put start (start id (mem_ids.mpr ⟨holder, has⟩)) _)
  | fresh _ _ below _ _ inductionHypothesis =>
    exact inductionHypothesis (forall_ids_put start (range _ below) _)

/-- The numbers behind requests are asked for or were there. -/
theorem forall_ids_assign {requests : List (ν × ℕ)} {holds : ℕ → Prop}
    (start : ∀ id ∈ ids registry, holds id) (asked : ∀ request ∈ requests, holds request.2) :
    ∀ id ∈ ids (assign requests registry), holds id := by
  intro id inside
  obtain ⟨name, has⟩ := mem_ids.mp inside
  rcases mem_assign.mp has with asks | ⟨_, old⟩
  · exact asked _ (mem_of_requested asks)
  · exact start id (mem_ids.mpr ⟨name, old⟩)

/-- The requests of a round are entered already where the round is repeated. -/
theorem mem_assign_again {requests : List (ν × ℕ)}
    (allocate : Allocate key plainly low high autos (assign requests registry) last)
    (nodup : (names registry).Nodup) {entry : ν × ℕ} :
    entry ∈ assign requests last ↔ entry ∈ last := by
  obtain ⟨name, id⟩ := entry
  have entered : ∀ number, requested requests name = some number → (name, number) ∈ last :=
    fun number asks => allocate.mem_of_mem (mem_assign.mpr (Or.inl asks))
  rw [mem_assign]
  constructor
  · rintro (asks | ⟨_, has⟩)
    · exact entered id asks
    · exact has
  · intro has
    cases asks : requested requests name with
    | none => exact Or.inr ⟨rfl, has⟩
    | some number =>
      have lastNodup := allocate.nodup_names (nodup_names_assign nodup requests)
      exact Or.inl (congrArg some (eq_of_mem lastNodup (entered number asks) has))

omit [DecidableEq ν] in
theorem perm_of_mem_iff {first second : Registry ν} (nodup : (names first).Nodup)
    (nodup' : (names second).Nodup) (same : ∀ entry, entry ∈ first ↔ entry ∈ second) :
    first.Perm second :=
  (List.perm_ext_iff_of_nodup (List.Nodup.of_map _ nodup) (List.Nodup.of_map _ nodup')).mpr same

/-- Entering a name with the number it has moves its entry only. -/
theorem put_perm (nodup : (names registry).Nodup) {name : ν} {id : ℕ}
    (has : (name, id) ∈ registry) : (put name id registry).Perm registry := by
  refine perm_of_mem_iff (nodup_names_put nodup name id) nodup fun ⟨other, number⟩ => ?_
  rw [mem_put]
  constructor
  · rintro (⟨rfl, rfl⟩ | ⟨_, old⟩)
    · exact has
    · exact old
  · intro old
    exact (em _).imp (fun isName => ⟨isName, eq_of_mem nodup (isName ▸ old) has⟩)
      (fun different => ⟨different, old⟩)

theorem assign_perm_again {requests : List (ν × ℕ)}
    (allocate : Allocate key plainly low high autos (assign requests registry) last)
    (nodup : (names registry).Nodup) : (assign requests last).Perm last := by
  have lastNodup := allocate.nodup_names (nodup_names_assign nodup requests)
  exact perm_of_mem_iff (nodup_names_assign lastNodup requests) lastNodup
    fun _ => mem_assign_again allocate nodup

/-- In a round whose numbers end unique no allocated name has an alias. -/
theorem Allocate.noAlias_of_unique (allocate : Allocate key plainly low high autos registry last)
    (unique : Unique last) {name other : ν} (member : name ∈ autos)
    (present : other ∈ names last) (same : key other = key name) : other = name := by
  have noAlias : ∀ name ∈ autos, name ∉ names registry → ∀ other ∈ names last,
      key other = key name → other = name := by
    intro name member missing other present same
    obtain ⟨number, otherHas⟩ := Registry.mem_names.mp present
    obtain ⟨id, has⟩ := Registry.mem_names.mp (allocate.mem_names.mpr (Or.inl member))
    exact unique _ otherHas _ has
      (allocate.shares (shows_plainly high) same member missing has otherHas).symm
  have isLast : name ∈ names last := allocate.mem_names.mpr (Or.inl member)
  by_cases old : name ∈ names registry
  · by_cases otherOld : other ∈ names registry
    · exact allocate.eq_of_alias member old otherOld same
    · have otherMember := (allocate.mem_names.mp present).resolve_right otherOld
      exact (noAlias other otherMember otherOld name isLast same.symm).symm
  · exact noAlias name member old other present same

end Repeated

end Registry
