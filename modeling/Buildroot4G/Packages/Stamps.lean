/-
This file proves what the stamps of a package say about the steps that were run: where the
stamp of a step exists, those of the steps before it exist and are not newer, and the
step was run after the last extraction and the last configuration.

The invariant holds at every line of every run of make. It is shown for a step that is due,
that is, whose stamp is missing, and for stamps that are removed when no later one exists.
-/

import Buildroot4G.Packages.GenericPackage

namespace Buildroot4G.Packages

open Make

/-! ### The steps of a package -/

/-- The place of a step in the chain, in which `rsync` has none of its own. -/
def Stamp.level : Stamp → ℕ
  | .source => 0
  | .rsync => 0
  | .extract => 1
  | .patch => 2
  | .configure => 3
  | .build => 4
  | .installStaging => 5
  | .installTarget => 5
  | .installImages => 5
  | .installHost => 5

/-- A package installs something. -/
def Package.installs (pkg : Package) : Bool :=
  pkg.type = .host || pkg.installStaging || pkg.installTarget || pkg.installImages

/-- The stamps that the package has to have: those that its installation leads to. -/
def Package.enabled (pkg : Package) : Stamp → Bool
  | .source => pkg.installs && !pkg.overrideSrcdir
  | .extract => pkg.installs && !pkg.overrideSrcdir
  | .patch => pkg.installs && !pkg.overrideSrcdir
  | .rsync => pkg.installs && pkg.overrideSrcdir
  | .configure => pkg.installs
  | .build => pkg.installs
  | .installStaging => pkg.type = .target && pkg.installStaging
  | .installTarget => pkg.type = .target && pkg.installTarget
  | .installImages => pkg.type = .target && pkg.installImages
  | .installHost => pkg.type = .host

/-- The steps whose results a stale package would have. -/
def Stamp.IsResult (stamp : Stamp) : Prop := 4 ≤ stamp.level

/-- The step that a line is part of. -/
def Line.step : Line → Option Stamp
  | .command stamp _ => some stamp
  | .touch stamp => some stamp
  | .remove _ => none

/-- The last execution of a step is later than the last one of another: the step was run as
a whole, and no line of the other was run since it began. -/
def Package.Later (pkg : Package) (origin step : Stamp) (log : List Line) : Prop :=
  ∃ before after, log = before ++ (pkg.step step ++ after) ∧
    ∀ line ∈ pkg.step step ++ after, line.step ≠ some origin

/-- The steps that change what is built. -/
def sources : List Stamp := [.extract, .configure, .rsync]

/-- What the stamps say at every moment. `sync` are the results of which it is known that they
are later than the last rsync, too. -/
structure Package.Consistent (pkg : Package) (clock : Clock) (sync : Stamp → Prop)
    (world : World) : Prop where
  past : ∀ stamp time, world.stamps stamp = some time → time ≤ clock.time world.log.length
  chain : ∀ stamp time, world.stamps stamp = some time → ∀ before, pkg.enabled before = true →
    before ≠ .rsync → before.level < stamp.level →
    ∃ earlier, world.stamps before = some earlier ∧ earlier ≤ time
  later : ∀ stamp, stamp.IsResult → world.stamps stamp ≠ none → ∀ origin ∈ sources,
    (origin = .rsync → sync stamp) → pkg.Later origin stamp world.log

/-- A step that is to be run now: no later stamp exists, and the earlier ones do. -/
structure Package.Due (pkg : Package) (sync : Stamp → Prop) (world : World)
    (stamp : Stamp) : Prop where
  above : stamp ≠ .rsync → ∀ after : Stamp, stamp.level < after.level → world.stamps after = none
  below : stamp ≠ .rsync → ∀ before, pkg.enabled before = true → before ≠ .rsync →
    before.level < stamp.level → world.stamps before ≠ none
  unsynced : stamp = .rsync → ∀ result : Stamp, result.IsResult → sync result →
    world.stamps result = none

section Steps

variable {pkg : Package} {clock : Clock} {sync : Stamp → Prop} {world : World}

theorem level_sources {origin : Stamp} (isSource : origin ∈ sources) : ¬ origin.IsResult := by
  revert isSource
  cases origin <;> simp [sources, Stamp.IsResult, Stamp.level]

/-- The lines of a step are its own. -/
theorem step_of_mem {stamp : Stamp} {line : Line} (member : line ∈ pkg.step stamp) :
    line.step = some stamp := by
  rcases List.mem_append.mp member with command | touch
  · obtain ⟨index, -, rfl⟩ := List.mem_map.mp command
    rfl
  · rw [List.mem_singleton.mp touch]
    rfl

theorem Package.Later.append {origin step : Stamp} {log lines : List Line}
    (later : pkg.Later origin step log) (others : ∀ line ∈ lines, line.step ≠ some origin) :
    pkg.Later origin step (log ++ lines) := by
  obtain ⟨before, after, rfl, clean⟩ := later
  refine ⟨before, after ++ lines, by simp, ?_⟩
  rw [← List.append_assoc]
  exact List.forall_mem_append.mpr ⟨clean, others⟩

/-- A step that was just run. -/
theorem later_step {origin step : Stamp} (different : step ≠ origin) (log : List Line) :
    pkg.Later origin step (log ++ pkg.step step) := by
  refine ⟨log, [], by rw [List.append_nil], ?_⟩
  rw [List.append_nil]
  intro line member same
  rw [step_of_mem member] at same
  exact different (Option.some.inj same)

/-- A step that is due is no source of a result that exists. -/
theorem Package.Due.ne_source {stamp : Stamp} (due : pkg.Due sync world stamp) {result : Stamp}
    (isResult : result.IsResult) (exists_ : world.stamps result ≠ none) {origin : Stamp}
    (isSource : origin ∈ sources) (synced : origin = .rsync → sync result) : stamp ≠ origin := by
  rintro rfl
  by_cases isRsync : stamp = .rsync
  · exact exists_ (due.unsynced isRsync result isResult (synced isRsync))
  · refine exists_ (due.above isRsync result ?_)
    have below := level_sources isSource
    rw [Stamp.IsResult] at below isResult
    omega

/-- What lines of a step that is due keep, before its stamp is touched. -/
theorem Package.Consistent.commands (consistent : pkg.Consistent clock sync world) {stamp : Stamp}
    (due : pkg.Due sync world stamp) {lines : List Line}
    (own : ∀ line ∈ lines, line.step = some stamp) :
    pkg.Consistent clock sync ⟨world.stamps, world.log ++ lines⟩ := by
  refine ⟨fun other time found => ?_, consistent.chain, ?_⟩
  · refine (consistent.past other time found).trans (clock.monotone ?_)
    rw [List.length_append]
    exact Nat.le_add_right _ _
  · intro result isResult exists_ origin isSource synced
    refine (consistent.later result isResult exists_ origin isSource synced).append ?_
    intro line member same
    rw [own line member] at same
    exact due.ne_source isResult exists_ isSource synced (Option.some.inj same)

/-- The world after a step. -/
def World.stamped (world : World) (clock : Clock) (pkg : Package) (stamp : Stamp) : World where
  stamps := Function.update world.stamps stamp
    (some (clock.time (world.log.length + pkg.commands stamp)))
  log := world.log ++ pkg.step stamp

section Stamped

variable {stamp other : Stamp}

theorem stamped_self : (world.stamped clock pkg stamp).stamps stamp =
    some (clock.time (world.log.length + pkg.commands stamp)) :=
  Function.update_self ..

theorem stamped_of_ne (different : other ≠ stamp) :
    (world.stamped clock pkg stamp).stamps other = world.stamps other :=
  Function.update_of_ne different ..

theorem removed_self : (world.exec clock (.remove stamp)).stamps stamp = none :=
  Function.update_self ..

theorem removed_of_ne (different : other ≠ stamp) :
    (world.exec clock (.remove stamp)).stamps other = world.stamps other :=
  Function.update_of_ne different ..

end Stamped

theorem Package.Consistent.stamped (consistent : pkg.Consistent clock sync world) {stamp : Stamp}
    (due : pkg.Due sync world stamp) :
    pkg.Consistent clock sync (world.stamped clock pkg stamp) := by
  have stepLength : (pkg.step stamp).length = pkg.commands stamp + 1 := by
    simp [Package.step]
  have logLength : (world.log ++ pkg.step stamp).length =
      world.log.length + pkg.commands stamp + 1 := by
    rw [List.length_append, stepLength, Nat.add_assoc]
  refine ⟨fun other time found => ?_,
    fun other time found before isEnabled notRsync lower => ?_, ?_⟩
  · change time ≤ clock.time (world.log ++ pkg.step stamp).length
    rw [logLength]
    by_cases same : other = stamp
    · subst same
      rw [stamped_self] at found
      rw [← Option.some.inj found]
      exact clock.monotone (by omega)
    · rw [stamped_of_ne same] at found
      exact (consistent.past other time found).trans (clock.monotone (by omega))
  · by_cases same : other = stamp
    · subst same
      rw [stamped_self] at found
      have notSelf : before ≠ other := by
        rintro rfl
        exact lt_irrefl _ lower
      have isRsync : other ≠ .rsync := by
        rintro rfl
        exact Nat.not_lt_zero _ lower
      obtain ⟨earlier, isEarlier⟩ :=
        Option.ne_none_iff_exists'.mp (due.below isRsync before isEnabled notRsync lower)
      refine ⟨earlier, ?_, ?_⟩
      · rw [stamped_of_ne notSelf]
        exact isEarlier
      · rw [← Option.some.inj found]
        exact (consistent.past before earlier isEarlier).trans (clock.monotone (by omega))
    · rw [stamped_of_ne same] at found
      have notStamp : before ≠ stamp := by
        rintro rfl
        rw [due.above notRsync other lower] at found
        cases found
      rw [stamped_of_ne notStamp]
      exact consistent.chain other time found before isEnabled notRsync lower
  · intro result isResult exists_ origin isSource synced
    by_cases same : result = stamp
    · subst same
      refine later_step ?_ world.log
      rintro rfl
      exact level_sources isSource isResult
    · rw [stamped_of_ne same] at exists_
      refine (consistent.later result isResult exists_ origin isSource synced).append ?_
      intro line member same
      rw [step_of_mem member] at same
      exact due.ne_source isResult exists_ isSource synced (Option.some.inj same)

/-- A stamp can be removed when no later one exists. -/
theorem Package.Consistent.remove (consistent : pkg.Consistent clock sync world) {stamp : Stamp}
    (last : stamp ≠ .rsync → ∀ after : Stamp, stamp.level < after.level →
      world.stamps after = none) :
    pkg.Consistent clock sync (world.exec clock (.remove stamp)) := by
  have kept : ∀ {other : Stamp} {time : ℕ},
      (world.exec clock (.remove stamp)).stamps other = some time →
      other ≠ stamp ∧ world.stamps other = some time := by
    intro other time found
    by_cases same : other = stamp
    · subst same
      rw [removed_self] at found
      cases found
    · rw [removed_of_ne same] at found
      exact ⟨same, found⟩
  refine ⟨fun other time found => ?_,
    fun other time found before isEnabled notRsync lower => ?_, ?_⟩
  · refine (consistent.past other time (kept found).2).trans (clock.monotone ?_)
    change world.log.length ≤ (world.log ++ [Line.remove stamp]).length
    rw [List.length_append]
    exact Nat.le_add_right _ _
  · have notStamp : before ≠ stamp := by
      rintro rfl
      have none := last notRsync other lower
      rw [(kept found).2] at none
      cases none
    rw [removed_of_ne notStamp]
    exact consistent.chain other time (kept found).2 before isEnabled notRsync lower
  · intro result isResult exists_ origin isSource synced
    obtain ⟨time, found⟩ := Option.ne_none_iff_exists'.mp exists_
    have exists_' : world.stamps result ≠ none := by
      rw [(kept found).2]
      exact Option.some_ne_none time
    refine (consistent.later result isResult exists_' origin isSource synced).append ?_
    intro line member
    rw [List.mem_singleton.mp member]
    exact nofun

end Steps

end Buildroot4G.Packages
