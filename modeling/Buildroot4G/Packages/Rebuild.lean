/-
This file proves when the installed package is not stale: for runs of make with the goals of a
package in any order, each of them interrupted anywhere, a run for the package itself
that completes leaves every stamp that is enabled, and the last build and the last
installations are later than the last extraction and the last configuration. They are
later than the last rsync, too, if no run has synced the sources while the stamp of the
step was there.
-/

import Buildroot4G.Packages.Stamps

namespace Buildroot4G.Packages

open Make

/-! ### The chain in the makefile -/

/-- The targets that the goal of the package leads to. -/
def Package.Planned (pkg : Package) : Target → Prop
  | .package => True
  | .install => True
  | .installStaging => pkg.type = .target
  | .installTarget => pkg.type = .target
  | .installImages => pkg.type = .target
  | .installHost => pkg.type = .host
  | .stamp stamp => pkg.enabled stamp = true
  | _ => False

section Chain

variable {pkg : Package}

/-- A prerequisite of an enabled step is an enabled step. -/
theorem enabled_dep {stamp : Stamp} (isEnabled : pkg.enabled stamp = true) {dep : Dep Target}
    (member : dep ∈ pkg.stampDeps stamp) :
    ∃ before, dep.target = .stamp before ∧ pkg.enabled before = true := by
  cases stamp <;> simp only [Package.stampDeps] at member <;>
    grind [Package.enabled, Package.installs, ordinary, orderOnly]

theorem planned_dep (pkg : Package) :
    ∀ target, pkg.Planned target → ∀ dep ∈ pkg.deps target, pkg.Planned dep.target := by
  intro target planned dep member
  cases target with
  | stamp stamp =>
    obtain ⟨before, same, isEnabled⟩ := enabled_dep planned member
    rw [same]
    exact isEnabled
  | package =>
    rw [List.mem_singleton.mp member]
    trivial
  | install =>
    simp only [Package.deps] at member
    split at member
    · rw [List.mem_singleton.mp member]
      assumption
    · have isTarget : pkg.type = .target := by
        cases type : pkg.type <;> simp_all
      simp only [List.mem_cons, List.not_mem_nil, or_false] at member
      rcases member with rfl | rfl | rfl <;> exact isTarget
  | installStaging | installTarget | installImages | installHost =>
    change pkg.type = _ at planned
    simp only [Package.deps, List.mem_ite_nil_right, List.mem_singleton] at member
    grind [Package.Planned, Package.enabled, ordinary]
  | cleanForReinstall | cleanForRebuild | cleanForReconfigure | reinstall | rebuild | reconfigure =>
    exact planned.elim

/-- An ordinary prerequisite is a step before, but for the staging directory, which comes before
the target directory. -/
theorem ordinary_dep {stamp : Stamp} (notTarget : stamp ≠ .installTarget) {dep : Dep Target}
    (member : dep ∈ pkg.stampDeps stamp) (isOrdinary : dep.orderOnly = false) :
    ∃ before, dep.target = .stamp before ∧ before ≠ .rsync ∧ before.level < stamp.level := by
  cases stamp <;> grind [Package.stampDeps, ordinary, orderOnly, Stamp.level]

/-- The steps before an enabled one are reached through a prerequisite. -/
theorem exists_dep {stamp before : Stamp} (isEnabled : pkg.enabled stamp = true)
    (notRsync : stamp ≠ .rsync) (beforeEnabled : pkg.enabled before = true)
    (beforeNotRsync : before ≠ .rsync) (lower : before.level < stamp.level) :
    ∃ last, ordinary last ∈ pkg.stampDeps stamp ∧ last ≠ .rsync ∧
      (before = last ∨ before.level < last.level) := by
  cases stamp <;> cases before <;>
    grind [Package.stampDeps, Package.enabled, Package.installs, ordinary, orderOnly, Stamp.level]

/-- What the goal of the package leads to has its stamps. -/
theorem stamp_of_closed {reached : Target → Prop}
    (closed : ∀ target, reached target → ∀ dep ∈ pkg.deps target, reached dep.target)
    (done : reached .package) {stamp : Stamp} (isEnabled : pkg.enabled stamp = true) :
    reached (.stamp stamp) := by
  have next : ∀ target dep, reached target → dep ∈ pkg.deps target → reached dep.target :=
    fun target dep member isDep => closed target member dep isDep
  have install : reached .install := next .package (phony .install) done List.mem_cons_self
  have host : pkg.type = .host → reached (.stamp .installHost) := by
    intro isHost
    refine next .installHost (ordinary .installHost) ?_ List.mem_cons_self
    exact next .install (phony .installHost) install (by simp [Package.deps, isHost])
  have staging : pkg.type = .target → pkg.installStaging = true →
      reached (.stamp .installStaging) := by
    intro isTarget installs
    refine next .installStaging (ordinary .installStaging) ?_ (by simp [Package.deps, installs])
    exact next .install (phony .installStaging) install (by simp [Package.deps, isTarget])
  have target : pkg.type = .target → pkg.installTarget = true →
      reached (.stamp .installTarget) := by
    intro isTarget installs
    refine next .installTarget (ordinary .installTarget) ?_ (by simp [Package.deps, installs])
    exact next .install (phony .installTarget) install (by simp [Package.deps, isTarget])
  have images : pkg.type = .target → pkg.installImages = true →
      reached (.stamp .installImages) := by
    intro isTarget installs
    refine next .installImages (ordinary .installImages) ?_ (by simp [Package.deps, installs])
    exact next .install (phony .installImages) install (by simp [Package.deps, isTarget])
  have build : pkg.installs = true → reached (.stamp .build) := by
    intro installs
    have fromStep : ∀ result, reached (.stamp result) →
        ordinary .build ∈ pkg.stampDeps result → reached (.stamp .build) :=
      fun result => next (.stamp result) (ordinary .build)
    cases type : pkg.type with
    | host => exact fromStep _ (host type) List.mem_cons_self
    | target =>
      simp only [Package.installs, type, reduceCtorEq, decide_false, Bool.false_or,
        Bool.or_eq_true] at installs
      rcases installs with (installs | installs) | installs
      · exact fromStep _ (staging type installs) (by simp [Package.stampDeps, installs])
      · exact fromStep _ (target type installs) (by simp [Package.stampDeps, installs])
      · exact fromStep _ (images type installs) (by simp [Package.stampDeps, installs])
  have configure : pkg.installs = true → reached (.stamp .configure) := fun installs =>
    next (.stamp .build) (ordinary .configure) (build installs) List.mem_cons_self
  have normal : pkg.installs = true → pkg.overrideSrcdir = false → reached (.stamp .patch) ∧
      reached (.stamp .extract) ∧ reached (.stamp .source) := by
    intro installs override
    have patch := next (.stamp .configure) (ordinary .patch) (configure installs)
      (by simp [Package.deps, Package.stampDeps, override])
    have extract := next (.stamp .patch) (ordinary .extract) patch
      (by simp [Package.deps, Package.stampDeps, override])
    exact ⟨patch, extract, next (.stamp .extract) (ordinary .source) extract
      (by simp [Package.deps, Package.stampDeps, override])⟩
  simp only [Package.enabled] at isEnabled
  cases stamp with
  | source | extract | patch =>
    simp only [Bool.and_eq_true, Bool.not_eq_true'] at isEnabled
    obtain ⟨patch, extract, source⟩ := normal isEnabled.1 isEnabled.2
    assumption
  | rsync =>
    simp only [Bool.and_eq_true] at isEnabled
    exact next (.stamp .configure) (orderOnly .rsync) (configure isEnabled.1)
      (by simp [Package.deps, Package.stampDeps, isEnabled.2])
  | configure => exact configure isEnabled
  | build => exact build isEnabled
  | installHost => exact host (of_decide_eq_true isEnabled)
  | installStaging =>
    simp only [Bool.and_eq_true, decide_eq_true_eq] at isEnabled
    exact staging isEnabled.1 isEnabled.2
  | installTarget =>
    simp only [Bool.and_eq_true, decide_eq_true_eq] at isEnabled
    exact target isEnabled.1 isEnabled.2
  | installImages =>
    simp only [Bool.and_eq_true, decide_eq_true_eq] at isEnabled
    exact images isEnabled.1 isEnabled.2

end Chain

/-! ### The goal of the package -/

/-- What holds while make updates the targets of the package. -/
structure Package.Updating (pkg : Package) (clock : Clock) (sync : Stamp → Prop)
    (updated : List Target) (world : World) : Prop where
  consistent : pkg.Consistent clock sync world
  made : ∀ stamp, .stamp stamp ∈ updated → world.stamps stamp ≠ none
  closed : ∀ target ∈ updated, ∀ dep ∈ pkg.deps target, dep.target ∈ updated
  synced : pkg.overrideSrcdir = true → ∀ result : Stamp, result.IsResult → sync result →
    world.stamps result ≠ none → world.stamps .rsync ≠ none

section Updating

variable {pkg : Package} {clock : Clock} {sync : Stamp → Prop} {updated : List Target}
  {world : World}

/-- A step that make runs is due. -/
theorem Package.Updating.due (updating : pkg.Updating clock sync updated world) {stamp : Stamp}
    (isEnabled : pkg.enabled stamp = true)
    (ready : ∀ dep ∈ pkg.stampDeps stamp, dep.target ∈ updated)
    (needs : (pkg.makefile clock).needsRemake world (.stamp stamp) = true) :
    pkg.Due sync world stamp := by
  have missing : stamp ≠ .installTarget → world.stamps stamp = none := by
    intro notTarget
    by_contra exists_
    obtain ⟨time, found⟩ := Option.ne_none_iff_exists'.mp exists_
    have mtime : (pkg.makefile clock).mtime world (.stamp stamp) = some time := found
    rw [Makefile.needsRemake, mtime] at needs
    obtain ⟨dep, member, older⟩ := List.any_eq_true.mp needs
    rw [Bool.and_eq_true, Bool.not_eq_true'] at older
    obtain ⟨isOrdinary, older⟩ := older
    obtain ⟨before, same, isEnabledBefore⟩ := enabled_dep isEnabled member
    obtain ⟨before', same', notRsync, lower⟩ := ordinary_dep notTarget member isOrdinary
    obtain rfl := Target.stamp.inj (same.symm.trans same')
    obtain ⟨earlier, isEarlier, le⟩ :=
      updating.consistent.chain stamp time found before isEnabledBefore notRsync lower
    have depTime : (pkg.makefile clock).mtime world dep.target = some earlier := by
      rw [same]
      exact isEarlier
    rw [depTime] at older
    exact absurd (of_decide_eq_true older) (Nat.not_lt_of_le le)
  refine ⟨fun notRsync after higher => ?_,
    fun notRsync before beforeEnabled beforeNotRsync lower => ?_,
    fun isRsync result isResult synced => ?_⟩
  · by_contra exists_
    obtain ⟨time, found⟩ := Option.ne_none_iff_exists'.mp exists_
    have notTarget : stamp ≠ .installTarget := by
      rintro rfl
      cases after <;> simp [Stamp.level] at higher
    obtain ⟨earlier, isEarlier, -⟩ :=
      updating.consistent.chain after time found stamp isEnabled notRsync higher
    rw [missing notTarget] at isEarlier
    cases isEarlier
  · obtain ⟨last, member, lastNotRsync, same | below⟩ :=
      exists_dep isEnabled notRsync beforeEnabled beforeNotRsync lower
    · rw [same]
      exact updating.made last (ready _ member)
    · obtain ⟨time, found⟩ :=
        Option.ne_none_iff_exists'.mp (updating.made last (ready _ member))
      obtain ⟨earlier, isEarlier, -⟩ :=
        updating.consistent.chain last time found before beforeEnabled beforeNotRsync below
      rw [isEarlier]
      exact Option.some_ne_none earlier
  · subst isRsync
    by_contra exists_
    have override : pkg.overrideSrcdir = true := by
      simp only [Package.enabled, Bool.and_eq_true] at isEnabled
      exact isEnabled.2
    exact updating.synced override result isResult synced exists_
      (missing (by decide))

/-- A result is made when the sources were synced. -/
theorem Package.Updating.rsync (updating : pkg.Updating clock sync updated world)
    (override : pkg.overrideSrcdir = true) {stamp : Stamp} (isEnabled : pkg.enabled stamp = true)
    (isResult : stamp.IsResult) (ready : ∀ dep ∈ pkg.stampDeps stamp, dep.target ∈ updated) :
    world.stamps .rsync ≠ none := by
  have ofConfigure : Target.stamp .configure ∈ updated → Target.stamp .rsync ∈ updated := by
    intro member
    refine updating.closed _ member (orderOnly .rsync) ?_
    simp [Package.deps, Package.stampDeps, override]
  have ofBuild : Target.stamp .build ∈ updated → Target.stamp .configure ∈ updated := by
    intro member
    refine updating.closed _ member (ordinary .configure) ?_
    simp [Package.deps, Package.stampDeps]
  refine updating.made .rsync (ofConfigure ?_)
  cases stamp with
  | build => exact ready (ordinary .configure) (by simp [Package.stampDeps])
  | installHost => exact ofBuild (ready (ordinary .build) (by simp [Package.stampDeps]))
  | installStaging | installTarget | installImages =>
    simp only [Package.enabled, Bool.and_eq_true] at isEnabled
    exact ofBuild (ready (ordinary .build) (by simp [Package.stampDeps, isEnabled.2]))
  | _ => simp [Stamp.IsResult, Stamp.level] at isResult

/-- The world after commands of a step. -/
theorem after_commands (stamp : Stamp) (indices : List ℕ) (world : World) :
    (pkg.makefile clock).after world (indices.map (Line.command stamp)) =
      ⟨world.stamps, world.log ++ indices.map (Line.command stamp)⟩ := by
  induction indices generalizing world with
  | nil =>
    rw [List.map_nil, List.append_nil]
    rfl
  | cons index rest inductionHypothesis =>
    rw [List.map_cons]
    refine (inductionHypothesis (world.exec clock (.command stamp index))).trans ?_
    rw [World.exec, List.append_assoc]
    rfl

theorem after_step (stamp : Stamp) (world : World) :
    (pkg.makefile clock).after world (pkg.step stamp) = world.stamped clock pkg stamp := by
  rw [Package.step, Makefile.after_append, after_commands]
  change World.exec clock _ (.touch stamp) = _
  rw [World.exec, World.stamped, Package.step, List.append_assoc, List.length_append,
    List.length_map, List.length_range]

/-- A step that is due keeps the stamps consistent, wherever it is stopped. -/
theorem Package.Consistent.step (consistent : pkg.Consistent clock sync world) {stamp : Stamp}
    (due : pkg.Due sync world stamp) (n : ℕ) :
    pkg.Consistent clock sync
      ((pkg.makefile clock).after world ((pkg.step stamp).take n)) := by
  by_cases inside : n ≤ pkg.commands stamp
  · have commands : (pkg.step stamp).take n =
        ((List.range (pkg.commands stamp)).take n).map (Line.command stamp) := by
      rw [Package.step, List.take_append_of_le_length, List.map_take]
      rwa [List.length_map, List.length_range]
    rw [commands, after_commands]
    refine consistent.commands due fun line member => ?_
    obtain ⟨index, -, rfl⟩ := List.mem_map.mp member
    rfl
  · have whole : (pkg.step stamp).take n = pkg.step stamp := by
      refine List.take_of_length_le ?_
      simp only [Package.step, List.length_append, List.length_map, List.length_range,
        List.length_singleton]
      omega
    rw [whole, after_step]
    exact consistent.stamped due

/-- Making the package keeps the stamps consistent. -/
theorem preserves_package (pkg : Package) (clock : Clock) (sync : Stamp → Prop) :
    (pkg.makefile clock).Preserves pkg.Planned (pkg.Updating clock sync)
      (pkg.Consistent clock sync) where
  closed := planned_dep pkg
  always _ _ updating := updating.consistent
  keep updated world target planned updating ready needs := by
    refine ⟨updating.consistent, fun stamp member => ?_,
      Makefile.closed_cons updating.closed ready, updating.synced⟩
    rcases List.mem_cons.mp member with same | member
    · intro missing
      subst same
      have mtime : (pkg.makefile clock).mtime world (.stamp stamp) = none := missing
      rw [Makefile.needsRemake, mtime] at needs
      cases needs
    · exact updating.made stamp member
  remake updated world target planned updating ready needs := by
    have closed := Makefile.closed_cons updating.closed ready
    cases target with
    | stamp stamp =>
      have due := updating.due planned ready needs
      change pkg.Updating clock sync _ ((pkg.makefile clock).after world (pkg.step stamp)) ∧ _
      refine ⟨⟨?_, fun other member => ?_, closed,
        fun override result isResult synced exists_ => ?_⟩, updating.consistent.step due⟩
      · rw [after_step]
        exact updating.consistent.stamped due
      · rw [after_step]
        by_cases same : other = stamp
        · rw [same, stamped_self]
          exact Option.some_ne_none _
        · rw [stamped_of_ne same]
          refine updating.made other ((List.mem_cons.mp member).resolve_left ?_)
          exact fun isTarget => same (Target.stamp.inj isTarget)
      · rw [after_step] at exists_ ⊢
        have synced : stamp ≠ .rsync → world.stamps .rsync ≠ none := by
          intro notRsync
          by_cases same : result = stamp
          · subst same
            exact updating.rsync override planned isResult ready
          · rw [stamped_of_ne same] at exists_
            exact updating.synced override result isResult synced exists_
        by_cases isRsync : stamp = .rsync
        · rw [isRsync, stamped_self]
          exact Option.some_ne_none _
        · rw [stamped_of_ne (Ne.symm isRsync)]
          exact synced isRsync
    | package | install | installStaging | installTarget | installImages | installHost =>
      refine ⟨⟨updating.consistent, fun stamp member => ?_, closed, updating.synced⟩, fun n => ?_⟩
      · exact updating.made stamp ((List.mem_cons.mp member).resolve_left nofun)
      · change pkg.Consistent clock sync
          ((pkg.makefile clock).after world (([] : List Line).take n))
        rw [List.take_nil]
        exact updating.consistent
    | cleanForReinstall | cleanForRebuild | cleanForReconfigure | reinstall | rebuild
    | reconfigure => exact planned.elim

/-- When the package was updated, it has its stamps. -/
theorem Package.Updating.stamps (updating : pkg.Updating clock sync updated world)
    (done : .package ∈ updated) {stamp : Stamp} (isEnabled : pkg.enabled stamp = true) :
    world.stamps stamp ≠ none :=
  updating.made stamp (stamp_of_closed updating.closed done isEnabled)

end Updating

/-! ### Removing stamps -/

def Target.IsClean : Target → Prop
  | .cleanForReinstall => True
  | .cleanForRebuild => True
  | .cleanForReconfigure => True
  | _ => False

/-- What holds while make updates the targets that remove stamps: a stamp is removed when the
later ones are gone. -/
structure Package.Cleaning (pkg : Package) (clock : Clock) (sync : Stamp → Prop)
    (updated : List Target) (world : World) : Prop where
  consistent : pkg.Consistent clock sync world
  clean : ∀ target ∈ updated, target.IsClean
  closed : ∀ target ∈ updated, ∀ dep ∈ pkg.deps target, dep.target ∈ updated
  installs : .cleanForReinstall ∈ updated → ∀ stamp : Stamp, stamp.level = 5 →
    world.stamps stamp = none
  build : .cleanForRebuild ∈ updated → world.stamps .build = none

section Cleaning

variable {pkg : Package} {clock : Clock} {sync : Stamp → Prop} {updated : List Target}
  {world : World}

/-- The stamps that are removed for a new installation. -/
def Package.reinstalled (pkg : Package) : List Stamp :=
  (if pkg.overrideSrcdir then [.rsync] else []) ++
    [.installStaging, .installTarget, .installImages, .installHost]

theorem recipe_cleanForReinstall (pkg : Package) :
    pkg.recipe .cleanForReinstall = pkg.reinstalled.map Line.remove := by
  rw [Package.recipe, Package.reinstalled, List.map_append, apply_ite (List.map Line.remove)]
  rfl

theorem level_of_mem_reinstalled {stamp : Stamp} (member : stamp ∈ pkg.reinstalled) :
    stamp ≠ .rsync → stamp.level = 5 := by
  intro notRsync
  simp only [Package.reinstalled, List.mem_append, List.mem_ite_nil_right, List.mem_cons,
    List.not_mem_nil, or_false] at member
  rcases member with ⟨-, rfl⟩ | rfl | rfl | rfl | rfl
  · exact absurd rfl notRsync
  all_goals rfl

theorem level_le (stamp : Stamp) : stamp.level ≤ 5 := by
  cases stamp <;> decide

/-- Stamps of the last steps can be removed. -/
theorem Package.Consistent.removes (consistent : pkg.Consistent clock sync world)
    {stamps : List Stamp} (last : ∀ stamp ∈ stamps, stamp ≠ .rsync → stamp.level = 5) :
    pkg.Consistent clock sync
      ((pkg.makefile clock).after world (stamps.map Line.remove)) := by
  induction stamps generalizing world with
  | nil => exact consistent
  | cons stamp rest inductionHypothesis =>
    obtain ⟨isLast, restLast⟩ := List.forall_mem_cons.mp last
    refine inductionHypothesis (consistent.remove fun notRsync after higher => ?_) restLast
    have bound := level_le after
    have level := isLast notRsync
    omega

theorem stamps_removes (stamps : List Stamp) (world : World) {stamp : Stamp}
    (gone : stamp ∈ stamps ∨ world.stamps stamp = none) :
    ((pkg.makefile clock).after world (stamps.map Line.remove)).stamps stamp = none := by
  induction stamps generalizing world with
  | nil => exact gone.resolve_left List.not_mem_nil
  | cons first rest inductionHypothesis =>
    refine inductionHypothesis (world.exec clock (.remove first)) ?_
    by_cases same : stamp = first
    · rw [same]
      exact Or.inr removed_self
    · rw [removed_of_ne same]
      exact gone.imp_left fun member => (List.mem_cons.mp member).resolve_left same

/-- A recipe that removes one stamp is either not begun or done. -/
theorem Package.Consistent.take_remove (consistent : pkg.Consistent clock sync world)
    {stamp : Stamp} (removed : pkg.Consistent clock sync (world.exec clock (.remove stamp)))
    (n : ℕ) :
    pkg.Consistent clock sync
      ((pkg.makefile clock).after world ([Line.remove stamp].take n)) := by
  cases n with
  | zero => exact consistent
  | succ n =>
    rw [List.take_succ_cons, List.take_nil]
    exact removed

/-- Removing stamps keeps the others consistent. -/
theorem preserves_clean (pkg : Package) (clock : Clock) (sync : Stamp → Prop) :
    (pkg.makefile clock).Preserves Target.IsClean (pkg.Cleaning clock sync)
      (pkg.Consistent clock sync) where
  closed := by
    intro target isClean dep member
    cases target with
    | cleanForReinstall => cases member
    | cleanForRebuild | cleanForReconfigure =>
      rw [List.mem_singleton.mp member]
      trivial
    | _ => exact isClean.elim
  always _ _ cleaning := cleaning.consistent
  keep updated world target isClean cleaning ready needs := by
    cases target with
    | cleanForReinstall | cleanForRebuild | cleanForReconfigure => cases needs
    | _ => exact isClean.elim
  remake updated world target isClean cleaning ready needs := by
    have clean : ∀ other ∈ target :: updated, other.IsClean :=
      List.forall_mem_cons.mpr ⟨isClean, cleaning.clean⟩
    have closed := Makefile.closed_cons cleaning.closed ready
    cases target with
    | cleanForReinstall =>
      change pkg.Cleaning clock sync _
        ((pkg.makefile clock).after world (pkg.recipe .cleanForReinstall)) ∧
        ∀ n, pkg.Consistent clock sync
          ((pkg.makefile clock).after world ((pkg.recipe .cleanForReinstall).take n))
      rw [recipe_cleanForReinstall]
      refine ⟨⟨?_, clean, closed, fun _ stamp isLast => ?_, fun member => ?_⟩, fun n => ?_⟩
      · exact cleaning.consistent.removes fun stamp => level_of_mem_reinstalled
      · refine stamps_removes _ _ (Or.inl ?_)
        cases stamp <;> simp [Stamp.level, Package.reinstalled] at isLast ⊢
      · exact stamps_removes _ _
          (Or.inr (cleaning.build ((List.mem_cons.mp member).resolve_left (by decide))))
      · rw [← List.map_take]
        exact cleaning.consistent.removes fun stamp member =>
          level_of_mem_reinstalled (List.mem_of_mem_take member)
    | cleanForRebuild =>
      have installs := cleaning.installs (ready (phony .cleanForReinstall) List.mem_cons_self)
      have removed : pkg.Consistent clock sync (world.exec clock (.remove .build)) := by
        refine cleaning.consistent.remove fun _ after higher => installs after ?_
        have bound := level_le after
        change 4 < after.level at higher
        omega
      refine ⟨⟨removed, clean, closed, fun _ stamp isLast => ?_, fun _ => ?_⟩,
        cleaning.consistent.take_remove removed⟩
      · exact stamps_removes [.build] world (Or.inr (installs stamp isLast))
      · exact stamps_removes [.build] world (Or.inl List.mem_cons_self)
    | cleanForReconfigure =>
      have rebuilt := ready (phony .cleanForRebuild) List.mem_cons_self
      have build := cleaning.build rebuilt
      have installs := cleaning.installs
        (cleaning.closed _ rebuilt (phony .cleanForReinstall) List.mem_cons_self)
      have removed : pkg.Consistent clock sync (world.exec clock (.remove .configure)) := by
        refine cleaning.consistent.remove fun _ after higher => ?_
        cases after with
        | build => exact build
        | installStaging | installTarget | installImages | installHost => exact installs _ rfl
        | _ => simp [Stamp.level] at higher
      refine ⟨⟨removed, clean, closed, fun _ stamp isLast => ?_, fun _ => ?_⟩,
        cleaning.consistent.take_remove removed⟩
      · exact stamps_removes [.configure] world (Or.inr (installs stamp isLast))
      · exact stamps_removes [.configure] world (Or.inr build)
    | _ => exact isClean.elim

end Cleaning

/-! ### Runs -/

/-- The lines that a goal removes stamps with before the package is made. -/
def Package.cleanLines (pkg : Package) : Goal → List Line
  | .package => []
  | .reinstall => pkg.recipe .cleanForReinstall
  | .rebuild => pkg.recipe .cleanForReinstall ++ pkg.recipe .cleanForRebuild
  | .reconfigure =>
    pkg.recipe .cleanForReinstall ++ pkg.recipe .cleanForRebuild ++
      pkg.recipe .cleanForReconfigure

/-- A run is not interrupted before it gets to the package. -/
def Package.Reaches (pkg : Package) (run : Run) : Prop :=
  (pkg.cleanLines run.goal).length < run.lines

/-- The world when a run gets to the package. -/
def Package.cleaned (pkg : Package) (clock : Clock) (world : World) (run : Run) : World :=
  (pkg.makefile clock).after world (pkg.cleanLines run.goal)

/-- A run that gets to the package with the stamp of the rsync gone, and so syncs the sources, finds
the stamp of a step gone, too. -/
def Package.SyncsFirst (pkg : Package) (clock : Clock) (step : Stamp) (world : World)
    (run : Run) : Prop :=
  pkg.overrideSrcdir = true → pkg.Reaches run →
    (pkg.cleaned clock world run).stamps .rsync = none →
    (pkg.cleaned clock world run).stamps step = none

/-- One of the runs gets to the package with the stamp of a step gone. -/
def Package.RunsAgain (pkg : Package) (clock : Clock) (step : Stamp) : World → List Run → Prop
  | _, [] => False
  | world, run :: rest =>
    pkg.Reaches run ∧ (pkg.cleaned clock world run).stamps step = none ∨
      pkg.RunsAgain clock step (pkg.make clock world run) rest

/-- A run that syncs the sources while the stamp of a step is there is followed by one that gets to
the package with the stamp gone. -/
def Package.SyncsSafely (pkg : Package) (clock : Clock) (step : Stamp) :
    World → List Run → Prop
  | _, [] => True
  | world, run :: rest =>
    (pkg.SyncsFirst clock step world run ∨
      pkg.RunsAgain clock step (pkg.make clock world run) rest) ∧
    pkg.SyncsSafely clock step (pkg.make clock world run) rest

section Decidable

variable (pkg : Package) (clock : Clock) (step : Stamp)

instance : Decidable step.IsResult := inferInstanceAs (Decidable (4 ≤ step.level))

instance (run : Run) : Decidable (pkg.Reaches run) :=
  inferInstanceAs (Decidable ((pkg.cleanLines run.goal).length < run.lines))

instance (world : World) (run : Run) : Decidable (pkg.SyncsFirst clock step world run) :=
  inferInstanceAs (Decidable (_ = true → pkg.Reaches run → _ = none → _ = none))

instance decidableRunsAgain :
    ∀ world runs, Decidable (pkg.RunsAgain clock step world runs)
  | _, [] => .isFalse id
  | world, run :: rest =>
    have := decidableRunsAgain (pkg.make clock world run) rest
    inferInstanceAs (Decidable (pkg.Reaches run ∧ _ = none ∨ pkg.RunsAgain clock step _ rest))

instance decidableSyncsSafely :
    ∀ world runs, Decidable (pkg.SyncsSafely clock step world runs)
  | _, [] => .isTrue trivial
  | world, run :: rest =>
    have := decidableSyncsSafely (pkg.make clock world run) rest
    inferInstanceAs (Decidable ((pkg.SyncsFirst clock step world run ∨
      pkg.RunsAgain clock step _ rest) ∧ pkg.SyncsSafely clock step _ rest))

end Decidable

section Runs

variable {pkg : Package} {clock : Clock} {sync : Stamp → Prop} {world : World}

theorem initial_consistent : pkg.Consistent clock sync initial :=
  ⟨nofun, nofun, fun _ _ exists_ => absurd rfl exists_⟩

/-- What a goal does: it removes its stamps, and then makes the package. -/
theorem plan_eq (goal : Goal) (consistent : pkg.Consistent clock sync world) :
    ∃ session fuel, 9 < fuel ∧ session.lines = pkg.cleanLines goal ∧
      pkg.plan clock world goal =
        ((pkg.makefile clock).update world fuel session .package).lines ∧
      (pkg.makefile clock).Progress (pkg.Cleaning clock sync) (pkg.Consistent clock sync) world
        ⟨[], []⟩ session := by
  have preserves := preserves_clean pkg clock sync
  have start : pkg.Cleaning clock sync [] world := ⟨consistent, nofun, nofun, nofun, nofun⟩
  have cleaned : ∀ target : Target, target.IsClean → rank target < 10 →
      (pkg.makefile clock).Progress (pkg.Cleaning clock sync) (pkg.Consistent clock sync) world
        ⟨[], []⟩ ((pkg.makefile clock).update world 10 ⟨[], []⟩ target) :=
    fun target isClean low => (Makefile.update_progress preserves (rank_lt pkg clock) isClean low
      start).1
  cases goal with
  | package =>
    exact ⟨⟨[], []⟩, 11, by decide, rfl, rfl, Makefile.Progress.refl preserves start⟩
  | reinstall =>
    exact ⟨_, 10, by decide, rfl, List.append_nil _, cleaned .cleanForReinstall trivial (by decide)⟩
  | rebuild =>
    exact ⟨_, 10, by decide, rfl, List.append_nil _, cleaned .cleanForRebuild trivial (by decide)⟩
  | reconfigure =>
    exact ⟨_, 10, by decide, rfl, List.append_nil _,
      cleaned .cleanForReconfigure trivial (by decide)⟩

/-- Making the package, after stamps were removed. -/
theorem package_progress {session : Session Target Line} {fuel : ℕ} (enough : 9 < fuel)
    (cleaning : pkg.Cleaning clock sync session.updated
      ((pkg.makefile clock).after world session.lines))
    (synced : pkg.overrideSrcdir = true → ∀ stamp, sync stamp →
      ((pkg.makefile clock).after world session.lines).stamps .rsync = none →
      ((pkg.makefile clock).after world session.lines).stamps stamp = none) :
    (pkg.makefile clock).Progress (pkg.Updating clock sync) (pkg.Consistent clock sync) world
        session ((pkg.makefile clock).update world fuel session .package) ∧
      .package ∈ ((pkg.makefile clock).update world fuel session .package).updated := by
  refine Makefile.update_progress (preserves_package pkg clock sync) (rank_lt pkg clock) trivial
    enough ⟨cleaning.consistent, fun stamp member => (cleaning.clean _ member).elim,
      cleaning.closed, ?_⟩
  exact fun override stamp _ isSync exists_ gone => exists_ (synced override stamp isSync gone)

/-- A run keeps the stamps consistent, wherever it is interrupted. -/
theorem Package.Consistent.make (consistent : pkg.Consistent clock sync world) {run : Run}
    (synced : ∀ step, sync step → pkg.SyncsFirst clock step world run) :
    pkg.Consistent clock sync (pkg.make clock world run) := by
  obtain ⟨session, fuel, enough, isClean, plan, cleaned⟩ := plan_eq run.goal consistent
  rw [Package.make, plan]
  by_cases stopped : run.lines ≤ session.lines.length
  · obtain ⟨rest, same⟩ := (pkg.makefile clock).lines_prefix_update world fuel session .package
    obtain ⟨lines, isSession, safeAt⟩ := cleaned.lines
    have isLines : session.lines = lines := isSession
    rw [← same, List.take_append_of_le_length stopped, isLines]
    exact safeAt run.lines
  · have longer : (pkg.cleanLines run.goal).length < run.lines := by
      rw [← isClean]
      omega
    have made := (package_progress enough cleaned.holds fun override stamp isSync => by
      rw [isClean]
      exact synced stamp isSync override longer).1
    obtain ⟨lines, same, safeAt⟩ := made.lines
    rw [same, List.take_append, List.take_of_length_le (by omega)]
    exact safeAt _

/-- The stamps are consistent after any runs. -/
theorem consistent_makes {runs : List Run}
    (consistent : pkg.Consistent clock (fun _ => False) world) :
    pkg.Consistent clock (fun _ => False) (runs.foldl (pkg.make clock) world) := by
  induction runs generalizing world with
  | nil => exact consistent
  | cons run rest inductionHypothesis => exact inductionHypothesis (consistent.make nofun)

/-- A step whose stamp is gone is not later than anything. -/
theorem Package.Consistent.gone (consistent : pkg.Consistent clock (fun _ => False) world)
    {step : Stamp} (gone : world.stamps step = none) :
    pkg.Consistent clock (fun stamp => stamp = step) world := by
  refine ⟨consistent.past, consistent.chain,
    fun stamp isResult exists_ origin isOrigin synced => ?_⟩
  refine consistent.later stamp isResult exists_ origin isOrigin fun isRsync => ?_
  rw [synced isRsync] at exists_
  exact exists_ gone

/-- A run that gets to the package with the stamp of a step gone makes the step again, if it gets so
far. -/
theorem consistent_of_gone (consistent : pkg.Consistent clock (fun _ => False) world) {run : Run}
    (reaches : pkg.Reaches run) {step : Stamp}
    (gone : (pkg.cleaned clock world run).stamps step = none) :
    pkg.Consistent clock (fun stamp => stamp = step) (pkg.make clock world run) := by
  obtain ⟨session, fuel, enough, isClean, plan, cleaned⟩ := plan_eq run.goal consistent
  rw [Package.Reaches, ← isClean] at reaches
  rw [Package.cleaned, ← isClean] at gone
  have start := cleaned.holds
  have made := (package_progress enough
    ⟨start.consistent.gone gone, start.clean, start.closed, start.installs, start.build⟩
    (by
      rintro - stamp rfl -
      exact gone)).1
  obtain ⟨lines, same, safeAt⟩ := made.lines
  rw [Package.make, plan, same, List.take_append, List.take_of_length_le reaches.le]
  exact safeAt _

/-- After runs that sync safely, the step is later than the last rsync. The stamp is known to be so
from the beginning, or from a run on that finds it gone. -/
theorem consistent_of_syncsSafely {step : Stamp} {runs : List Run}
    (consistent : pkg.Consistent clock (fun _ => False) world)
    (safely : pkg.SyncsSafely clock step world runs)
    (known : pkg.Consistent clock (fun stamp => stamp = step) world ∨
      pkg.RunsAgain clock step world runs) :
    pkg.Consistent clock (fun stamp => stamp = step) (runs.foldl (pkg.make clock) world) := by
  induction runs generalizing world with
  | nil => exact known.resolve_right id
  | cons run rest inductionHypothesis =>
    refine inductionHypothesis (consistent.make nofun) safely.2 ?_
    rcases known with synced | ⟨reaches, gone⟩ | again
    · refine safely.1.imp_left fun first => synced.make ?_
      rintro stamp rfl
      exact first
    · exact Or.inl (consistent_of_gone consistent reaches gone)
    · exact Or.inr again

/-- A run for the package that completes leaves its stamps. -/
theorem stamps_of_completes (consistent : pkg.Consistent clock (fun _ => False) world) {lines : ℕ}
    (completes : (pkg.plan clock world .package).length ≤ lines) {stamp : Stamp}
    (isEnabled : pkg.enabled stamp = true) :
    (pkg.make clock world ⟨.package, lines⟩).stamps stamp ≠ none := by
  have start : pkg.Cleaning clock (fun _ => False) [] world :=
    ⟨consistent, nofun, nofun, nofun, nofun⟩
  obtain ⟨made, done⟩ := @package_progress pkg clock (fun _ => False) world ⟨[], []⟩ 11 (by decide)
    start nofun
  rw [Package.make, List.take_of_length_le completes]
  exact made.holds.stamps done isEnabled

/-- After any runs, each interrupted anywhere, a run for the package that completes leaves every
enabled stamp, and the last execution of the build and of each enabled installation is later
than the last extraction and the last configuration. It is later than the last rsync, too, if no
run synced the sources while the stamp of the step was there, or a later one found it gone. -/
theorem package_not_stale (pkg : Package) (clock : Clock) (runs : List Run) (lines : ℕ)
    (completes : (pkg.plan clock (pkg.makes clock runs) .package).length ≤ lines) :
    (∀ stamp, pkg.enabled stamp = true →
      (pkg.makes clock (runs ++ [⟨.package, lines⟩])).stamps stamp ≠ none) ∧
    ∀ step : Stamp, step.IsResult → pkg.enabled step = true →
      pkg.Later .extract step (pkg.makes clock (runs ++ [⟨.package, lines⟩])).log ∧
      pkg.Later .configure step (pkg.makes clock (runs ++ [⟨.package, lines⟩])).log ∧
      (pkg.SyncsSafely clock step initial (runs ++ [⟨.package, lines⟩]) →
        pkg.Later .rsync step (pkg.makes clock (runs ++ [⟨.package, lines⟩])).log) := by
  have weak : pkg.Consistent clock (fun _ => False) (pkg.makes clock runs) :=
    consistent_makes initial_consistent
  have stamps : ∀ stamp, pkg.enabled stamp = true →
      (pkg.makes clock (runs ++ [⟨.package, lines⟩])).stamps stamp ≠ none := by
    intro stamp isEnabled
    rw [Package.makes, List.foldl_append]
    exact stamps_of_completes weak completes isEnabled
  refine ⟨stamps, fun step isResult isEnabled => ?_⟩
  have exists_ := stamps step isEnabled
  have always : pkg.Consistent clock (fun _ => False)
      (pkg.makes clock (runs ++ [⟨.package, lines⟩])) :=
    consistent_makes initial_consistent
  refine ⟨always.later step isResult exists_ .extract (by decide) nofun,
    always.later step isResult exists_ .configure (by decide) nofun, fun synced => ?_⟩
  have synced : pkg.Consistent clock (fun stamp => stamp = step)
      (pkg.makes clock (runs ++ [⟨.package, lines⟩])) :=
    consistent_of_syncsSafely initial_consistent synced (Or.inl initial_consistent)
  exact synced.later step isResult exists_ .rsync (by decide) fun _ => rfl

/-- A step that was not finished after a line of another is not later than it. -/
theorem not_later {origin step : Stamp} {before after : List Line} {line : Line}
    (isOrigin : line.step = some origin) (never : .touch step ∉ after) :
    ¬ pkg.Later origin step (before ++ line :: after) := by
  rintro ⟨earlier, rest, same, clean⟩
  have touched : Line.touch step ∈ pkg.step step ++ rest :=
    List.mem_append_left _ (List.mem_append_right _ List.mem_cons_self)
  rcases List.append_eq_append_iff.mp same with ⟨skipped, -, split⟩ | ⟨skipped, -, split⟩
  · cases skipped with
    | nil => exact clean line (split ▸ List.mem_cons_self) isOrigin
    | cons first skipped =>
      rw [(List.cons.inj split).2] at never
      exact never (List.mem_append_right _ touched)
  · exact clean line (split ▸ List.mem_append_right _ List.mem_cons_self) isOrigin

/-- A target package with its sources elsewhere; each step has one line before it touches its
stamp. -/
def overridden : Package := ⟨.target, false, true, false, true, fun _ => 1⟩

/-- The first run is interrupted in the build, the second one syncs and builds again. -/
theorem package_not_stale_rebuild :
    let runs : List Run := [⟨.package, 5⟩, ⟨.rebuild, 100⟩, ⟨.package, 100⟩]
    (∀ stamp, overridden.enabled stamp = true →
      (overridden.makes ⟨id, monotone_id⟩ runs).stamps stamp ≠ none) ∧
    overridden.Later .rsync .build (overridden.makes ⟨id, monotone_id⟩ runs).log := by
  have fresh := package_not_stale overridden ⟨id, monotone_id⟩ [⟨.package, 5⟩, ⟨.rebuild, 100⟩] 100
    (by decide)
  exact ⟨fresh.1, (fresh.2 .build (by decide) rfl).2.2 (by decide)⟩

/-- A new installation syncs the sources, too, and the package is not built again. -/
theorem stale_after_reinstall :
    ∃ (pkg : Package) (clock : Clock) (runs : List Run) (lines : ℕ),
      (pkg.plan clock (pkg.makes clock runs) .package).length ≤ lines ∧
      pkg.enabled .build = true ∧
      ¬ pkg.Later .rsync .build (pkg.makes clock (runs ++ [⟨.package, lines⟩])).log := by
  refine ⟨overridden, ⟨id, monotone_id⟩, [⟨.package, 100⟩, ⟨.reinstall, 100⟩], 100, by decide, rfl,
    ?_⟩
  have log : (overridden.makes ⟨id, monotone_id⟩
      ([⟨.package, 100⟩, ⟨.reinstall, 100⟩] ++ [⟨.package, 100⟩])).log =
      [.command .rsync 0, .touch .rsync, .command .configure 0, .touch .configure,
        .command .build 0, .touch .build, .command .installTarget 0, .touch .installTarget,
        .remove .rsync, .remove .installStaging, .remove .installTarget, .remove .installImages,
        .remove .installHost, .command .rsync 0] ++ .touch .rsync ::
        [.command .installTarget 0, .touch .installTarget] := by
    decide
  rw [log]
  exact not_later rfl (by decide)

end Runs

end Buildroot4G.Packages
