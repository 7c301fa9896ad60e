/-
This file puts the packages of a configuration together: the rules of `package/pkg-generic.mk`
between packages (`FINAL_DEPENDENCIES`, `FINAL_PATCH_DEPENDENCIES` and `dependencies`), and
`target-finalize`. The targets `dirs`, `prepare` and `core-dependencies` make no package and are
left out.

The dependencies are order-only, so that no stamp says when they were made; what holds is about the
moment at which a line is run. In runs with any goals, each of them interrupted anywhere, a package
is configured, built and installed only while everything that it depends on is installed, it is
patched only while the sources of its patch dependencies are patched, and the target is finalized
only while every package is installed. The replay of the lines before a line says what was there at
its moment.
-/

import Buildroot4G.Packages.Rebuild

namespace Buildroot4G.Packages.Several

open Make

/-! ### The rules -/

/-- The packages of a configuration, with `FINAL_DEPENDENCIES` and `FINAL_PATCH_DEPENDENCIES`;
which of them are `DEPENDENCIES_HOST_PREREQ`, and which are `PACKAGES`. `finalizing` is the number
of lines of `target-finalize`. -/
structure Build (π : Type) where
  pkg : π → Package
  depends : π → List π
  patchDepends : π → List π
  prereqs : List π
  packages : List π
  finalizing : ℕ

/-- The targets of the packages and those between them. `patch` and `rsync` are the phony ones. -/
inductive Target (π : Type) where
  | of (name : π) (target : Packages.Target)
  | patch (name : π)
  | rsync (name : π)
  | dependencies
  | finalize
  deriving DecidableEq

/-- The lines of the packages and of `target-finalize`. -/
inductive Line (π : Type) where
  | of (name : π) (line : Packages.Line)
  | finalize (index : ℕ)
  deriving DecidableEq

variable {π : Type} [DecidableEq π]

/-- A prerequisite of a package on itself. -/
def own (name : π) (dep : Dep Packages.Target) : Dep (Target π) :=
  ⟨.of name dep.target, dep.orderOnly⟩

/-- The prerequisites of a stamp on other packages. -/
def Build.others (build : Build π) (name : π) : Stamp → List (Dep (Target π))
  | .configure => (build.depends name).map fun other => ⟨.of other .package, true⟩
  | .patch =>
    if (build.pkg name).overrideSrcdir then []
    else (build.patchDepends name).map fun other => ⟨.patch other, true⟩
  | .source => if name ∈ build.prereqs then [] else [⟨.dependencies, true⟩]
  | .rsync => if name ∈ build.prereqs then [] else [⟨.dependencies, true⟩]
  | _ => []

def Build.deps (build : Build π) : Target π → List (Dep (Target π))
  | .of name (.stamp .configure) =>
    build.others name .configure ++ ((build.pkg name).stampDeps .configure).map (own name)
  | .of name (.stamp stamp) =>
    ((build.pkg name).stampDeps stamp).map (own name) ++ build.others name stamp
  | .of name target => ((build.pkg name).deps target).map (own name)
  | .patch name =>
    if (build.pkg name).overrideSrcdir then [⟨.rsync name, false⟩]
    else [⟨.of name (.stamp .patch), false⟩]
  | .rsync name => [⟨.of name (.stamp .rsync), false⟩]
  | .dependencies => build.prereqs.map fun other => ⟨.of other .package, false⟩
  | .finalize => build.packages.map fun other => ⟨.of other .package, false⟩

def Build.recipe (build : Build π) : Target π → List (Line π)
  | .of name target => ((build.pkg name).recipe target).map (Line.of name)
  | .finalize => (List.range build.finalizing).map Line.finalize
  | _ => []

/-! ### The world -/

/-- The stamps of every package, with their times, and the lines that were run. -/
structure World (π : Type) where
  stamps : π → Stamp → Option ℕ
  log : List (Line π)

/-- The stamps of a package after a line. -/
def World.put (world : World π) (name : π) (stamp : Stamp) (time : Option ℕ) :
    π → Stamp → Option ℕ :=
  Function.update world.stamps name (Function.update (world.stamps name) stamp time)

def World.exec (clock : Clock) (world : World π) (line : Line π) : World π where
  stamps :=
    match line with
    | .of name (.touch stamp) => world.put name stamp (some (clock.time world.log.length))
    | .of name (.remove stamp) => world.put name stamp none
    | _ => world.stamps
  log := world.log ++ [line]

def Build.makefile (build : Build π) (clock : Clock) :
    Makefile (Target π) (Line π) (World π) where
  deps := build.deps
  recipe := build.recipe
  mtime world target :=
    match target with
    | .of name (.stamp stamp) => world.stamps name stamp
    | _ => none
  exec := World.exec clock

def initial : World π := ⟨fun _ _ => none, []⟩

/-- What was there after lines. -/
def replay (clock : Clock) (log : List (Line π)) : World π := log.foldl (World.exec clock) initial

/-! ### Runs -/

/-- The goals that make is run with: one of a package, or `target-finalize`. -/
inductive Goal (π : Type) where
  | of (name : π) (goal : Packages.Goal)
  | finalize

def Goal.target : Goal π → Target π
  | .of name goal => .of name goal.target
  | .finalize => .finalize

structure Run (π : Type) where
  goal : Goal π
  lines : ℕ

/-- The lines that make runs for a goal when nothing stops it; the fuel is for the chains of
prerequisites. -/
def Build.plan (build : Build π) (clock : Clock) (fuel : ℕ) (world : World π)
    (goal : Goal π) : List (Line π) :=
  ((build.makefile clock).update world fuel ⟨[], []⟩ goal.target).lines

/-- The world after a run of make. -/
def Build.make (build : Build π) (clock : Clock) (fuel : ℕ) (world : World π)
    (run : Run π) : World π :=
  (build.makefile clock).after world ((build.plan clock fuel world run.goal).take run.lines)

/-- The world after runs of make. -/
def Build.makes (build : Build π) (clock : Clock) (fuel : ℕ) (runs : List (Run π)) : World π :=
  runs.foldl (build.make clock fuel) initial

/-! ### What has to be there -/

/-- A package depends on another one, or on one that installs something and does. A package that
installs nothing is never configured, and its dependencies are not made for it. -/
inductive Build.DependsOn (build : Build π) (name : π) : π → Prop
  | direct {other : π} (member : other ∈ build.depends name) : build.DependsOn name other
  | through {middle other : π} (before : build.DependsOn name middle)
      (installs : (build.pkg middle).installs = true) (member : other ∈ build.depends middle) :
      build.DependsOn name other

/-- A package has the stamps that its installation leads to. -/
def Build.Installed (build : Build π) (world : World π) (name : π) : Prop :=
  ∀ stamp, (build.pkg name).enabled stamp = true → world.stamps name stamp ≠ none

/-- The sources of a package are patched, or synced. -/
def Build.Patched (build : Build π) (world : World π) (name : π) : Prop :=
  world.stamps name (if (build.pkg name).overrideSrcdir then .rsync else .patch) ≠ none

/-- What has to be there when a line of a step is run. -/
structure Build.Ready (build : Build π) (world : World π) (name : π) (stamp : Stamp) :
    Prop where
  installed : 3 ≤ stamp.level → ∀ other, build.DependsOn name other →
    build.Installed world other
  patched : stamp = .patch → ∀ other ∈ build.patchDepends name, build.Patched world other
  prereqs : name ∉ build.prereqs → ∀ other ∈ build.prereqs, build.Installed world other

/-- What has to be there when a line is run. -/
def Build.Allowed (build : Build π) (world : World π) : Line π → Prop
  | .of name line => ∀ stamp, line.step = some stamp → build.Ready world name stamp
  | .finalize _ => ∀ name ∈ build.packages, build.Installed world name

/-- A world whose lines were all run when they were allowed. -/
structure Build.Recorded (build : Build π) (clock : Clock) (world : World π) : Prop where
  replayed : world = replay clock world.log
  allowed : ∀ before line after, world.log = before ++ line :: after →
    build.Allowed (replay clock before) line

section Recorded

variable {build : Build π} {clock : Clock} {world : World π}

theorem recorded_initial : build.Recorded clock initial :=
  ⟨rfl, fun before line after isLog => absurd isLog (by simp [initial])⟩

theorem replay_append (log : List (Line π)) (line : Line π) :
    replay clock (log ++ [line]) = (replay clock log).exec clock line := by
  rw [replay, List.foldl_append]
  rfl

/-- One more line. -/
theorem Build.Recorded.exec (recorded : build.Recorded clock world) {line : Line π}
    (allowed : build.Allowed world line) : build.Recorded clock (world.exec clock line) := by
  refine ⟨?_, fun before other after isLog => ?_⟩
  · show world.exec clock line = replay clock (world.log ++ [line])
    rw [replay_append, ← recorded.replayed]
  · rcases List.eq_nil_or_concat' after with rfl | ⟨rest, last, rfl⟩
    · have isLog : world.log ++ [line] = before ++ [other] := isLog
      obtain ⟨rfl, same⟩ := List.append_inj' isLog rfl
      cases same
      rw [← recorded.replayed]
      exact allowed
    · have shorter : world.log ++ [line] = (before ++ other :: rest) ++ [last] := by
        rw [List.append_assoc]
        exact isLog
      exact recorded.allowed before other rest (List.append_inj' shorter rfl).1

/-- Lines that are allowed as long as something holds that they keep. -/
theorem Build.Recorded.after (kept : World π → Prop) {lines : List (Line π)}
    (each : ∀ world, kept world → ∀ line ∈ lines, build.Allowed world line ∧
      kept (world.exec clock line))
    (recorded : build.Recorded clock world) (start : kept world) :
    build.Recorded clock ((build.makefile clock).after world lines) ∧
      kept ((build.makefile clock).after world lines) := by
  induction lines generalizing world with
  | nil => exact ⟨recorded, start⟩
  | cons line rest inductionHypothesis =>
    obtain ⟨allowed, later⟩ := each world start line List.mem_cons_self
    exact inductionHypothesis (fun world start line member =>
      each world start line (List.mem_cons_of_mem _ member)) (recorded.exec allowed) later

end Recorded

/-! ### What was updated -/

/-- The steps that the goals of a package lead to. -/
def Reached (pkg : Package) : Stamp → Prop
  | .source => pkg.overrideSrcdir = false
  | .extract => pkg.overrideSrcdir = false
  | .patch => pkg.overrideSrcdir = false
  | .rsync => pkg.overrideSrcdir = true
  | .configure => True
  | .build => True
  | stamp => pkg.enabled stamp = true

/-- The targets that are no goals and remove no stamps. -/
def Build.Planned (build : Build π) : Target π → Prop
  | .of name (.stamp stamp) => Reached (build.pkg name) stamp
  | .of name target => (build.pkg name).Planned target
  | .rsync name => (build.pkg name).overrideSrcdir = true
  | _ => True

/-- What holds while make updates targets. -/
structure Build.Updating (build : Build π) (clock : Clock) (updated : List (Target π))
    (world : World π) : Prop where
  recorded : build.Recorded clock world
  made : ∀ name stamp, .of name (.stamp stamp) ∈ updated → world.stamps name stamp ≠ none
  closed : ∀ target ∈ updated, ∀ dep ∈ build.deps target, dep.target ∈ updated

section Updating

variable {build : Build π} {clock : Clock} {world : World π} {updated : List (Target π)} {name : π}

theorem reached_of_enabled {pkg : Package} {stamp : Stamp} (isEnabled : pkg.enabled stamp = true) :
    Reached pkg stamp := by
  cases stamp <;> simp_all [Reached, Package.enabled]

/-- The rules between packages are added to those of a package. -/
theorem mem_deps_of {target : Packages.Target} {dep : Dep Packages.Target}
    (member : dep ∈ (build.pkg name).deps target) :
    own name dep ∈ build.deps (.of name target) := by
  have inMap : own name dep ∈ ((build.pkg name).deps target).map (own name) :=
    List.mem_map_of_mem member
  cases target with
  | stamp stamp =>
    cases stamp with
    | configure => exact List.mem_append_right _ inMap
    | _ => exact List.mem_append_left _ inMap
  | _ => exact inMap

theorem mem_deps_others {stamp : Stamp} {dep : Dep (Target π)}
    (member : dep ∈ build.others name stamp) : dep ∈ build.deps (.of name (.stamp stamp)) := by
  cases stamp with
  | configure => exact List.mem_append_left _ member
  | _ => exact List.mem_append_right _ member

theorem deps_cases {target : Packages.Target} {dep : Dep (Target π)}
    (member : dep ∈ build.deps (.of name target)) :
    (∃ inner ∈ (build.pkg name).deps target, dep = own name inner) ∨
      ∃ stamp, target = .stamp stamp ∧ dep ∈ build.others name stamp := by
  have ofMap : dep ∈ ((build.pkg name).deps target).map (own name) →
      ∃ inner ∈ (build.pkg name).deps target, dep = own name inner := fun inMap => by
    obtain ⟨inner, isInner, rfl⟩ := List.mem_map.mp inMap
    exact ⟨inner, isInner, rfl⟩
  cases target with
  | stamp stamp =>
    have either : dep ∈ ((build.pkg name).stampDeps stamp).map (own name) ∨
        dep ∈ build.others name stamp := by
      cases stamp with
      | configure => exact (List.mem_append.mp member).symm
      | _ => exact List.mem_append.mp member
    exact either.imp ofMap fun isOther => ⟨stamp, rfl, isOther⟩
  | _ => exact Or.inl (ofMap member)

theorem planned_others {stamp : Stamp} {dep : Dep (Target π)}
    (member : dep ∈ build.others name stamp) : build.Planned dep.target := by
  cases stamp with
  | configure =>
    obtain ⟨other, -, rfl⟩ := List.mem_map.mp member
    trivial
  | patch =>
    rw [Build.others] at member
    split at member
    · cases member
    · obtain ⟨other, -, rfl⟩ := List.mem_map.mp member
      trivial
  | source | rsync =>
    rw [Build.others] at member
    split at member
    · cases member
    · rw [List.mem_singleton.mp member]
      trivial
  | _ => cases member

/-- A prerequisite of a step is a step that is reached. -/
theorem reached_dep {pkg : Package} {stamp : Stamp} (reached : Reached pkg stamp)
    {dep : Dep Packages.Target} (member : dep ∈ pkg.stampDeps stamp) :
    ∃ before, dep.target = .stamp before ∧ Reached pkg before := by
  cases stamp <;> simp only [Package.stampDeps] at member <;>
    grind [Reached, Package.enabled, ordinary, orderOnly]

omit [DecidableEq π] in
theorem planned_of {target : Packages.Target} (planned : (build.pkg name).Planned target) :
    build.Planned (.of name target) := by
  cases target <;> first | exact planned | exact reached_of_enabled planned

theorem planned_dep : ∀ target, build.Planned target → ∀ dep ∈ build.deps target,
    build.Planned dep.target := by
  intro target planned dep member
  cases target with
  | of name target =>
    rcases deps_cases member with ⟨inner, isInner, rfl⟩ | ⟨stamp, rfl, isOther⟩
    · show build.Planned (.of name inner.target)
      by_cases isStamp : ∃ stamp, target = .stamp stamp
      · obtain ⟨stamp, rfl⟩ := isStamp
        obtain ⟨before, same, reached⟩ := reached_dep planned isInner
        rw [same]
        exact reached
      · have ofPackage : (build.pkg name).Planned target := by
          cases target <;> first | exact planned | exact absurd ⟨_, rfl⟩ isStamp
        exact planned_of (Packages.planned_dep (build.pkg name) target ofPackage inner isInner)
    · exact planned_others isOther
  | patch name =>
    rw [Build.deps] at member
    split at member
    · rename_i override
      rw [List.mem_singleton.mp member]
      exact override
    · rename_i noOverride
      rw [List.mem_singleton.mp member]
      exact Bool.eq_false_iff.mpr noOverride
  | rsync name =>
    rw [List.mem_singleton.mp member]
    exact planned
  | dependencies | finalize =>
    obtain ⟨other, -, rfl⟩ := List.mem_map.mp member
    trivial

/-- When a package was updated, so were its enabled steps. -/
theorem Build.Updating.stamp (updating : build.Updating clock updated world)
    (done : .of name .package ∈ updated) {stamp : Stamp}
    (isEnabled : (build.pkg name).enabled stamp = true) : .of name (.stamp stamp) ∈ updated := by
  have closed : ∀ target, .of name target ∈ updated → ∀ dep ∈ (build.pkg name).deps target,
      .of name dep.target ∈ updated := fun target member dep isDep =>
    updating.closed _ member (own name dep) (mem_deps_of isDep)
  exact @stamp_of_closed (build.pkg name) (fun target => .of name target ∈ updated) closed done
    stamp isEnabled

theorem Build.Updating.installed (updating : build.Updating clock updated world)
    (done : .of name .package ∈ updated) : build.Installed world name :=
  fun stamp isEnabled => updating.made name stamp (updating.stamp done isEnabled)

theorem Build.Updating.configured (updating : build.Updating clock updated world)
    (done : .of name .package ∈ updated) (installs : (build.pkg name).installs = true) :
    .of name (.stamp .configure) ∈ updated :=
  @Build.Updating.stamp _ _ _ _ _ _ name updating done .configure installs

theorem Build.Updating.patched (updating : build.Updating clock updated world)
    (done : .patch name ∈ updated) : build.Patched world name := by
  have dep := updating.closed _ done
  rw [Build.deps] at dep
  rw [Build.Patched]
  split at dep
  · have synced := dep ⟨.rsync name, false⟩ List.mem_cons_self
    rename_i override
    rw [if_pos override]
    exact updating.made name .rsync
      (updating.closed _ synced ⟨.of name (.stamp .rsync), false⟩ List.mem_cons_self)
  · rename_i noOverride
    rw [if_neg noOverride]
    exact updating.made name .patch (dep ⟨.of name (.stamp .patch), false⟩ List.mem_cons_self)

/-- The step before one in the chain of a package. -/
def stepBefore (pkg : Package) : Stamp → Option Stamp
  | .source => none
  | .rsync => none
  | .extract => some .source
  | .patch => some .extract
  | .configure => some (if pkg.overrideSrcdir then .rsync else .patch)
  | .build => some .configure
  | _ => some .build

theorem stepBefore_dep {pkg : Package} {stamp before : Stamp} (reached : Reached pkg stamp)
    (isBefore : stepBefore pkg stamp = some before) :
    ∃ dep ∈ pkg.stampDeps stamp, dep.target = .stamp before := by
  have ofOrdinary : ∀ last, ordinary last ∈ pkg.stampDeps stamp → last = before →
      ∃ dep ∈ pkg.stampDeps stamp, dep.target = .stamp before := by
    rintro last member rfl
    exact ⟨ordinary last, member, rfl⟩
  cases stamp with
  | source | rsync => cases isBefore
  | extract | patch =>
    change pkg.overrideSrcdir = false at reached
    exact ofOrdinary _ (by simp [Package.stampDeps, reached]) (Option.some.inj isBefore)
  | configure =>
    obtain rfl := Option.some.inj isBefore
    cases override : pkg.overrideSrcdir with
    | true => exact ⟨orderOnly .rsync, by simp [Package.stampDeps, override], rfl⟩
    | false => exact ⟨ordinary .patch, by simp [Package.stampDeps, override], rfl⟩
  | build | installHost => exact ofOrdinary _ List.mem_cons_self (Option.some.inj isBefore)
  | installStaging | installTarget | installImages =>
    simp only [Reached, Package.enabled, Bool.and_eq_true] at reached
    exact ofOrdinary .build (by simp [Package.stampDeps, reached.2]) (Option.some.inj isBefore)

/-- The prerequisites of a step are there. -/
def Build.ReadyFor (build : Build π) (updated : List (Target π)) (name : π) (stamp : Stamp) :
    Prop :=
  ∀ dep ∈ build.deps (.of name (.stamp stamp)), dep.target ∈ updated

theorem Build.Updating.ready_before (updating : build.Updating clock updated world)
    {stamp before : Stamp} (reached : Reached (build.pkg name) stamp)
    (ready : build.ReadyFor updated name stamp)
    (isBefore : stepBefore (build.pkg name) stamp = some before) :
    Reached (build.pkg name) before ∧ build.ReadyFor updated name before := by
  obtain ⟨dep, member, same⟩ := stepBefore_dep reached isBefore
  obtain ⟨before', same', reached'⟩ := reached_dep reached member
  obtain rfl := Target.stamp.inj (same.symm.trans same')
  have done := ready (own name dep) (mem_deps_of member)
  rw [own, same] at done
  exact ⟨reached', updating.closed _ done⟩

theorem level_stepBefore {pkg : Package} {stamp before : Stamp}
    (isBefore : stepBefore pkg stamp = some before) : before.level < stamp.level := by
  cases stamp with
  | source | rsync => cases isBefore
  | configure =>
    obtain rfl := Option.some.inj isBefore
    cases pkg.overrideSrcdir <;> decide
  | _ =>
    obtain rfl := Option.some.inj isBefore
    decide

/-- The chain of a package leads back to its sources. -/
theorem Build.Updating.ready_origin (updating : build.Updating clock updated world) {stamp : Stamp}
    (reached : Reached (build.pkg name) stamp) (ready : build.ReadyFor updated name stamp) :
    ∃ origin, (origin = .source ∨ origin = .rsync) ∧ build.ReadyFor updated name origin := by
  induction level : stamp.level using Nat.strong_induction_on generalizing stamp with
  | _ level inductionHypothesis =>
    cases isBefore : stepBefore (build.pkg name) stamp with
    | none =>
      refine ⟨stamp, ?_, ready⟩
      cases stamp with
      | source => exact Or.inl rfl
      | rsync => exact Or.inr rfl
      | _ => cases isBefore
    | some before =>
      obtain ⟨reached, ready⟩ := updating.ready_before reached ready isBefore
      exact inductionHypothesis before.level (level ▸ level_stepBefore isBefore) reached ready rfl

/-- From the configuration on, it leads back to the configuration. -/
theorem Build.Updating.ready_configure (updating : build.Updating clock updated world)
    {stamp : Stamp} (reached : Reached (build.pkg name) stamp)
    (ready : build.ReadyFor updated name stamp) (late : 3 ≤ stamp.level) :
    build.ReadyFor updated name .configure := by
  have ofBuild : build.ReadyFor updated name .build → build.ReadyFor updated name .configure :=
    fun ready => (@Build.Updating.ready_before _ _ _ _ _ _ _ updating .build .configure
      trivial ready rfl).2
  cases stamp with
  | source | rsync | extract | patch => simp [Stamp.level] at late
  | configure => exact ready
  | build => exact ofBuild ready
  | _ => exact ofBuild (updating.ready_before reached ready rfl).2

/-- What a package depends on was updated when its configuration is reached. -/
theorem Build.Updating.dependsOn (updating : build.Updating clock updated world)
    (ready : build.ReadyFor updated name .configure) {other : π}
    (dependsOn : build.DependsOn name other) : .of other .package ∈ updated := by
  have ofDepends : ∀ {name other}, other ∈ build.depends name →
      (⟨.of other .package, true⟩ : Dep (Target π)) ∈ build.deps (.of name (.stamp .configure)) :=
    fun member => mem_deps_others (List.mem_map_of_mem member)
  induction dependsOn with
  | direct member => exact ready _ (ofDepends member)
  | through before installs member inductionHypothesis =>
    exact updating.closed _ (updating.configured inductionHypothesis installs) _ (ofDepends member)

/-- A step whose prerequisites were updated is ready. -/
theorem Build.Updating.ready (updating : build.Updating clock updated world) {stamp : Stamp}
    (reached : Reached (build.pkg name) stamp) (ready : build.ReadyFor updated name stamp) :
    build.Ready world name stamp where
  installed late other dependsOn :=
    updating.installed (updating.dependsOn (updating.ready_configure reached ready late) dependsOn)
  patched isPatch other member := by
    subst isPatch
    have noOverride : (build.pkg name).overrideSrcdir = false := reached
    refine updating.patched (ready ⟨.patch other, true⟩ (mem_deps_others ?_))
    rw [Build.others, if_neg (Bool.eq_false_iff.mp noOverride)]
    exact List.mem_map_of_mem member
  prereqs isNot other member := by
    obtain ⟨origin, isOrigin, ready⟩ := updating.ready_origin reached ready
    have dependencies : Target.dependencies ∈ updated := by
      refine ready ⟨.dependencies, true⟩ (mem_deps_others ?_)
      rcases isOrigin with rfl | rfl
      · rw [Build.others, if_neg isNot]
        exact List.mem_cons_self
      · rw [Build.others, if_neg isNot]
        exact List.mem_cons_self
    exact updating.installed (updating.closed _ dependencies ⟨.of other .package, false⟩
      (List.mem_map_of_mem member))

end Updating

/-! ### Running lines -/

/-- A line that removes no stamp. -/
def Line.Adds : Line π → Prop
  | .of _ line => line.step ≠ none
  | .finalize _ => True

section Lines

variable {build : Build π} {clock : Clock} {world : World π} {name : π}

theorem stamps_touch (name : π) (stamp : Stamp) :
    (world.exec clock (.of name (.touch stamp))).stamps name stamp ≠ none := by
  simp [World.exec, World.put]

theorem stamps_exec {line : Line π} (adds : line.Adds) {name : π} {stamp : Stamp}
    (found : world.stamps name stamp ≠ none) :
    (world.exec clock line).stamps name stamp ≠ none := by
  cases line with
  | finalize => exact found
  | of other line =>
    cases line with
    | command => exact found
    | remove => exact absurd rfl adds
    | touch last =>
      change world.put other last _ name stamp ≠ none
      rw [World.put]
      by_cases sameName : name = other
      · subst sameName
        rw [Function.update_self]
        by_cases sameStamp : stamp = last
        · rw [sameStamp, Function.update_self]
          exact Option.some_ne_none _
        · rwa [Function.update_of_ne sameStamp]
      · rwa [Function.update_of_ne sameName]

theorem stamps_after {lines : List (Line π)} (adds : ∀ line ∈ lines, line.Adds) {name : π}
    {stamp : Stamp} (found : world.stamps name stamp ≠ none) :
    ((build.makefile clock).after world lines).stamps name stamp ≠ none := by
  induction lines generalizing world with
  | nil => exact found
  | cons line rest inductionHypothesis =>
    obtain ⟨first, adds⟩ := List.forall_mem_cons.mp adds
    exact inductionHypothesis adds (stamps_exec first found)

theorem Build.Installed.exec (installed : build.Installed world name) {line : Line π}
    (adds : line.Adds) : build.Installed (world.exec clock line) name :=
  fun stamp isEnabled => stamps_exec adds (installed stamp isEnabled)

theorem Build.Ready.exec {stamp : Stamp} (ready : build.Ready world name stamp) {line : Line π}
    (adds : line.Adds) : build.Ready (world.exec clock line) name stamp :=
  ⟨fun late other dependsOn => (ready.installed late other dependsOn).exec adds,
    fun isPatch other member => stamps_exec adds (ready.patched isPatch other member),
    fun isNot other member => (ready.prereqs isNot other member).exec adds⟩

omit [DecidableEq π] in
/-- The lines of a step. -/
theorem step_of_mem_map {stamp : Stamp} {line : Line π}
    (member : line ∈ ((build.pkg name).step stamp).map (Line.of name)) :
    ∃ inner : Packages.Line, line = .of name inner ∧ inner.step = some stamp := by
  obtain ⟨inner, isInner, rfl⟩ := List.mem_map.mp member
  exact ⟨inner, rfl, step_of_mem isInner⟩

omit [DecidableEq π] in
theorem adds_of_step {inner : Packages.Line} {stamp : Stamp} (isStep : inner.step = some stamp) :
    (Line.of name inner).Adds := fun isNone => Option.some_ne_none _ (isStep.symm.trans isNone)

/-- A step that is ready is recorded, wherever it is stopped. -/
theorem Build.Recorded.step (recorded : build.Recorded clock world) {stamp : Stamp}
    (ready : build.Ready world name stamp) (n : ℕ) :
    build.Recorded clock ((build.makefile clock).after world
      ((((build.pkg name).step stamp).map (Line.of name)).take n)) := by
  refine (Build.Recorded.after (fun world => build.Ready world name stamp)
    (fun world ready line member => ?_) recorded ready).1
  obtain ⟨inner, rfl, isStep⟩ := step_of_mem_map (List.mem_of_mem_take member)
  refine ⟨fun other isOther => ?_, ready.exec (adds_of_step isStep)⟩
  obtain rfl := Option.some.inj (isStep.symm.trans isOther)
  exact ready

theorem Build.Recorded.finalize (recorded : build.Recorded clock world)
    (installed : ∀ name ∈ build.packages, build.Installed world name) (n : ℕ) :
    build.Recorded clock ((build.makefile clock).after world
      (((List.range build.finalizing).map Line.finalize).take n)) := by
  refine (Build.Recorded.after
    (fun world => ∀ name ∈ build.packages, build.Installed world name)
    (fun world installed line member => ?_) recorded installed).1
  obtain ⟨index, -, rfl⟩ := List.mem_map.mp (List.mem_of_mem_take member)
  exact ⟨installed, fun name member => (installed name member).exec trivial⟩

end Lines

/-! ### Updating -/

section Preserves

variable {build : Build π} {clock : Clock} {world : World π} {updated : List (Target π)}

theorem closed_updated {target : Target π}
    (closed : ∀ other ∈ updated, ∀ dep ∈ build.deps other, dep.target ∈ updated)
    (ready : ∀ dep ∈ build.deps target, dep.target ∈ updated) :
    ∀ other ∈ target :: updated, ∀ dep ∈ build.deps other, dep.target ∈ target :: updated :=
  @Makefile.closed_cons _ _ _ (build.makefile ⟨id, monotone_id⟩) _ _ closed ready

/-- A target without lines. -/
theorem Build.Updating.cons (updating : build.Updating clock updated world) {target : Target π}
    (ready : ∀ dep ∈ build.deps target, dep.target ∈ updated)
    (noStamp : ∀ name stamp, target ≠ .of name (.stamp stamp)) :
    build.Updating clock (target :: updated) world where
  recorded := updating.recorded
  made name stamp member :=
    updating.made name stamp ((List.mem_cons.mp member).resolve_left (noStamp name stamp).symm)
  closed := closed_updated updating.closed ready

/-- A step that was run. -/
theorem Build.Updating.step (updating : build.Updating clock updated world) {name : π}
    {stamp : Stamp} (reached : Reached (build.pkg name) stamp)
    (ready : build.ReadyFor updated name stamp) :
    build.Updating clock (.of name (.stamp stamp) :: updated)
      ((build.makefile clock).after world
        (((build.pkg name).step stamp).map (Line.of name))) where
  recorded := by
    have stopped := updating.recorded.step (updating.ready reached ready)
      (((build.pkg name).step stamp).map (Line.of name)).length
    rwa [List.take_length] at stopped
  made other last member := by
    have adds : ∀ line ∈ ((build.pkg name).step stamp).map (Line.of name), line.Adds :=
      fun line member => by
        obtain ⟨inner, rfl, isStep⟩ := step_of_mem_map member
        exact adds_of_step isStep
    rcases List.mem_cons.mp member with same | member
    · obtain ⟨rfl, isStamp⟩ := Target.of.inj same
      obtain rfl := Target.stamp.inj isStamp
      rw [Package.step, List.map_append, Makefile.after_append]
      exact stamps_touch _ _
    · exact stamps_after adds (updating.made other last member)
  closed := closed_updated updating.closed ready

/-- Making packages keeps to the order. -/
theorem preserves_build (build : Build π) (clock : Clock) :
    (build.makefile clock).Preserves build.Planned (build.Updating clock)
      (build.Recorded clock) where
  closed := planned_dep
  always _ _ updating := updating.recorded
  keep updated world target planned updating ready needs := by
    refine ⟨updating.recorded, fun name stamp member => ?_,
      closed_updated updating.closed ready⟩
    rcases List.mem_cons.mp member with rfl | member
    · intro missing
      have mtime : (build.makefile clock).mtime world (.of name (.stamp stamp)) = none := missing
      rw [Makefile.needsRemake, mtime] at needs
      cases needs
    · exact updating.made name stamp member
  remake updated world target planned updating ready needs := by
    have noLines : build.recipe target = [] → (∀ name stamp, target ≠ .of name (.stamp stamp)) →
        build.Updating clock (target :: updated)
          ((build.makefile clock).after world (build.recipe target)) ∧
        ∀ n, build.Recorded clock
          ((build.makefile clock).after world ((build.recipe target).take n)) := by
      intro isNil noStamp
      rw [isNil]
      refine ⟨updating.cons ready noStamp, fun n => ?_⟩
      rw [List.take_nil]
      exact updating.recorded
    cases target with
    | of name target =>
      cases target with
      | stamp stamp =>
        exact ⟨updating.step planned ready,
          updating.recorded.step (updating.ready planned ready)⟩
      | package | install | installStaging | installTarget | installImages | installHost =>
        exact noLines rfl fun _ _ same => by cases same
      | _ => exact planned.elim
    | finalize =>
      have installed : ∀ name ∈ build.packages, build.Installed world name := fun name member =>
        updating.installed (ready ⟨.of name .package, false⟩ (List.mem_map_of_mem member))
      have stopped := updating.recorded.finalize installed
      refine ⟨⟨?_, fun name stamp member => ?_,
        closed_updated updating.closed ready⟩, stopped⟩
      · have whole := stopped (build.recipe .finalize).length
        rwa [← Build.recipe, List.take_length] at whole
      · refine stamps_after (fun line member => ?_)
          (updating.made name stamp
            ((List.mem_cons.mp member).resolve_left fun same => by cases same))
        obtain ⟨index, -, rfl⟩ := List.mem_map.mp member
        trivial
    | patch | rsync | dependencies => exact noLines rfl fun _ _ same => by cases same

end Preserves

/-! ### Removing stamps -/

/-- What holds while make updates the targets that remove stamps of a package. -/
structure Build.Cleaning (build : Build π) (clock : Clock) (name : π) (updated : List (Target π))
    (world : World π) : Prop where
  recorded : build.Recorded clock world
  clean : ∀ target ∈ updated, ∃ inner : Packages.Target, target = .of name inner ∧ inner.IsClean
  closed : ∀ target ∈ updated, ∀ dep ∈ build.deps target, dep.target ∈ updated

section Cleaning

variable {build : Build π} {clock : Clock} {world : World π} {name : π}

/-- A target that removes stamps runs no line of a step. -/
theorem step_of_isClean {pkg : Package} {target : Packages.Target} (isClean : target.IsClean)
    {line : Packages.Line} (member : line ∈ pkg.recipe target) : line.step = none := by
  cases target with
  | cleanForReinstall =>
    rw [recipe_cleanForReinstall] at member
    obtain ⟨stamp, -, rfl⟩ := List.mem_map.mp member
    rfl
  | cleanForRebuild | cleanForReconfigure =>
    rw [List.mem_singleton.mp member]
    rfl
  | _ => exact isClean.elim

theorem Build.Recorded.removes (recorded : build.Recorded clock world) {target : Packages.Target}
    (isClean : target.IsClean) (n : ℕ) :
    build.Recorded clock ((build.makefile clock).after world
      ((((build.pkg name).recipe target).map (Line.of name)).take n)) := by
  refine (Build.Recorded.after (fun _ => True) (fun world _ line member => ?_) recorded trivial).1
  obtain ⟨inner, isInner, rfl⟩ := List.mem_map.mp (List.mem_of_mem_take member)
  refine ⟨fun stamp isStep => ?_, trivial⟩
  rw [step_of_isClean isClean isInner] at isStep
  cases isStep

theorem preserves_removes (build : Build π) (clock : Clock) (name : π) :
    (build.makefile clock).Preserves
      (fun target => ∃ inner : Packages.Target, target = .of name inner ∧ inner.IsClean)
      (build.Cleaning clock name) (build.Recorded clock) where
  closed := by
    rintro target ⟨inner, rfl, isClean⟩ dep member
    rcases deps_cases member with ⟨before, isBefore, rfl⟩ | ⟨stamp, rfl, -⟩
    · have closed := (preserves_clean (build.pkg name) clock fun _ => False).closed
      exact ⟨before.target, rfl, closed inner isClean before isBefore⟩
    · exact isClean.elim
  always _ _ cleaning := cleaning.recorded
  keep updated world target isClean cleaning ready needs := by
    obtain ⟨inner, rfl, isClean⟩ := isClean
    cases inner with
    | cleanForReinstall | cleanForRebuild | cleanForReconfigure => cases needs
    | _ => exact isClean.elim
  remake updated world target isClean cleaning ready needs := by
    obtain ⟨inner, rfl, isClean⟩ := isClean
    have stopped := @Build.Recorded.removes _ _ _ _ _ name cleaning.recorded inner isClean
    refine ⟨⟨?_, ?_, closed_updated cleaning.closed ready⟩, stopped⟩
    · have whole := stopped (build.recipe (.of name inner)).length
      rwa [← Build.recipe, List.take_length] at whole
    · exact List.forall_mem_cons.mpr ⟨⟨inner, rfl, isClean⟩, cleaning.clean⟩

end Cleaning

/-! ### Whole runs -/

section Runs

variable {build : Build π} {clock : Clock} {world : World π} {rank : Target π → ℕ} {fuel : ℕ}

/-- A goal that removes stamps of a package before it makes it. -/
theorem update_clean {name : π} {goal clean : Packages.Target}
    (isGoal : build.deps (.of name goal) = [⟨.of name clean, false⟩, ⟨.of name .package, false⟩])
    (noLines : build.recipe (.of name goal) = []) :
    ((build.makefile clock).update world (fuel + 1) ⟨[], []⟩ (.of name goal)).lines =
      ((build.makefile clock).update world fuel
        ((build.makefile clock).update world fuel ⟨[], []⟩ (.of name clean))
        (.of name .package)).lines := by
  have deps : (build.makefile clock).deps (.of name goal) =
      [⟨.of name clean, false⟩, ⟨.of name .package, false⟩] := isGoal
  have recipe : (build.makefile clock).recipe (.of name goal) = [] := noLines
  rw [Makefile.update, if_neg List.not_mem_nil, deps, recipe]
  simp only [List.append_nil, ite_self, List.foldl_cons, List.foldl_nil]

/-- The session before anything was updated. -/
theorem Build.Recorded.updating (recorded : build.Recorded clock world) :
    build.Updating clock [] world :=
  ⟨recorded, fun _ _ member => absurd member List.not_mem_nil,
    fun _ member => absurd member List.not_mem_nil⟩

/-- Making a target from any session, wherever it is stopped. -/
theorem Build.Updating.stopped
    (acyclic : ∀ target, ∀ dep ∈ build.deps target, rank dep.target < rank target)
    {session : Session (Target π) (Line π)} {target : Target π} (planned : build.Planned target)
    (enough : rank target < fuel)
    (updating : build.Updating clock session.updated
      ((build.makefile clock).after world session.lines))
    (before : ∀ n, build.Recorded clock
      ((build.makefile clock).after world (session.lines.take n))) (n : ℕ) :
    build.Recorded clock ((build.makefile clock).after world
      (((build.makefile clock).update world fuel session target).lines.take n)) :=
  (Makefile.update_progress (preserves_build build clock) acyclic planned enough
    updating).1.safe_take before n

/-- A goal that begins with removing stamps. -/
theorem Build.Recorded.clean
    (acyclic : ∀ target, ∀ dep ∈ build.deps target, rank dep.target < rank target)
    (recorded : build.Recorded clock world) {name : π} {goal clean : Packages.Target}
    (enough : rank (.of name goal) < fuel) (isClean : clean.IsClean)
    (isGoal : build.deps (.of name goal) = [⟨.of name clean, false⟩, ⟨.of name .package, false⟩])
    (noLines : build.recipe (.of name goal) = []) (n : ℕ) :
    build.Recorded clock ((build.makefile clock).after world
      (((build.makefile clock).update world fuel ⟨[], []⟩ (.of name goal)).lines.take n)) := by
  obtain ⟨less, rfl⟩ := Nat.exists_eq_add_one.mpr (Nat.zero_lt_of_lt enough)
  have below : ∀ dep ∈ build.deps (.of name goal), rank dep.target < less := fun dep member =>
    Nat.lt_of_lt_of_le (acyclic _ dep member) (Nat.le_of_lt_succ enough)
  rw [isGoal] at below
  obtain ⟨cleanBelow, packageBelow⟩ := List.forall_mem_cons.mp below
  have packageBelow := packageBelow _ List.mem_cons_self
  have start : build.Cleaning clock name [] world := ⟨recorded,
    fun _ member => absurd member List.not_mem_nil,
    fun _ member => absurd member List.not_mem_nil⟩
  have cleaned : (build.makefile clock).Progress (build.Cleaning clock name) (build.Recorded clock)
      world ⟨[], []⟩ ((build.makefile clock).update world less ⟨[], []⟩ (.of name clean)) :=
    And.left (Makefile.update_progress (preserves_removes build clock name) acyclic
      ⟨clean, rfl, isClean⟩ cleanBelow start)
  have start := cleaned.holds
  rw [update_clean isGoal noLines]
  have planned : build.Planned (.of name .package) := trivial
  refine Build.Updating.stopped acyclic planned packageBelow
    ⟨start.recorded, fun other stamp member => ?_, start.closed⟩
    (cleaned.safe_take fun n => ?_) n
  · obtain ⟨inner, same, isClean⟩ := start.clean _ member
    obtain ⟨-, rfl⟩ := Target.of.inj same
    exact isClean.elim
  · rw [List.take_nil]
    exact recorded

/-- A run keeps to the order, wherever it is interrupted. -/
theorem Build.Recorded.make
    (acyclic : ∀ target, ∀ dep ∈ build.deps target, rank dep.target < rank target)
    (recorded : build.Recorded clock world) {run : Run π} (enough : rank run.goal.target < fuel) :
    build.Recorded clock (build.make clock fuel world run) := by
  obtain ⟨goal, lines⟩ := run
  have direct : ∀ target, build.Planned target → rank target < fuel →
      build.Recorded clock ((build.makefile clock).after world
        (((build.makefile clock).update world fuel ⟨[], []⟩ target).lines.take lines)) := by
    intro target planned below
    refine Build.Updating.stopped acyclic planned below recorded.updating (fun n => ?_) lines
    rw [List.take_nil]
    exact recorded
  cases goal with
  | finalize => exact direct .finalize trivial enough
  | of name goal =>
    cases goal with
    | package => exact direct (.of name .package) trivial enough
    | reinstall =>
      exact @Build.Recorded.clean _ _ _ _ _ _ _ acyclic recorded name .reinstall
        .cleanForReinstall enough trivial rfl rfl lines
    | rebuild =>
      exact @Build.Recorded.clean _ _ _ _ _ _ _ acyclic recorded name .rebuild
        .cleanForRebuild enough trivial rfl rfl lines
    | reconfigure =>
      exact @Build.Recorded.clean _ _ _ _ _ _ _ acyclic recorded name .reconfigure
        .cleanForReconfigure enough trivial rfl rfl lines

theorem recorded_makes
    (acyclic : ∀ target, ∀ dep ∈ build.deps target, rank dep.target < rank target)
    {runs : List (Run π)} (enough : ∀ run ∈ runs, rank run.goal.target < fuel) :
    build.Recorded clock (build.makes clock fuel runs) := by
  have fromWorld : ∀ world, build.Recorded clock world →
      build.Recorded clock (runs.foldl (build.make clock fuel) world) := by
    induction runs with
    | nil => exact fun _ recorded => recorded
    | cons run rest inductionHypothesis =>
      obtain ⟨first, enough⟩ := List.forall_mem_cons.mp enough
      exact fun _ recorded => inductionHypothesis enough _ (recorded.make acyclic first)
  exact fromWorld initial recorded_initial

/-- In runs with any goals, each of them interrupted anywhere, every line is run only when what it
needs is there: a package is configured, built and installed only while all that it depends on is
installed, it is patched only while its patch dependencies are patched, nothing is begun before the
host prerequisites are installed, and the target is finalized only while every package is
installed. -/
theorem makes_in_order (build : Build π) (clock : Clock) {rank : Target π → ℕ}
    (acyclic : ∀ target, ∀ dep ∈ build.deps target, rank dep.target < rank target) {fuel : ℕ}
    (runs : List (Run π)) (enough : ∀ run ∈ runs, rank run.goal.target < fuel)
    {before after : List (Line π)} {line : Line π}
    (isLog : (build.makes clock fuel runs).log = before ++ line :: after) :
    build.Allowed (replay clock before) line :=
  (recorded_makes acyclic enough).allowed before line after isLog

/-- After any runs, one of `target-finalize` that completes leaves every package installed, and all
that the packages depend on. -/
theorem finalize_installs (build : Build π) (clock : Clock) {rank : Target π → ℕ}
    (acyclic : ∀ target, ∀ dep ∈ build.deps target, rank dep.target < rank target) {fuel : ℕ}
    (runs : List (Run π)) (enough : ∀ run ∈ runs, rank run.goal.target < fuel)
    (enoughLast : rank .finalize < fuel) (lines : ℕ)
    (completes : (build.plan clock fuel (build.makes clock fuel runs) .finalize).length ≤ lines) :
    ∀ name ∈ build.packages,
      build.Installed (build.makes clock fuel (runs ++ [⟨.finalize, lines⟩])) name ∧
      ((build.pkg name).installs = true → ∀ other, build.DependsOn name other →
        build.Installed (build.makes clock fuel (runs ++ [⟨.finalize, lines⟩])) other) := by
  intro name member
  have recorded : build.Recorded clock (build.makes clock fuel runs) :=
    recorded_makes acyclic enough
  have finalized : (build.makefile clock).Progress (build.Updating clock) (build.Recorded clock)
        (build.makes clock fuel runs) ⟨[], []⟩
        ((build.makefile clock).update (build.makes clock fuel runs) fuel ⟨[], []⟩ .finalize) ∧
      .finalize ∈ ((build.makefile clock).update (build.makes clock fuel runs) fuel ⟨[], []⟩
        .finalize).updated :=
    Makefile.update_progress (preserves_build build clock) acyclic trivial enoughLast
      recorded.updating
  obtain ⟨progress, done⟩ := finalized
  have updating := progress.holds
  have whole : build.makes clock fuel (runs ++ [⟨.finalize, lines⟩]) =
      (build.makefile clock).after (build.makes clock fuel runs)
        (build.plan clock fuel (build.makes clock fuel runs) .finalize) := by
    rw [Build.makes, List.foldl_append]
    change build.make clock fuel (build.makes clock fuel runs) _ = _
    rw [Build.make, List.take_of_length_le completes]
  have made := updating.closed _ done ⟨.of name .package, false⟩ (List.mem_map_of_mem member)
  rw [whole]
  refine ⟨updating.installed made, fun installs other dependsOn => ?_⟩
  have configured := updating.configured made installs
  exact updating.installed (updating.dependsOn (updating.closed _ configured) dependsOn)

end Runs

/-! ### A small configuration -/

/-- A host tool that everything needs, a library, and an application. -/
inductive Name where
  | tar
  | lib
  | app
  deriving DecidableEq

/-- The application depends on the library, and is patched after it. -/
def small : Build Name where
  pkg
    | .tar => ⟨.host, false, false, false, false, fun _ => 1⟩
    | .lib => ⟨.target, true, true, false, false, fun _ => 1⟩
    | .app => ⟨.target, false, true, false, false, fun _ => 1⟩
  depends
    | .app => [.lib]
    | _ => []
  patchDepends
    | .app => [.lib]
    | _ => []
  prereqs := [.tar]
  packages := [.lib, .app]
  finalizing := 2

def Name.place : Name → ℕ
  | .tar => 0
  | .lib => 1
  | .app => 2

def smallRank : Target Name → ℕ
  | .of name target => 30 * name.place + rank target
  | .patch name => 30 * name.place + 25
  | .rsync name => 30 * name.place + 24
  | .dependencies => 20
  | .finalize => 100

theorem small_acyclic :
    ∀ target, ∀ dep ∈ small.deps target, smallRank dep.target < smallRank target := by
  intro target dep member
  cases target with
  | of name target =>
    rcases deps_cases member with ⟨inner, isInner, rfl⟩ | ⟨stamp, rfl, isOther⟩
    · have lower := rank_lt (small.pkg name) ⟨id, monotone_id⟩ target inner isInner
      exact Nat.add_lt_add_left lower _
    · clear member
      revert dep
      cases name <;> cases stamp <;> decide
  | patch name | rsync name =>
    revert dep
    cases name <;> decide
  | dependencies | finalize =>
    revert dep
    decide

/-- The first run is interrupted in the library, the second one in a new build of it. -/
def smallRuns : List (Run Name) := [⟨.of .app .package, 20⟩, ⟨.of .lib .rebuild, 9⟩]

/-- The application is configured when the library was installed by a later run. -/
theorem makes_in_order_small :
    let log := (small.makes ⟨id, monotone_id⟩ 101 (smallRuns ++ [⟨.finalize, 100⟩])).log
    small.Allowed (replay ⟨id, monotone_id⟩ (log.take 37)) (.of .app (.command .configure 0)) := by
  intro log
  have isLog : log = log.take 37 ++ .of .app (.command .configure 0) :: log.drop 38 := by
    decide +kernel
  exact makes_in_order small ⟨id, monotone_id⟩ small_acyclic (smallRuns ++ [⟨.finalize, 100⟩])
    (by decide) isLog

/-- The library and the application are installed then. -/
theorem finalize_installs_small :
    let world := small.makes ⟨id, monotone_id⟩ 101 (smallRuns ++ [⟨.finalize, 100⟩])
    ∀ name ∈ small.packages, small.Installed world name ∧
      ((small.pkg name).installs = true → ∀ other, small.DependsOn name other →
        small.Installed world other) :=
  finalize_installs small ⟨id, monotone_id⟩ small_acyclic smallRuns (by decide) (by decide) 100
    (by decide +kernel)

end Buildroot4G.Packages.Several
