/-
This file models the rules that `inner-generic-package` of `package/pkg-generic.mk` makes
for one package: the chain of stamps from the download to the installation, the chain of a
package with `OVERRIDE_SRCDIR`, and the targets that remove stamps again.

The world of a makefile is the stamps that exist, with their times, and the lines that were
run. The targets of other packages (`FINAL_DEPENDENCIES`, `dirs`, `prepare`,
`dependencies`) are order-only prerequisites here and have no lines for this package, so that
they are left out: a run that stops in one of them stops before the next line of this
package.
-/

import Mathlib.Order.Monotone.Basic
import Buildroot4G.Make

namespace Buildroot4G.Packages

open Make

/-- The stamps, by the variables that name them (`TARGET_SOURCE` is `.stamp_downloaded`). -/
inductive Stamp where
  | source
  | extract
  | rsync
  | patch
  | configure
  | build
  | installStaging
  | installTarget
  | installImages
  | installHost
  deriving DecidableEq, Repr

inductive PackageType where
  | host
  | target
  deriving DecidableEq, Repr

/-- What the rules of a package depend on: its type, `INSTALL_STAGING`, `INSTALL_TARGET` and
`INSTALL_IMAGES`, whether it has an `OVERRIDE_SRCDIR`, and how many lines each step has before
the one that touches its stamp. -/
structure Package where
  type : PackageType
  installStaging : Bool
  installTarget : Bool
  installImages : Bool
  overrideSrcdir : Bool
  commands : Stamp → ℕ

inductive Target where
  | package
  | install
  | installStaging
  | installTarget
  | installImages
  | installHost
  | cleanForReinstall
  | cleanForRebuild
  | cleanForReconfigure
  | reinstall
  | rebuild
  | reconfigure
  | stamp (stamp : Stamp)
  deriving DecidableEq, Repr

/-- The lines of recipes: a command of a step, `touch $@` and `rm -f`. -/
inductive Line where
  | command (stamp : Stamp) (index : ℕ)
  | touch (stamp : Stamp)
  | remove (stamp : Stamp)
  deriving DecidableEq, Repr

/-! ### The rules -/

def ordinary (stamp : Stamp) : Dep Target := ⟨.stamp stamp, false⟩

def orderOnly (stamp : Stamp) : Dep Target := ⟨.stamp stamp, true⟩

def phony (target : Target) : Dep Target := ⟨target, false⟩

/-- The prerequisites of a stamp. -/
def Package.stampDeps (pkg : Package) : Stamp → List (Dep Target)
  | .installTarget =>
    (if pkg.installTarget then [ordinary .build] else []) ++
      if pkg.installStaging then [ordinary .installStaging] else []
  | .installStaging => if pkg.installStaging then [ordinary .build] else []
  | .installImages => if pkg.installImages then [ordinary .build] else []
  | .installHost => [ordinary .build]
  | .build => [ordinary .configure]
  | .configure => if pkg.overrideSrcdir then [orderOnly .rsync] else [ordinary .patch]
  | .patch => if pkg.overrideSrcdir then [] else [ordinary .extract]
  | .extract => if pkg.overrideSrcdir then [] else [ordinary .source]
  | .source => []
  | .rsync => []

def Package.deps (pkg : Package) : Target → List (Dep Target)
  | .package => [phony .install]
  | .install =>
    if pkg.type = .host then [phony .installHost]
    else [phony .installStaging, phony .installTarget, phony .installImages]
  | .installTarget => if pkg.installTarget then [ordinary .installTarget] else []
  | .installStaging => if pkg.installStaging then [ordinary .installStaging] else []
  | .installImages => if pkg.installImages then [ordinary .installImages] else []
  | .installHost => [ordinary .installHost]
  | .cleanForReinstall => []
  | .reinstall => [phony .cleanForReinstall, phony .package]
  | .cleanForRebuild => [phony .cleanForReinstall]
  | .rebuild => [phony .cleanForRebuild, phony .package]
  | .cleanForReconfigure => [phony .cleanForRebuild]
  | .reconfigure => [phony .cleanForReconfigure, phony .package]
  | .stamp stamp => pkg.stampDeps stamp

/-- The recipe of a step, which touches its stamp at the end. -/
def Package.step (pkg : Package) (stamp : Stamp) : List Line :=
  (List.range (pkg.commands stamp)).map (Line.command stamp) ++ [.touch stamp]

def Package.recipe (pkg : Package) : Target → List Line
  | .cleanForReinstall =>
    (if pkg.overrideSrcdir then [.remove .rsync] else []) ++
      [.remove .installStaging, .remove .installTarget, .remove .installImages,
        .remove .installHost]
  | .cleanForRebuild => [.remove .build]
  | .cleanForReconfigure => [.remove .configure]
  | .stamp stamp => pkg.step stamp
  | _ => []

/-! ### The world -/

/-- The stamps with the times they were touched, and the lines that were run. -/
structure World where
  stamps : Stamp → Option ℕ
  log : List Line

/-- The time at which each line is run; it may stand still, as a coarse clock does, but does not
go back. -/
structure Clock where
  time : ℕ → ℕ
  monotone : Monotone time

def World.exec (clock : Clock) (world : World) (line : Line) : World where
  stamps :=
    match line with
    | .command _ _ => world.stamps
    | .touch stamp => Function.update world.stamps stamp (some (clock.time world.log.length))
    | .remove stamp => Function.update world.stamps stamp none
  log := world.log ++ [line]

def Package.makefile (pkg : Package) (clock : Clock) : Makefile Target Line World where
  deps := pkg.deps
  recipe := pkg.recipe
  mtime world target :=
    match target with
    | .stamp stamp => world.stamps stamp
    | _ => none
  exec := World.exec clock

/-! ### Runs -/

/-- The goals that make is run with. -/
inductive Goal where
  | package
  | reinstall
  | rebuild
  | reconfigure
  deriving DecidableEq, Repr

def Goal.target : Goal → Target
  | .package => .package
  | .reinstall => .reinstall
  | .rebuild => .rebuild
  | .reconfigure => .reconfigure

/-- A bound of the chains of prerequisites. -/
def rank : Target → ℕ
  | .stamp .source => 0
  | .stamp .rsync => 0
  | .stamp .extract => 1
  | .stamp .patch => 2
  | .stamp .configure => 3
  | .stamp .build => 4
  | .stamp .installStaging => 5
  | .stamp .installImages => 5
  | .stamp .installHost => 5
  | .stamp .installTarget => 6
  | .installStaging => 7
  | .installTarget => 7
  | .installImages => 7
  | .installHost => 7
  | .install => 8
  | .package => 9
  | .cleanForReinstall => 0
  | .cleanForRebuild => 1
  | .cleanForReconfigure => 2
  | .reinstall => 10
  | .rebuild => 10
  | .reconfigure => 10

/-- The lines that make runs for a goal when nothing stops it. -/
def Package.plan (pkg : Package) (clock : Clock) (world : World) (goal : Goal) : List Line :=
  ((pkg.makefile clock).update world 11 ⟨[], []⟩ goal.target).lines

/-- A run of make: its goal, and the number of lines after which it is interrupted, if it has that
many. -/
structure Run where
  goal : Goal
  lines : ℕ

/-- The world after a run of make. -/
def Package.make (pkg : Package) (clock : Clock) (world : World) (run : Run) : World :=
  (pkg.makefile clock).after world ((pkg.plan clock world run.goal).take run.lines)

/-- No step was run yet. -/
def initial : World := ⟨fun _ => none, []⟩

/-- The world after runs of make. -/
def Package.makes (pkg : Package) (clock : Clock) (runs : List Run) : World :=
  runs.foldl (pkg.make clock) initial

/-- A prerequisite has a smaller rank. -/
theorem rank_lt (pkg : Package) (clock : Clock) :
    ∀ target, ∀ dep ∈ (pkg.makefile clock).deps target, rank dep.target < rank target := by
  intro target dep member
  change dep ∈ pkg.deps target at member
  cases target with
  | stamp stamp =>
    change dep ∈ pkg.stampDeps stamp at member
    cases stamp <;> grind [Package.stampDeps, ordinary, orderOnly, rank]
  | _ => grind [Package.deps, ordinary, phony, rank]

end Buildroot4G.Packages
