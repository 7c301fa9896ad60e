/-
This file models the log of build times and what `support/scripts/graph-build-time` makes of
it: `step_time` of `package/pkg-generic.mk` writes a line when a step of a package begins and
another one when it ends, and the script reads the lines, keeps for every package the last
times of each step, and adds them up for a histogram and two pie charts.

The names of the steps are those that the rules of `pkg-generic.mk` call `step_start` and
`step_end` with; the script has a list of its own. The log is read as Python 2 reads it: the hooks
write no carriage return.
-/

import Buildroot4G.Dict
import Buildroot4G.Shell.Python

namespace Buildroot4G.Stats

open Shell

/-! ### The hooks -/

/-- The steps of a package. -/
inductive Step where
  | extract
  | patch
  | configure
  | build
  | installHost
  | installStaging
  | installImage
  | installTarget
  deriving DecidableEq, Repr

def Step.all : List Step :=
  [.extract, .patch, .configure, .build, .installHost, .installStaging, .installImage,
    .installTarget]

theorem Step.mem_all (step : Step) : step ∈ all := by
  cases step <;> decide

/-- The first argument of `step_start` and `step_end`. -/
def Step.name : Step → Text
  | extract => "extract".toList
  | patch => "patch".toList
  | configure => "configure".toList
  | build => "build".toList
  | installHost => "install-host".toList
  | installStaging => "install-staging".toList
  | installImage => "install-image".toList
  | installTarget => "install-target".toList

theorem Step.name_injective : Function.Injective Step.name := by
  intro first second same
  cases first <;> cases second <;> first | rfl | exact absurd same (by decide)

/-- The first argument of a hook. -/
inductive HookState where
  | start
  | finish
  deriving DecidableEq, Repr

def HookState.text : HookState → Text
  | start => "start".toList
  | finish => "end".toList

/-- A call of the hook `step_time`. -/
structure Mark where
  time : ℕ
  state : HookState
  step : Step
  pkg : Text

/-- printf's `%-5.5s` for the width five. -/
def column (width : ℕ) (text : Text) : Text :=
  text.take width ++ List.replicate (width - (text.take width).length) ' '

/-- `printf "%s:%-5.5s:%-20.20s: %s\n"`, without the newline. -/
def stepTime (mark : Mark) : Text :=
  decimal mark.time ++ ':' :: (column 5 mark.state.text ++
    ':' :: (column 20 mark.step.name ++ ':' :: ' ' :: mark.pkg))

/-- One execution of a step of a package; it may stop before its end. -/
structure Execution where
  pkg : Text
  step : Step
  start : ℕ
  finish : Option ℕ

def Execution.marks (execution : Execution) : List Mark :=
  ⟨execution.start, .start, execution.step, execution.pkg⟩ ::
    execution.finish.toList.map fun time => ⟨time, .finish, execution.step, execution.pkg⟩

/-- `build-time.log` after a sequence of steps. -/
def buildTimeLog (executions : List Execution) : Text :=
  (executions.flatMap Execution.marks).flatMap fun mark => stepTime mark ++ ['\n']

/-! ### graph-build-time -/

/-- The list `steps`. -/
def steps : List Text :=
  ["extract", "patch", "configure", "build", "install-target", "install-staging",
    "install-images", "install-host"].map String.toList

structure Package where
  name : Text
  stepsDuration : Dict Text ℤ
  stepsStart : Dict Text ℤ
  stepsEnd : Dict Text ℤ

def Package.new (name : Text) : Package := ⟨name, ∅, ∅, ∅⟩

def Package.addStep (step state : Text) (time : ℤ) (package : Package) : Package :=
  let package :=
    if state = "start".toList then
      { package with stepsStart := package.stepsStart.set step time }
    else { package with stepsEnd := package.stepsEnd.set step time }
  match package.stepsStart.lookup step, package.stepsEnd.lookup step with
  | some start, some finish =>
    { package with stepsDuration := package.stepsDuration.set step (finish - start) }
  | _, _ => package

def Package.getDuration (package : Package) : Option Text → ℤ
  | none => package.stepsDuration.total
  | some step => package.stepsDuration.value step

/-- A change of the package with a name, which is added when there is none. -/
def changePackage (name : Text) (change : Package → Package) : List Package → List Package
  | [] => [change (Package.new name)]
  | package :: rest =>
    if package.name = name then change package :: rest
    else package :: changePackage name change rest

/-- The body of the loop of `read_data`; a short row or a time that is no number raises an
exception. -/
def readRow (pkgs : List Package) : List Text → Option (List Package)
  | time :: state :: step :: pkg :: _ =>
    (readInt (strip isSpace time)).map fun time =>
      changePackage (strip isSpace pkg)
        (Package.addStep (strip isSpace step) (strip isSpace state) time) pkgs
  | _ => none

def readData (quoted : Text → List Text) (text : Text) : Option (List Package) :=
  ((fileLines text).map (csvRow quoted ':')).foldlM readRow []

/-- The order of the packages in the histogram. -/
inductive Order where
  | build
  | duration
  | name
  deriving DecidableEq, Repr

/-- The order of the characters' numbers. -/
def textLe : Text → Text → Bool
  | [], _ => true
  | _ :: _, [] => false
  | c :: rest, d :: other => decide (c.toNat < d.toNat) || (c == d && textLe rest other)

def Order.sorted : Order → List Package → List Package
  | build, data => data
  | duration, data =>
    data.mergeSort fun first second => decide (second.getDuration none ≤ first.getDuration none)
  | name, data => data.mergeSort fun first second => textLe first.name second.name

/-- The bars of `pkg_histogram`: for each step, the parts of the packages. -/
def pkgHistogram (order : Order) (data : List Package) : List (List ℤ) :=
  steps.map fun step => (order.sorted data).map fun package => package.getDuration (some step)

/-- The labels and values of `pkg_pie_time_per_package`, where `isSmall` compares a duration with a
hundredth of the total in doubles. -/
def pkgPieTimePerPackage (isSmall : ℤ → ℤ → Bool) (data : List Package) : List (Text × ℤ) :=
  let total := (data.map fun package => package.getDuration none).sum
  let small := data.filter fun package => isSmall (package.getDuration none) total
  let large := data.filter fun package => !isSmall (package.getDuration none) total
  large.map (fun package => (package.name, package.getDuration none)) ++
    [("Other".toList, (small.map fun package => package.getDuration none).sum)]

/-- The labels and values of `pkg_pie_time_per_step`. -/
def pkgPieTimePerStep (data : List Package) : List (Text × ℤ) :=
  steps.map fun step => (step, (data.map fun package => package.getDuration (some step)).sum)

end Buildroot4G.Stats
