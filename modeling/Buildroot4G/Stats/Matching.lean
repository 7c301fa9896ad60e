/-
This file follows the durations of `support/scripts/graph-build-time` through a log in which steps
are repeated and interrupted. `add_step` keeps the last start and the last end of a step, and these
may come from two executions. The main result says after which lines of the log all durations are
those of an execution: when no step that has an end was started again after it.
-/

import Buildroot4G.Stats.Accounted

namespace Buildroot4G.Stats

open Shell

/-! ### The records of a step -/

/-- The records of a step of a package. -/
def recordsOf (pkg : Text) (step : Step) (marks : List Mark) : List Mark :=
  marks.filter fun mark => decide (mark.pkg = pkg ∧ mark.step = step)

/-- The last of them with a state. -/
def lastRecord (state : HookState) (pkg : Text) (step : Step) (marks : List Mark) : Option Mark :=
  ((recordsOf pkg step marks).filter fun mark => decide (mark.state = state)).getLast?

/-- Every duration of a package is that of an execution of the step, and not negative. -/
def Measured (executions : List Execution) (data : List Package) : Prop :=
  ∀ package ∈ data, ∀ step duration, package.stepsDuration.lookup step = some duration →
    0 ≤ duration ∧ ∃ execution ∈ executions, ∃ finish, execution.pkg = package.name ∧
      execution.step.name = step ∧ execution.finish = some finish ∧
      duration = (finish : ℤ) - execution.start

/-- The last record of a step is no start behind an end, or these are in one second and an execution
of the step began and ended in one. -/
def Closed (executions : List Execution) (marks : List Mark) (pkg : Text) (step : Step) : Prop :=
  ∀ last ∈ (recordsOf pkg step marks).getLast?, last.state = .start →
    ∀ finish ∈ lastRecord .finish pkg step marks, finish.time = last.time ∧
      ∃ execution ∈ executions, execution.pkg = pkg ∧ execution.step = step ∧
        execution.finish = some execution.start

theorem latest_eq_lastRecord (state : HookState) (pkg : Text) (step : Step) (marks : List Mark) :
    latest state step.name (marks.filter fun mark => mark.pkg = pkg) =
      (lastRecord state pkg step marks).map fun mark => (mark.time : ℤ) := by
  rw [latest, lastRecord, recordsOf, List.filter_filter, List.filter_filter]
  have same : (marks.filter fun mark => decide (mark.state = state ∧ mark.step.name = step.name) &&
        decide (mark.pkg = pkg)) =
      marks.filter fun mark => decide (mark.state = state) &&
        decide (mark.pkg = pkg ∧ mark.step = step) := by
    refine List.filter_congr fun mark _ => ?_
    rw [← Bool.decide_and, ← Bool.decide_and, decide_eq_decide, Step.name_injective.eq_iff]
    tauto
  rw [same]

/-- The duration of a step is made of its last records. -/
theorem lookup_packageOf (pkg : Text) (step : Step) (marks : List Mark) :
    (packageOf pkg (marks.foldl enterMark [])).stepsDuration.lookup step.name =
      (lastRecord .start pkg step marks).bind fun start =>
        (lastRecord .finish pkg step marks).map fun finish => (finish.time : ℤ) - start.time := by
  have timed := timed_foldl (marks.filter fun mark => mark.pkg = pkg) pkg
  have new : packageOf pkg [] = Package.new pkg := rfl
  rw [packageOf_foldl, new, timed.duration, latest_eq_lastRecord, latest_eq_lastRecord]
  cases lastRecord .start pkg step marks with
  | none => rfl
  | some start => cases lastRecord .finish pkg step marks <;> rfl

/-- A package with a duration is in the list, and the step is one of the hooks. -/
theorem mem_of_lookup {pkg step : Text} {marks : List Mark} {duration : ℤ}
    (found : (packageOf pkg (marks.foldl enterMark [])).stepsDuration.lookup step = some duration) :
    ∃ known : Step, known.name = step := by
  have timed := timed_foldl (marks.filter fun mark => mark.pkg = pkg) pkg
  have new : packageOf pkg [] = Package.new pkg := rfl
  rw [packageOf_foldl, new, timed.duration] at found
  obtain ⟨start, isStart, -⟩ := Option.bind_eq_some_iff.mp found
  obtain ⟨mark, isLast, -⟩ := Option.map_eq_some_iff.mp isStart
  exact ⟨mark.step, (of_decide_eq_true (List.mem_filter.mp (List.mem_of_getLast? isLast)).2).2⟩

theorem packageOf_mem {pkg : Text} {pkgs : List Package} {step : Text} {duration : ℤ}
    (found : (packageOf pkg pkgs).stepsDuration.lookup step = some duration) :
    packageOf pkg pkgs ∈ pkgs ∧ (packageOf pkg pkgs).name = pkg := by
  rw [packageOf] at found ⊢
  cases isThere : pkgs.find? (fun package => package.name = pkg) with
  | none =>
    rw [isThere] at found
    cases found
  | some package =>
    have named := List.find?_some isThere
    exact ⟨List.mem_of_find?_eq_some isThere, of_decide_eq_true named⟩

/-- The durations, by the last records of the steps. -/
theorem measured_foldl (executions : List Execution) (marks : List Mark) :
    Measured executions (marks.foldl enterMark []) ↔ ∀ pkg step,
      ∀ start ∈ lastRecord .start pkg step marks, ∀ finish ∈ lastRecord .finish pkg step marks,
        start.time ≤ finish.time ∧ ∃ execution ∈ executions, ∃ time, execution.pkg = pkg ∧
          execution.step = step ∧ execution.finish = some time ∧
          (finish.time : ℤ) - start.time = (time : ℤ) - execution.start := by
  constructor
  · intro measured pkg step start isStart finish isFinish
    have found := lookup_packageOf pkg step marks
    rw [Option.mem_def.mp isStart, Option.mem_def.mp isFinish, Option.bind_some,
      Option.map_some] at found
    obtain ⟨inside, name⟩ := packageOf_mem found
    obtain ⟨positive, execution, member, time, isPkg, isStep, ends, same⟩ :=
      measured _ inside _ _ found
    exact ⟨by omega, execution, member, time, isPkg.trans name, Step.name_injective isStep, ends,
      same⟩
  · intro matched package inside step duration found
    have nodup : ((marks.foldl enterMark []).map Package.name).Nodup :=
      nodup_names_foldl marks List.nodup_nil
    have known := packageOf_of_mem nodup inside
    rw [← known] at found
    obtain ⟨step, rfl⟩ := mem_of_lookup found
    rw [lookup_packageOf] at found
    obtain ⟨start, isStart, rest⟩ := Option.bind_eq_some_iff.mp found
    obtain ⟨finish, isFinish, same⟩ := Option.map_eq_some_iff.mp rest
    obtain ⟨le, execution, member, time, isPkg, isStep, ends, equal⟩ :=
      matched package.name step start isStart finish isFinish
    refine ⟨?_, execution, member, time, isPkg, congrArg Step.name isStep, ends,
      same.symm.trans equal⟩
    rw [← same]
    omega

/-! ### A log -/

/-- A record of an end is behind that of the start of its execution. -/
theorem start_of_finish {executions : List Execution} {front : List Mark} {last : Mark}
    (read : front ++ [last] <+: executions.flatMap Execution.marks) (isEnd : last.state = .finish) :
    ∃ execution ∈ executions, execution.finish = some last.time ∧ ∃ before,
      front = before ++ [⟨execution.start, .start, execution.step, execution.pkg⟩] := by
  induction executions generalizing front with
  | nil =>
    exact absurd (List.prefix_nil.mp read) (List.append_ne_nil_of_right_ne_nil _ (by simp))
  | cons execution rest inductionHypothesis =>
    have later : ∀ {front : List Mark}, front ++ [last] <+: rest.flatMap Execution.marks →
        ∀ passed : List Mark, ∃ other ∈ execution :: rest, other.finish = some last.time ∧
          ∃ before, passed ++ front =
            before ++ [⟨other.start, .start, other.step, other.pkg⟩] := by
      intro front read passed
      obtain ⟨other, member, ends, before, rfl⟩ := inductionHypothesis read
      exact ⟨other, List.mem_cons_of_mem _ member, ends, passed ++ before,
        (List.append_assoc _ _ _).symm⟩
    rw [List.flatMap_cons, Execution.marks, List.cons_append] at read
    rcases front with _ | ⟨first, front⟩
    · obtain ⟨same, -⟩ := List.cons_prefix_cons.mp read
      rw [same] at isEnd
      cases isEnd
    · obtain ⟨rfl, tail⟩ := List.cons_prefix_cons.mp read
      cases ends : execution.finish with
      | none =>
        rw [ends] at tail
        exact later tail [⟨execution.start, .start, execution.step, execution.pkg⟩]
      | some time =>
        rw [ends] at tail
        rcases front with _ | ⟨second, front⟩
        · obtain ⟨same, -⟩ := List.cons_prefix_cons.mp tail
          refine ⟨execution, List.mem_cons_self, ?_, [], rfl⟩
          rw [ends, same]
        · obtain ⟨rfl, behind⟩ := List.cons_prefix_cons.mp tail
          exact later behind [⟨execution.start, .start, execution.step, execution.pkg⟩,
            ⟨time, .finish, execution.step, execution.pkg⟩]

theorem recordsOf_flatMap (pkg : Text) (step : Step) (executions : List Execution) :
    recordsOf pkg step (executions.flatMap Execution.marks) =
      (executionsOf pkg step executions).flatMap Execution.marks := by
  induction executions with
  | nil => rfl
  | cons execution rest inductionHypothesis =>
    rw [List.flatMap_cons, recordsOf, List.filter_append, ← recordsOf, ← recordsOf,
      inductionHypothesis, executionsOf, executionsOf]
    by_cases here : execution.pkg = pkg ∧ execution.step = step
    · have all : recordsOf pkg step execution.marks = execution.marks :=
        List.filter_eq_self.mpr fun mark inside =>
          decide_eq_true ⟨(of_mem_marks inside).1.trans here.1,
            (of_mem_marks inside).2.trans here.2⟩
      rw [all, List.filter_cons_of_pos (by simpa using here), List.flatMap_cons]
    · have none : recordsOf pkg step execution.marks = [] := by
        refine List.filter_eq_nil_iff.mpr fun mark inside isRecord => here ?_
        obtain ⟨samePkg, sameStep⟩ := of_mem_marks inside
        obtain ⟨isPkg, isStep⟩ := of_decide_eq_true isRecord
        exact ⟨samePkg.symm.trans isPkg, sameStep.symm.trans isStep⟩
      rw [none, List.filter_cons_of_neg (by simpa using here), List.nil_append]

section Log

variable {executions : List Execution} {marks : List Mark}

/-- The durations of a step, after a part of the log. -/
theorem matched_iff_closed (read : marks <+: executions.flatMap Execution.marks)
    (sorted : (executions.flatMap Execution.marks).Pairwise fun first second =>
      first.time ≤ second.time) (pkg : Text) (step : Step) :
    (∀ start ∈ lastRecord .start pkg step marks, ∀ finish ∈ lastRecord .finish pkg step marks,
      start.time ≤ finish.time ∧ ∃ execution ∈ executions, ∃ time, execution.pkg = pkg ∧
        execution.step = step ∧ execution.finish = some time ∧
        (finish.time : ℤ) - start.time = (time : ℤ) - execution.start) ↔
      Closed executions marks pkg step := by
  have records : recordsOf pkg step marks <+:
      (executionsOf pkg step executions).flatMap Execution.marks := by
    rw [← recordsOf_flatMap]
    exact read.filter _
  have sorted' : (recordsOf pkg step marks).Pairwise fun first second =>
      first.time ≤ second.time := (sorted.sublist read.sublist).filter _
  rw [Closed, lastRecord, lastRecord]
  rcases List.eq_nil_or_concat (recordsOf pkg step marks) with empty | ⟨front, last, whole⟩
  · rw [empty]
    exact iff_of_true (fun start isStart => by cases isStart) fun last isLast => by cases isLast
  rw [List.concat_eq_append] at whole
  rw [whole] at records sorted' ⊢
  obtain ⟨-, -, before⟩ := List.pairwise_append.mp sorted'
  rw [List.getLast?_concat, List.filter_append, List.filter_append]
  cases state : last.state with
  | start =>
    -- the last end is not behind the last start, so they make no time together
    have isStart : [last].filter (fun mark => decide (mark.state = .start)) = [last] :=
      List.filter_cons_of_pos (decide_eq_true state)
    have notEnd : [last].filter (fun mark => decide (mark.state = .finish)) = [] :=
      List.filter_cons_of_neg (by rw [state]; decide)
    rw [isStart, notEnd, List.getLast?_concat, List.append_nil]
    constructor
    · intro matched last' isLast _ finish isFinish
      cases isLast
      obtain ⟨le, execution, member, time, isPkg, isStep, ends, same⟩ :=
        matched last rfl finish isFinish
      have inFront := List.mem_of_mem_filter (List.mem_of_getLast? isFinish)
      have ge := before finish inFront last (List.mem_singleton_self last)
      refine ⟨Nat.le_antisymm ge le, execution, member, isPkg, isStep, ?_⟩
      have none' : time = execution.start := by omega
      rw [ends, none']
    · intro closed start isStart finish isFinish
      cases isStart
      obtain ⟨same, execution, member, isPkg, isStep, ends⟩ :=
        closed last rfl state finish isFinish
      refine ⟨same.ge, execution, member, execution.start, isPkg, isStep, ends, ?_⟩
      rw [same, sub_self, sub_self]
  | finish =>
    -- the last start is the record before the last end
    have isEnd : [last].filter (fun mark => decide (mark.state = .finish)) = [last] :=
      List.filter_cons_of_pos (decide_eq_true state)
    have notStart : [last].filter (fun mark => decide (mark.state = .start)) = [] :=
      List.filter_cons_of_neg (by rw [state]; decide)
    obtain ⟨execution, member, ends, earlier, rfl⟩ := start_of_finish records state
    obtain ⟨member, here⟩ := List.mem_filter.mp member
    obtain ⟨isPkg, isStep⟩ := of_decide_eq_true here
    rw [isEnd, notStart, List.getLast?_concat, List.append_nil, List.filter_append]
    have first : [(⟨execution.start, .start, execution.step, execution.pkg⟩ : Mark)].filter
        (fun mark => decide (mark.state = .start)) =
          [⟨execution.start, .start, execution.step, execution.pkg⟩] :=
      List.filter_cons_of_pos (decide_eq_true rfl)
    rw [first, List.getLast?_concat]
    refine iff_of_true ?_ ?_
    · intro start isStart finish isFinish
      cases isStart
      cases isFinish
      refine ⟨?_, execution, member, last.time, isPkg, isStep, ends, rfl⟩
      exact before _ (List.mem_append_right _ (List.mem_singleton_self _)) last
        (List.mem_singleton_self last)
    · intro last' isLast isStart
      cases isLast
      rw [state] at isStart
      cases isStart

/-- **After any of its lines, all durations are non-negative and those of an execution exactly when
no step that has an end was started again behind it** (or this took no second). -/
theorem measured_iff (quoted : Text → List Text)
    (names : ∀ execution ∈ executions, IsName execution.pkg)
    (sorted : (executions.flatMap Execution.marks).Pairwise fun first second =>
      first.time ≤ second.time)
    (read : marks <+: executions.flatMap Execution.marks) :
    ∃ data, readData quoted (marks.flatMap fun mark => stepTime mark ++ ['\n']) = some data ∧
      (Measured executions data ↔ ∀ pkg step, Closed executions marks pkg step) := by
  have markNames : ∀ mark ∈ marks, IsName mark.pkg := by
    intro mark inside
    obtain ⟨execution, member, inMarks⟩ := List.mem_flatMap.mp (read.subset inside)
    rw [(of_mem_marks inMarks).1]
    exact names execution member
  refine ⟨marks.foldl enterMark [], readData_marks quoted markNames, ?_⟩
  rw [measured_foldl]
  exact forall₂_congr fun pkg step => matched_iff_closed read sorted pkg step

end Log

theorem measured_iff_busybox :
    ∃ data, readData (fun _ => []) (buildTimeLog busyboxSteps) = some data ∧
      (Measured busyboxSteps data ↔
        ∀ pkg step, Closed busyboxSteps (busyboxSteps.flatMap Execution.marks) pkg step) :=
  measured_iff (fun _ => []) (by decide +kernel) (by decide) List.prefix_rfl

/-- A step that is interrupted when it is run again. -/
def interruptedSteps : List Execution :=
  [⟨"busybox".toList, .build, 10, some 25⟩, ⟨"busybox".toList, .build, 40, none⟩]

/-- Its duration is the time from the second start back to the first end. -/
theorem negative_duration :
    ∃ data, readData (fun _ => []) (buildTimeLog interruptedSteps) = some data ∧
      ¬Measured interruptedSteps data := by
  refine ⟨readPackages interruptedSteps, readData_marks _ (by decide +kernel), ?_⟩
  rw [readPackages, measured_foldl]
  intro matched
  have late := (matched "busybox".toList .build ⟨40, .start, .build, "busybox".toList⟩ rfl
    ⟨25, .finish, .build, "busybox".toList⟩ rfl).1
  exact absurd late (by decide)

end Buildroot4G.Stats
