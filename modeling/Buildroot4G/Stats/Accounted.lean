/-
This file proves what the graphs of the build times account for. The views that show steps
have no `install-images` to show, since the hooks call the step `install-image`; and of several
executions of a step only the times of the last ones are kept. Every logged duration is in
every view exactly when the steps that install images took no time, and no execution of a step
but its last one did.
-/

import Buildroot4G.Stats.BuildTime

namespace Buildroot4G.Stats

open Shell

/-! ### The log is read back -/

/-- The name of a package: its characters mean nothing to the reader. -/
def IsName (name : Text) : Prop := ∀ c ∈ name, c ≠ ':' ∧ c ≠ '"' ∧ isSpace c = false

instance (name : Text) : Decidable (IsName name) :=
  List.decidableBAll (fun c => c ≠ ':' ∧ c ≠ '"' ∧ isSpace c = false) name

/-- What a mark changes in the list of packages. -/
def enterMark (pkgs : List Package) (mark : Mark) : List Package :=
  changePackage mark.pkg (Package.addStep mark.step.name mark.state.text mark.time) pkgs

theorem not_mem_column {c : Char} {text : Text} (absent : c ∉ text) (notBlank : c ≠ ' ')
    (width : ℕ) : c ∉ column width text := by
  rw [column, List.mem_append, not_or]
  exact ⟨fun inside => absent (List.mem_of_mem_take inside),
    fun inside => notBlank (List.eq_of_mem_replicate inside)⟩

/-- A word that fits into its column. -/
theorem strip_column {text : Text} {width : ℕ} (fits : text.length ≤ width)
    (free : ∀ c ∈ text, isSpace c = false) : strip isSpace (column width text) = text := by
  have whole : column width text =
      [] ++ text ++ List.replicate (width - text.length) ' ' := by
    rw [column, List.take_of_length_le fits, List.nil_append]
  rw [whole]
  refine strip_append (fun c inside => absurd inside List.not_mem_nil) (fun c inside => ?_)
    (fun c isHead => free c (List.mem_of_mem_head? isHead))
    fun c isLast => free c (List.mem_of_mem_getLast? isLast)
  rw [List.eq_of_mem_replicate inside]
  rfl

theorem strip_of_free {text : Text} (free : ∀ c ∈ text, isSpace c = false) :
    strip isSpace text = text := by
  have fits := strip_column (Nat.le_refl text.length) free
  rwa [column, List.take_length, Nat.sub_self, List.replicate_zero, List.append_nil] at fits

section Mark

variable {mark : Mark} (isName : IsName mark.pkg)

theorem not_mem_decimal {c : Char} (noDigit : c.isDigit = false) (number : ℕ) :
    c ∉ decimal number := by
  intro inside
  have digit := (isNumber_decimal number).2 c inside
  rw [noDigit] at digit
  cases digit

include isName in
theorem not_mem_stepTime {c : Char} (bad : c = '"' ∨ c = '\n') : c ∉ stepTime mark := by
  have inPkg : c ∉ mark.pkg := by
    intro inside
    obtain ⟨-, noQuote, noSpace⟩ := isName c inside
    rcases bad with rfl | rfl
    · exact noQuote rfl
    · cases noSpace
  have notDigit : c ∉ decimal mark.time :=
    not_mem_decimal (by rcases bad with rfl | rfl <;> rfl) _
  have inState : c ∉ column 5 mark.state.text := by
    refine not_mem_column ?_ (by rcases bad with rfl | rfl <;> decide) 5
    rcases bad with rfl | rfl <;> cases mark.state <;> decide
  have inStep : c ∉ column 20 mark.step.name := by
    refine not_mem_column ?_ (by rcases bad with rfl | rfl <;> decide) 20
    rcases bad with rfl | rfl <;> cases mark.step <;> decide
  rw [stepTime]
  simp only [List.mem_append, List.mem_cons, not_or]
  refine ⟨notDigit, ?_, inState, ?_, inStep, ?_, ?_, inPkg⟩ <;>
    rcases bad with rfl | rfl <;> decide

include isName in
theorem csvRow_stepTime (quoted : Text → List Text) :
    csvRow quoted ':' (stepTime mark) =
      [decimal mark.time, column 5 mark.state.text, column 20 mark.step.name, ' ' :: mark.pkg] := by
  have inPkg : ':' ∉ ' ' :: mark.pkg := by
    rw [List.mem_cons, not_or]
    exact ⟨by decide, fun inside => (isName ':' inside).1 rfl⟩
  have inState : ':' ∉ column 5 mark.state.text :=
    not_mem_column (by cases mark.state <;> decide) (by decide) 5
  have inStep : ':' ∉ column 20 mark.step.name :=
    not_mem_column (by cases mark.step <;> decide) (by decide) 20
  rw [csvRow_of_not_mem (not_mem_stepTime isName (Or.inl rfl)), stepTime,
    List.splitOn_append_cons_self_of_not_mem (not_mem_decimal rfl _),
    List.splitOn_append_cons_self_of_not_mem inState,
    List.splitOn_append_cons_self_of_not_mem inStep, List.splitOn_eq_singleton inPkg]

include isName in
theorem readRow_stepTime (quoted : Text → List Text) (pkgs : List Package) :
    readRow pkgs (csvRow quoted ':' (stepTime mark)) = some (enterMark pkgs mark) := by
  have time : strip isSpace (decimal mark.time) = decimal mark.time := by
    refine strip_of_free fun c inside => ?_
    exact not_isSpace_of_isDigit ((isNumber_decimal mark.time).2 c inside)
  have state : strip isSpace (column 5 mark.state.text) = mark.state.text := by
    cases mark.state <;> decide
  have step : strip isSpace (column 20 mark.step.name) = mark.step.name := by
    cases mark.step <;> decide
  have pkg : strip isSpace (' ' :: mark.pkg) = mark.pkg := by
    have free : ∀ c ∈ mark.pkg, isSpace c = false := fun c inside => (isName c inside).2.2
    rw [strip, List.dropWhile_cons_of_pos rfl]
    exact strip_of_free free
  rw [csvRow_stepTime isName, readRow, time, readInt_decimal, state, step, pkg]
  rfl

end Mark

/-- The reader gets every mark that was written. -/
theorem readData_marks (quoted : Text → List Text) {marks : List Mark}
    (names : ∀ mark ∈ marks, IsName mark.pkg) :
    readData quoted (marks.flatMap fun mark => stepTime mark ++ ['\n']) =
      some (marks.foldl enterMark []) := by
  have lines := fileLines_flatMap stepTime
    fun mark inside => not_mem_stepTime (names mark inside) (Or.inr rfl)
  rw [readData, lines, List.map_map]
  have general : ∀ pkgs : List Package, (marks.map (csvRow quoted ':' ∘ stepTime)).foldlM readRow
      pkgs = some (marks.foldl enterMark pkgs) := by
    clear lines
    induction marks with
    | nil => exact fun _ => rfl
    | cons mark rest inductionHypothesis =>
      intro pkgs
      obtain ⟨isName, restNames⟩ := List.forall_mem_cons.mp names
      rw [List.map_cons, List.foldlM_cons, Function.comp_apply, readRow_stepTime isName,
        List.foldl_cons]
      exact inductionHypothesis restNames (enterMark pkgs mark)
  exact general []

/-! ### The packages -/

/-- The object of a package, a new one when there is none. -/
def packageOf (name : Text) (pkgs : List Package) : Package :=
  (pkgs.find? fun package => package.name = name).getD (Package.new name)

theorem name_addStep (step state : Text) (time : ℤ) (package : Package) :
    (package.addStep step state time).name = package.name := by
  rw [Package.addStep]
  split <;> split <;> rfl

theorem packageOf_cons (name : Text) (package : Package) (rest : List Package) :
    packageOf name (package :: rest) =
      if package.name = name then package else packageOf name rest := by
  rw [packageOf, List.find?_cons]
  by_cases here : package.name = name
  · rw [decide_eq_true here, if_pos here]
    rfl
  · rw [decide_eq_false here, if_neg here]
    rfl

theorem packageOf_changePackage {change : Package → Package}
    (keeps : ∀ package, (change package).name = package.name) (name other : Text)
    (pkgs : List Package) :
    packageOf other (changePackage name change pkgs) =
      if other = name then change (packageOf name pkgs) else packageOf other pkgs := by
  induction pkgs with
  | nil =>
    have isNew : (Package.new name).name = name := rfl
    rw [changePackage, packageOf_cons, keeps, isNew]
    by_cases same : name = other
    · rw [if_pos same, if_pos same.symm]
      rfl
    · rw [if_neg same, if_neg (Ne.symm same)]
  | cons package rest inductionHypothesis =>
    rw [changePackage, packageOf_cons, packageOf_cons]
    by_cases here : package.name = name
    · rw [if_pos here, if_pos here, packageOf_cons, keeps, here]
      by_cases same : name = other
      · rw [if_pos same, if_pos same.symm]
      · rw [if_neg same, if_neg (Ne.symm same), if_neg same]
    · rw [if_neg here, if_neg here, packageOf_cons, inductionHypothesis]
      by_cases isOther : package.name = other
      · rw [if_pos isOther, if_neg fun same => here (isOther.trans same), if_pos isOther]
      · rw [if_neg isOther, if_neg isOther]

/-- The marks of other packages leave an object as it is. -/
theorem packageOf_foldl (name : Text) (marks : List Mark) (pkgs : List Package) :
    packageOf name (marks.foldl enterMark pkgs) =
      (marks.filter fun mark => mark.pkg = name).foldl
        (fun package mark => package.addStep mark.step.name mark.state.text mark.time)
        (packageOf name pkgs) := by
  induction marks generalizing pkgs with
  | nil => rfl
  | cons mark rest inductionHypothesis =>
    rw [List.foldl_cons, inductionHypothesis, enterMark,
      packageOf_changePackage (name_addStep _ _ _)]
    by_cases same : name = mark.pkg
    · rw [if_pos same, List.filter_cons_of_pos (by simpa using same.symm), List.foldl_cons, same]
    · rw [if_neg same, List.filter_cons_of_neg (by simpa using Ne.symm same)]

theorem names_changePackage {change : Package → Package}
    (keeps : ∀ package, (change package).name = package.name) (name : Text)
    {pkgs : List Package} (nodup : (pkgs.map Package.name).Nodup) :
    ((changePackage name change pkgs).map Package.name).Nodup ∧
      ∀ other, other ∈ (changePackage name change pkgs).map Package.name ↔
        other = name ∨ other ∈ pkgs.map Package.name := by
  induction pkgs with
  | nil =>
    refine ⟨List.nodup_singleton _, fun other => ?_⟩
    rw [changePackage, List.map_singleton, keeps, List.mem_singleton]
    exact (or_iff_left List.not_mem_nil).symm
  | cons package rest inductionHypothesis =>
    obtain ⟨fresh, nodup⟩ := List.nodup_cons.mp nodup
    obtain ⟨nodupChanged, members⟩ := inductionHypothesis nodup
    rw [changePackage]
    by_cases here : package.name = name
    · rw [if_pos here, List.map_cons, keeps, List.map_cons]
      refine ⟨List.nodup_cons.mpr ⟨fresh, nodup⟩, fun other => ?_⟩
      rw [List.mem_cons, here]
      exact ⟨Or.inr, fun inside => inside.elim Or.inl id⟩
    · rw [if_neg here, List.map_cons, List.map_cons]
      refine ⟨List.nodup_cons.mpr ⟨fun inside => ?_, nodupChanged⟩, fun other => ?_⟩
      · exact ((members package.name).mp inside).elim here fresh
      · rw [List.mem_cons, members, List.mem_cons, or_left_comm]

theorem nodup_names_foldl (marks : List Mark) {pkgs : List Package}
    (nodup : (pkgs.map Package.name).Nodup) :
    ((marks.foldl enterMark pkgs).map Package.name).Nodup := by
  induction marks generalizing pkgs with
  | nil => exact nodup
  | cons mark rest inductionHypothesis =>
    exact inductionHypothesis (names_changePackage (name_addStep _ _ _) mark.pkg nodup).1

/-- A package of the list is the one that is found by its name. -/
theorem packageOf_of_mem {pkgs : List Package} (nodup : (pkgs.map Package.name).Nodup)
    {package : Package} (inside : package ∈ pkgs) : packageOf package.name pkgs = package := by
  induction pkgs with
  | nil => exact absurd inside List.not_mem_nil
  | cons first rest inductionHypothesis =>
    obtain ⟨fresh, nodup⟩ := List.nodup_cons.mp nodup
    rcases List.mem_cons.mp inside with rfl | inRest
    · rw [packageOf_cons, if_pos rfl]
    · have different : first.name ≠ package.name :=
        fun same => fresh (same ▸ List.mem_map_of_mem inRest)
      rw [packageOf_cons, if_neg different]
      exact inductionHypothesis nodup inRest

/-! ### The times of a package -/

/-- The time of the last mark of a state for a step. -/
def latest (state : HookState) (step : Text) (marks : List Mark) : Option ℤ :=
  ((marks.filter fun mark => decide (mark.state = state ∧ mark.step.name = step)).getLast?).map
    fun mark => (mark.time : ℤ)

/-- What the dictionaries of a package have after its marks. -/
structure Timed (marks : List Mark) (package : Package) : Prop where
  start : ∀ step, package.stepsStart.lookup step = latest .start step marks
  finish : ∀ step, package.stepsEnd.lookup step = latest .finish step marks
  duration : ∀ step, package.stepsDuration.lookup step =
    (latest .start step marks).bind fun start =>
      (latest .finish step marks).map fun finish => finish - start

theorem latest_append (state : HookState) (step : Text) (marks : List Mark) (mark : Mark) :
    latest state step (marks ++ [mark]) =
      if mark.state = state ∧ mark.step.name = step then some (mark.time : ℤ)
      else latest state step marks := by
  rw [latest, List.filter_append]
  by_cases here : mark.state = state ∧ mark.step.name = step
  · rw [if_pos here, List.filter_cons_of_pos (by simpa using here), List.filter_nil,
      List.getLast?_concat]
    rfl
  · rw [if_neg here, List.filter_cons_of_neg (by simpa using here), List.filter_nil,
      List.append_nil]
    rfl

section AddStep

variable (step state : Text) (time : ℤ) (package : Package)

theorem stepsStart_addStep :
    (package.addStep step state time).stepsStart =
      if state = "start".toList then package.stepsStart.set step time
      else package.stepsStart := by
  rw [Package.addStep]
  split <;> split <;> rfl

theorem stepsEnd_addStep :
    (package.addStep step state time).stepsEnd =
      if state = "start".toList then package.stepsEnd else package.stepsEnd.set step time := by
  rw [Package.addStep]
  split <;> split <;> rfl

/-- The duration of the step is made of the new times, when there are both. -/
theorem stepsDuration_addStep :
    (package.addStep step state time).stepsDuration =
      match (package.addStep step state time).stepsStart.lookup step,
        (package.addStep step state time).stepsEnd.lookup step with
      | some start, some finish => package.stepsDuration.set step (finish - start)
      | _, _ => package.stepsDuration := by
  rw [stepsStart_addStep, stepsEnd_addStep, Package.addStep]
  by_cases starts : state = "start".toList
  · simp only [if_pos starts]
    cases (package.stepsStart.set step time).lookup step <;>
      cases package.stepsEnd.lookup step <;> rfl
  · simp only [if_neg starts]
    cases package.stepsStart.lookup step <;>
      cases (package.stepsEnd.set step time).lookup step <;> rfl

end AddStep

theorem latest_append_of_ne {step : Text} {mark : Mark} (different : mark.step.name ≠ step)
    (state : HookState) (marks : List Mark) :
    latest state step (marks ++ [mark]) = latest state step marks := by
  rw [latest_append, if_neg fun both => different both.2]

theorem latest_append_eq_none {state : HookState} {step : Text} {marks : List Mark} {mark : Mark}
    (missing : latest state step (marks ++ [mark]) = none) : latest state step marks = none := by
  rw [latest_append] at missing
  split at missing
  · cases missing
  · exact missing

/-- One more mark. -/
theorem Timed.addStep {marks : List Mark} {package : Package} (timed : Timed marks package)
    (mark : Mark) :
    Timed (marks ++ [mark]) (package.addStep mark.step.name mark.state.text mark.time) := by
  have isStart : HookState.start.text = "start".toList := rfl
  have isFinish : HookState.finish.text ≠ "start".toList := by decide
  have start : ∀ step, (package.addStep mark.step.name mark.state.text
      mark.time).stepsStart.lookup step = latest .start step (marks ++ [mark]) := by
    intro step
    by_cases same : mark.step.name = step
    · rw [stepsStart_addStep, latest_append, ← same]
      cases state : mark.state with
      | start => rw [if_pos isStart, if_pos ⟨rfl, rfl⟩, Dict.lookup_set_self]
      | finish => rw [if_neg isFinish, if_neg (by simp), timed.start]
    · rw [stepsStart_addStep, latest_append_of_ne same, ← timed.start]
      split
      · rw [Dict.lookup_set_of_ne _ _ (Ne.symm same)]
      · rfl
  have finish : ∀ step, (package.addStep mark.step.name mark.state.text
      mark.time).stepsEnd.lookup step = latest .finish step (marks ++ [mark]) := by
    intro step
    by_cases same : mark.step.name = step
    · rw [stepsEnd_addStep, latest_append, ← same]
      cases state : mark.state with
      | start => rw [if_pos isStart, if_neg (by simp), timed.finish]
      | finish => rw [if_neg isFinish, if_pos ⟨rfl, rfl⟩, Dict.lookup_set_self]
    · rw [stepsEnd_addStep, latest_append_of_ne same, ← timed.finish]
      split
      · rfl
      · rw [Dict.lookup_set_of_ne _ _ (Ne.symm same)]
  refine ⟨start, finish, fun step => ?_⟩
  rw [stepsDuration_addStep, start, finish]
  by_cases same : mark.step.name = step
  · rw [same]
    cases starts : latest .start step (marks ++ [mark]) with
    | none =>
      simp only [Option.bind_none]
      rw [timed.duration, latest_append_eq_none starts, Option.bind_none]
    | some start =>
      cases finishes : latest .finish step (marks ++ [mark]) with
      | none =>
        simp only [Option.bind_some, Option.map_none]
        rw [timed.duration, latest_append_eq_none finishes]
        cases latest .start step marks <;> rfl
      | some finish => exact Dict.lookup_set_self _ _ _
  · rw [latest_append_of_ne same, latest_append_of_ne same, ← timed.duration]
    split
    · rw [Dict.lookup_set_of_ne _ _ (Ne.symm same)]
    · rfl

theorem timed_foldl (marks : List Mark) (name : Text) :
    Timed marks (marks.foldl
      (fun package mark => package.addStep mark.step.name mark.state.text mark.time)
      (Package.new name)) := by
  induction marks using List.reverseRecOn with
  | nil => exact ⟨fun _ => rfl, fun _ => rfl, fun _ => rfl⟩
  | append_singleton rest mark inductionHypothesis =>
    rw [List.foldl_append, List.foldl_cons, List.foldl_nil]
    exact inductionHypothesis.addStep mark

/-! ### Executions -/

/-- The executions of a step of a package, in their order. -/
def executionsOf (pkg : Text) (step : Step) (executions : List Execution) : List Execution :=
  executions.filter fun execution => decide (execution.pkg = pkg ∧ execution.step = step)

/-- What the log says that an execution took, nothing when it has no end. -/
def Execution.duration (execution : Execution) : ℤ :=
  execution.finish.elim 0 fun finish => (finish : ℤ) - execution.start

def executed (executions : List Execution) : ℤ := (executions.map Execution.duration).sum

/-- The last end and the last start. -/
def recorded (executions : List Execution) : ℤ :=
  match executions.getLast?, (executions.filterMap Execution.finish).getLast? with
  | some last, some finish => (finish : ℤ) - last.start
  | _, _ => 0

/-- The executions before the last one took no time. When the last one has no end, it is
the time since the last end that they took. -/
def Kept (executions : List Execution) : Prop :=
  ∀ last ∈ executions.getLast?, ∀ finish ∈ (executions.filterMap Execution.finish).getLast?,
    executed executions.dropLast = if last.finish = none then (finish : ℤ) - last.start else 0

instance (executions : List Execution) : Decidable (Kept executions) :=
  inferInstanceAs (Decidable (∀ last ∈ executions.getLast?, _))

theorem executed_of_no_finish {executions : List Execution}
    (none : (executions.filterMap Execution.finish).getLast? = none) : executed executions = 0 := by
  rw [List.getLast?_eq_none_iff, List.filterMap_eq_nil_iff] at none
  rw [executed]
  refine List.sum_eq_zero fun duration inside => ?_
  obtain ⟨execution, member, rfl⟩ := List.mem_map.mp inside
  rw [Execution.duration, none execution member]
  rfl

theorem recorded_eq_executed_iff (executions : List Execution) :
    recorded executions = executed executions ↔ Kept executions := by
  rcases List.eq_nil_or_concat executions with rfl | ⟨front, last, rfl⟩
  · exact iff_of_true rfl fun last isLast => by cases isLast
  rw [List.concat_eq_append, recorded, Kept, List.getLast?_concat, List.dropLast_concat,
    List.filterMap_append]
  have both : executed (front ++ [last]) = executed front + last.duration := by
    rw [executed, List.map_append, List.sum_append, executed]
    simp
  simp only [both, Option.mem_def, Option.some.injEq, forall_eq']
  cases finish : last.finish with
  | some time =>
    have ends : [last].filterMap Execution.finish = [time] := by simp [finish]
    have duration : last.duration = (time : ℤ) - last.start := by
      rw [Execution.duration, finish]
      rfl
    rw [ends, List.getLast?_concat, duration]
    simp only [Option.some.injEq, forall_eq', reduceCtorEq, if_false]
    omega
  | none =>
    have ends : [last].filterMap Execution.finish = [] := by simp [finish]
    have duration : last.duration = 0 := by
      rw [Execution.duration, finish]
      rfl
    rw [ends, List.append_nil, duration]
    cases found : (front.filterMap Execution.finish).getLast? with
    | none =>
      rw [executed_of_no_finish found]
      exact iff_of_true rfl fun time isTime => by cases isTime
    | some time =>
      simp only [Option.some.injEq, forall_eq', if_true]
      omega

/-- The times of the marks of a step, in one state. -/
def Execution.times (state : HookState) (execution : Execution) : List ℕ :=
  match state with
  | .start => [execution.start]
  | .finish => execution.finish.toList

theorem times_marks (state : HookState) (execution : Execution) :
    (execution.marks.filter fun mark => decide (mark.state = state)).map Mark.time =
      execution.times state := by
  cases state <;> cases finish : execution.finish <;>
    simp [Execution.marks, Execution.times, finish]

theorem of_mem_marks {execution : Execution} {mark : Mark} (inside : mark ∈ execution.marks) :
    mark.pkg = execution.pkg ∧ mark.step = execution.step := by
  rcases List.mem_cons.mp inside with rfl | inside
  · exact ⟨rfl, rfl⟩
  · obtain ⟨time, -, rfl⟩ := List.mem_map.mp inside
    exact ⟨rfl, rfl⟩

theorem filter_marks (pkg : Text) (step : Step) (state : HookState)
    (executions : List Execution) :
    (((executions.flatMap Execution.marks).filter fun mark => mark.pkg = pkg).filter
        fun mark => decide (mark.state = state ∧ mark.step.name = step.name)).map Mark.time =
      (executionsOf pkg step executions).flatMap (Execution.times state) := by
  induction executions with
  | nil => rfl
  | cons execution rest inductionHypothesis =>
    rw [List.flatMap_cons, List.filter_append, List.filter_append, List.map_append,
      inductionHypothesis, executionsOf, executionsOf]
    by_cases here : execution.pkg = pkg ∧ execution.step = step
    · have all : execution.marks.filter (fun mark => mark.pkg = pkg) = execution.marks :=
        List.filter_eq_self.mpr fun mark inside =>
          decide_eq_true ((of_mem_marks inside).1.trans here.1)
      have states : (execution.marks.filter
          fun mark => decide (mark.state = state ∧ mark.step.name = step.name)) =
            execution.marks.filter fun mark => decide (mark.state = state) := by
        refine List.filter_congr fun mark inside => decide_eq_decide.mpr (and_iff_left ?_)
        rw [(of_mem_marks inside).2, here.2]
      rw [all, states, times_marks, List.filter_cons_of_pos (by simpa using here),
        List.flatMap_cons]
    · have none : ((execution.marks.filter fun mark => mark.pkg = pkg).filter
          fun mark => decide (mark.state = state ∧ mark.step.name = step.name)) = [] := by
        refine List.filter_eq_nil_iff.mpr fun mark inside => ?_
        obtain ⟨inMarks, isPkg⟩ := List.mem_filter.mp inside
        obtain ⟨samePkg, sameStep⟩ := of_mem_marks inMarks
        simp only [decide_eq_true_eq, not_and]
        intro _ isStep
        rw [sameStep] at isStep
        exact here ⟨samePkg.symm.trans (of_decide_eq_true isPkg), Step.name_injective isStep⟩
      rw [none, List.filter_cons_of_neg (by simpa using here)]
      rfl

theorem value_packageOf (pkg : Text) (step : Step) (executions : List Execution) :
    (packageOf pkg ((executions.flatMap Execution.marks).foldl enterMark [])).getDuration
        (some step.name) = recorded (executionsOf pkg step executions) := by
  rw [packageOf_foldl, Package.getDuration, Dict.value]
  have timed := timed_foldl ((executions.flatMap Execution.marks).filter
    fun mark => mark.pkg = pkg) pkg
  have found : ∀ state, latest state step.name ((executions.flatMap Execution.marks).filter
      fun mark => mark.pkg = pkg) =
        (((executionsOf pkg step executions).flatMap (Execution.times state)).getLast?).map
          fun time : ℕ => (time : ℤ) := by
    intro state
    rw [← filter_marks, List.getLast?_map, Option.map_map, latest]
    rfl
  have starts : (executionsOf pkg step executions).flatMap (Execution.times .start) =
      (executionsOf pkg step executions).map Execution.start := List.flatMap_pure_eq_map _ _
  have finishes : (executionsOf pkg step executions).flatMap (Execution.times .finish) =
      (executionsOf pkg step executions).filterMap Execution.finish :=
    (List.filterMap_eq_flatMap_toList _ _).symm
  have duration := timed.duration step.name
  rw [found, found, starts, finishes, List.getLast?_map] at duration
  have same : packageOf pkg [] = Package.new pkg := rfl
  rw [same, duration, recorded]
  cases (executionsOf pkg step executions).getLast? <;>
    cases ((executionsOf pkg step executions).filterMap Execution.finish).getLast? <;> rfl

/-! ### The views -/

/-- The sum of the values of a pie chart. -/
def pieTotal (pie : List (Text × ℤ)) : ℤ := (pie.map Prod.snd).sum

/-- What the histogram and the pie chart of the steps have for a step of a package. -/
def shown (data : List Package) (pkg : Text) (step : Step) : ℤ :=
  if step.name ∈ steps then (packageOf pkg data).getDuration (some step.name) else 0

/-- No logged duration is lost: the views with steps have that of every step, the view with
packages has that of every package, and the totals are the same. -/
structure Accounts (isSmall : ℤ → ℤ → Bool) (executions : List Execution) (data : List Package) :
    Prop where
  steps : ∀ pkg step, shown data pkg step = executed (executionsOf pkg step executions)
  packages : ∀ pkg, (packageOf pkg data).getDuration none =
    (Step.all.map fun step => executed (executionsOf pkg step executions)).sum
  pieSteps : pieTotal (pkgPieTimePerStep data) = pieTotal (pkgPieTimePerPackage isSmall data)
  histogram : ∀ order, ((pkgHistogram order data).map List.sum).sum =
    pieTotal (pkgPieTimePerPackage isSmall data)

theorem pieTotal_pkgPieTimePerPackage (isSmall : ℤ → ℤ → Bool) (data : List Package) :
    pieTotal (pkgPieTimePerPackage isSmall data) =
      (data.map fun package => package.getDuration none).sum := by
  have parts : ∀ keeps : Package → Bool,
      ((data.filter fun package => !keeps package).map
          fun package => package.getDuration none).sum +
        ((data.filter keeps).map fun package => package.getDuration none).sum =
          (data.map fun package => package.getDuration none).sum := by
    intro keeps
    rw [add_comm, ← List.sum_append, ← List.map_append]
    exact ((List.filter_append_perm keeps data).map _).sum_eq
  refine Eq.trans ?_ (parts fun package => isSmall (package.getDuration none)
    (data.map fun package => package.getDuration none).sum)
  simp [pieTotal, pkgPieTimePerPackage, Function.comp_def]

theorem sum_map_sum_comm {α β : Type} (value : α → β → ℤ) (first : List α) (second : List β) :
    (first.map fun a => (second.map fun b => value a b).sum).sum =
      (second.map fun b => (first.map fun a => value a b).sum).sum := by
  have swapped := Multiset.sum_map_sum_map (first : Multiset α) (second : Multiset β)
    (f := fun a b => value a b)
  simpa using swapped

theorem pieTotal_pkgPieTimePerStep (data : List Package) :
    pieTotal (pkgPieTimePerStep data) =
      (data.map fun package =>
        (steps.map fun step => package.getDuration (some step)).sum).sum := by
  rw [sum_map_sum_comm, pieTotal, pkgPieTimePerStep, List.map_map]
  rfl

theorem sum_pkgHistogram (order : Order) (data : List Package) :
    ((pkgHistogram order data).map List.sum).sum = pieTotal (pkgPieTimePerStep data) := by
  have perm : (order.sorted data).Perm data := by
    cases order with
    | build => exact List.Perm.refl data
    | duration | name => exact List.mergeSort_perm data _
  rw [pkgHistogram, List.map_map, pieTotal, pkgPieTimePerStep, List.map_map]
  refine congrArg List.sum (List.map_congr_left fun step _ => ?_)
  exact (perm.map _).sum_eq

/-! ### What is accounted for -/

section Accounts

variable (executions : List Execution)

/-- The list of the packages that the reader makes of the log. -/
def readPackages : List Package := (executions.flatMap Execution.marks).foldl enterMark []

theorem nodup_names_readPackages : ((readPackages executions).map Package.name).Nodup := by
  refine nodup_names_foldl _ ?_
  exact List.nodup_nil

theorem shown_readPackages (pkg : Text) (step : Step) :
    shown (readPackages executions) pkg step =
      if step = .installImage then 0 else recorded (executionsOf pkg step executions) := by
  rw [shown, readPackages, value_packageOf]
  cases step <;> rfl

/-- The names of steps that a package has are those of the hooks. -/
theorem mem_names_of_value {pkg step : Text}
    (known : step ∈ (packageOf pkg (readPackages executions)).stepsDuration) :
    step ∈ (Step.all.map Step.name).toFinset := by
  have timed := timed_foldl ((executions.flatMap Execution.marks).filter
    fun mark => mark.pkg = pkg) pkg
  have found := AList.lookup_isSome.mpr known
  rw [readPackages, packageOf_foldl] at found
  have isNew : packageOf pkg [] = Package.new pkg := rfl
  rw [isNew, timed.duration] at found
  obtain ⟨start, isStart⟩ : ∃ start, latest .start step ((executions.flatMap
      Execution.marks).filter fun mark => mark.pkg = pkg) = some start := by
    refine Option.isSome_iff_exists.mp ?_
    cases starts : latest .start step ((executions.flatMap
      Execution.marks).filter fun mark => mark.pkg = pkg) with
    | none =>
      rw [starts] at found
      cases found
    | some start => rfl
  obtain ⟨mark, isLast, -⟩ := Option.map_eq_some_iff.mp isStart
  have named := of_decide_eq_true (List.mem_filter.mp (List.mem_of_getLast? isLast)).2
  rw [List.mem_toFinset, ← named.2]
  exact List.mem_map_of_mem mark.step.mem_all

theorem getDuration_readPackages (pkg : Text) :
    (packageOf pkg (readPackages executions)).getDuration none =
      (Step.all.map fun step => recorded (executionsOf pkg step executions)).sum := by
  have nodup : (Step.all.map Step.name).Nodup := by decide
  rw [Package.getDuration,
    Dict.total_eq_sum fun step known => mem_names_of_value executions known,
    List.sum_toFinset _ nodup, List.map_map]
  refine congrArg List.sum (List.map_congr_left fun step _ => ?_)
  exact value_packageOf pkg step executions

/-- The steps in the list of the script, and nothing for the one the hooks do not know. -/
theorem sum_steps (pkg : Text) :
    (steps.map fun step => (packageOf pkg (readPackages executions)).getDuration (some step)).sum =
      (Step.all.map fun step => shown (readPackages executions) pkg step).sum := by
  have unknown : (packageOf pkg (readPackages executions)).getDuration
      (some "install-images".toList) = 0 := by
    refine Dict.value_of_not_mem fun known => ?_
    exact absurd (mem_names_of_value executions known) (by decide)
  have value : ∀ step : Step, step ≠ .installImage →
      (packageOf pkg (readPackages executions)).getDuration (some step.name) =
        shown (readPackages executions) pkg step := by
    intro step different
    rw [shown_readPackages, if_neg different, readPackages, value_packageOf]
  have noImage : shown (readPackages executions) pkg .installImage = 0 := by
    rw [shown_readPackages, if_pos rfl]
  have known : steps.Perm ("install-images".toList ::
      (Step.all.filter fun step => step ≠ .installImage).map Step.name) := by decide
  have all : Step.all.Perm
      (.installImage :: Step.all.filter fun step => step ≠ .installImage) := by decide
  rw [(known.map _).sum_eq, (all.map _).sum_eq, List.map_cons, List.map_cons, List.sum_cons,
    List.sum_cons, unknown, noImage, List.map_map]
  refine congrArg (0 + List.sum ·) (List.map_congr_left fun step inside => ?_)
  exact value step (of_decide_eq_true (List.mem_filter.mp inside).2)

/-- Every logged duration is in all views, and their totals are the same, exactly when the steps
that install images took no time and, of the executions of a step, the last one alone did. -/
theorem accounts_iff (isSmall : ℤ → ℤ → Bool) (quoted : Text → List Text)
    (names : ∀ execution ∈ executions, IsName execution.pkg) :
    ∃ data, readData quoted (buildTimeLog executions) = some data ∧
      (Accounts isSmall executions data ↔ ∀ pkg step,
        Kept (executionsOf pkg step executions) ∧
          (step = .installImage → executed (executionsOf pkg step executions) = 0)) := by
  have markNames : ∀ mark ∈ executions.flatMap Execution.marks, IsName mark.pkg := by
    intro mark inside
    obtain ⟨execution, member, inMarks⟩ := List.mem_flatMap.mp inside
    rw [(of_mem_marks inMarks).1]
    exact names execution member
  refine ⟨readPackages executions, readData_marks quoted markNames, fun accounts => ?_,
    fun keeps => ?_⟩
  · -- the views with steps say it for the other steps, and the one with packages for images
    have others : ∀ pkg step, step ≠ .installImage → recorded (executionsOf pkg step executions) =
        executed (executionsOf pkg step executions) := by
      intro pkg step different
      have kept := accounts.steps pkg step
      rwa [shown_readPackages, if_neg different] at kept
    intro pkg step
    have images : executed (executionsOf pkg .installImage executions) = 0 := by
      have kept := accounts.steps pkg .installImage
      rw [shown_readPackages, if_pos rfl] at kept
      exact kept.symm
    rw [← recorded_eq_executed_iff]
    by_cases isImage : step = .installImage
    · subst isImage
      refine ⟨?_, fun _ => images⟩
      have total := accounts.packages pkg
      rw [getDuration_readPackages, Step.all] at total
      simp only [List.map_cons, List.map_nil, List.sum_cons, List.sum_nil] at total
      rw [others pkg .extract (by decide), others pkg .patch (by decide),
        others pkg .configure (by decide), others pkg .build (by decide),
        others pkg .installHost (by decide), others pkg .installStaging (by decide),
        others pkg .installTarget (by decide)] at total
      linarith
    · exact ⟨others pkg step isImage, fun same => absurd same isImage⟩
  · have same : ∀ pkg step, recorded (executionsOf pkg step executions) =
        executed (executionsOf pkg step executions) :=
      fun pkg step => (recorded_eq_executed_iff _).mpr (keeps pkg step).1
    have views : ∀ pkg step, shown (readPackages executions) pkg step =
        executed (executionsOf pkg step executions) := by
      intro pkg step
      rw [shown_readPackages]
      split
      · rename_i isImage
        exact ((keeps pkg step).2 isImage).symm
      · exact same pkg step
    have packages : ∀ pkg, (packageOf pkg (readPackages executions)).getDuration none =
        (Step.all.map fun step => executed (executionsOf pkg step executions)).sum := by
      intro pkg
      rw [getDuration_readPackages]
      exact congrArg List.sum (List.map_congr_left fun step _ => same pkg step)
    have totals : pieTotal (pkgPieTimePerStep (readPackages executions)) =
        pieTotal (pkgPieTimePerPackage isSmall (readPackages executions)) := by
      rw [pieTotal_pkgPieTimePerStep, pieTotal_pkgPieTimePerPackage]
      refine congrArg List.sum (List.map_congr_left fun package inside => ?_)
      have found : packageOf package.name (readPackages executions) = package :=
        packageOf_of_mem (nodup_names_readPackages executions) inside
      rw [← found, sum_steps, packages]
      exact congrArg List.sum (List.map_congr_left fun step _ => views _ step)
    exact ⟨views, packages, totals, fun order => (sum_pkgHistogram order _).trans totals⟩

end Accounts

/-- A hundredth of the total, without rounding. -/
def smallPart (duration total : ℤ) : Bool := decide (100 * duration < total)

def busyboxSteps : List Execution :=
  [⟨"busybox".toList, .build, 10, some 25⟩, ⟨"busybox".toList, .installTarget, 25, some 27⟩]

theorem accounts_iff_busybox :
    ∃ data, readData (fun _ => []) (buildTimeLog busyboxSteps) = some data ∧
      Accounts smallPart busyboxSteps data := by
  obtain ⟨data, read, accounts⟩ := accounts_iff busyboxSteps smallPart (fun _ => [])
    (by decide +kernel)
  refine ⟨data, read, accounts.mpr fun pkg step => ?_⟩
  by_cases same : pkg = "busybox".toList
  · rw [same]
    cases step <;> decide
  · have none : executionsOf pkg step busyboxSteps = [] := by
      refine List.filter_eq_nil_iff.mpr fun execution inside => ?_
      have isBusybox : execution.pkg = "busybox".toList := by
        rcases List.mem_cons.mp inside with rfl | inside
        · rfl
        · rw [List.mem_singleton.mp inside]
      rw [decide_eq_true_iff]
      exact fun both => same (both.1.symm.trans isBusybox)
    rw [none]
    exact ⟨by decide, fun _ => rfl⟩

/-- The step of a kernel that installs its image. -/
def imageSteps : List Execution := [⟨"linux".toList, .installImage, 100, some 105⟩]

/-- Its five seconds are in the pie chart of the packages, and not in that of the steps. -/
theorem loses_image_step :
    ∃ data, readData (fun _ => []) (buildTimeLog imageSteps) = some data ∧
      pieTotal (pkgPieTimePerPackage smallPart data) = 5 ∧
      pieTotal (pkgPieTimePerStep data) = 0 ∧ ¬Accounts smallPart imageSteps data := by
  have packages : pieTotal (pkgPieTimePerPackage smallPart (readPackages imageSteps)) = 5 := by
    decide +kernel
  have steps : pieTotal (pkgPieTimePerStep (readPackages imageSteps)) = 0 := by
    decide +kernel
  refine ⟨readPackages imageSteps, readData_marks _ (by decide +kernel), packages, steps,
    fun accounts => ?_⟩
  have same := accounts.pieSteps
  rw [packages, steps] at same
  cases same

end Buildroot4G.Stats
