/-
This file proves that a download is published only after it was verified. In every
state that any interleaving of any number of processes can reach, the output path
is absent, or has the content it had before the first process started, or has the
complete content that the backend of a process had in its file when it succeeded, and
that `check-hash` then accepted for that process.

The invariant follows one content through the script: the file that was verified
lies in a directory of the process's own, `cat` appends it to a file whose name no
other process holds, and only that file is renamed to the output path. Over it a second
invariant follows the content back to the two states of the run in which it was fetched
and verified.
-/

import Buildroot4G.Download.Alone

namespace Buildroot4G.Download

open Shell

/-! ### The invariant -/

/-- What is known of a process, `own` being the content of its temporary output file. -/
def ProcessOk (digests : Digests) (args : HashArgs) (own : Option Content) : Process → Prop
  | ⟨.verifying lines checks, some tmpf, _⟩ =>
    checkFrom digests args tmpf lines checks = checkHash digests args tmpf
  | ⟨.makingOutput, some tmpf, _⟩ => checkHash digests args tmpf = 0
  | ⟨.changingMode, some tmpf, _⟩ => checkHash digests args tmpf = 0 ∧ own = some []
  | ⟨.copying rest, _, _⟩ =>
    ∃ written, own = some written ∧ Accepts digests args (written ++ rest)
  | ⟨.cleaning, _, _⟩ => ∃ content, own = some content ∧ Accepts digests args content
  | ⟨.publishing, _, _⟩ => ∃ content, own = some content ∧ Accepts digests args content
  | _ => True

/-- The content of the temporary output file of a process. -/
def Process.own (process : Process) (directory : Directory) : Option Content :=
  process.tmpOutput.bind directory

/-- The invariant of the system: what the output path may hold, and that every temporary output
file exists and belongs to one process, which knows what is in it. -/
structure Verified (digests : Digests) (args : Nat → HashArgs) (output : Text)
    (initial : Option Content) (state : State) : Prop where
  published : state.directory output = none ∨ state.directory output = initial ∨
    ∃ who content, state.directory output = some content ∧ Accepts digests (args who) content
  named : ∀ who name, (state.process who).tmpOutput = some name →
    name ≠ output ∧ state.directory name ≠ none
  distinct : ∀ first second name, (state.process first).tmpOutput = some name →
    (state.process second).tmpOutput = some name → first = second
  processes : ∀ who, ProcessOk digests (args who)
    ((state.process who).own state.directory) (state.process who)

/-- What a step of one process leaves true: the process knows its temporary output file, other
files keep their content, a new name was free, and the output path gets nothing unverified. -/
structure LocalOk (digests : Digests) (args : HashArgs) (output : Text) (before : Directory)
    (process : Process) (after : Directory) (next : Process) : Prop where
  knows : ProcessOk digests args (next.own after) next
  frame : ∀ name, name ≠ output → process.tmpOutput ≠ some name → next.tmpOutput ≠ some name →
    after name = before name
  named : ∀ name, next.tmpOutput = some name →
    name ≠ output ∧ after name ≠ none ∧ (process.tmpOutput = some name ∨ before name = none)
  published : after output = none ∨ after output = before output ∨
    ∃ content, after output = some content ∧ Accepts digests args content

section Local

variable {digests : Digests} {args : HashArgs} {output : Text}

/-- A step that writes no file and keeps the name of the temporary output file. -/
theorem LocalOk.of_same {directory : Directory} {process next : Process}
    (same : next.tmpOutput = process.tmpOutput)
    (named : ∀ name, process.tmpOutput = some name →
      name ≠ output ∧ directory name ≠ none)
    (ok : ProcessOk digests args (process.own directory) next) :
    LocalOk digests args output directory process directory next where
  knows := by rw [Process.own, same]; exact ok
  frame _ _ _ _ := rfl
  named name holds := by
    rw [same] at holds
    exact ⟨(named name holds).1, (named name holds).2, Or.inl holds⟩
  published := Or.inr (Or.inl rfl)

theorem processOk_afterCheck (code : Nat) (own : Option Content) (tmpd tmpOutput) :
    ProcessOk digests args own ⟨afterCheck code, tmpd, tmpOutput⟩ := by
  rw [afterCheck]
  split
  · trivial
  · split <;> trivial

theorem processOk_afterVerify {code : Nat} {tmpf : Option Content}
    (verdict : code = checkHash digests args tmpf) (own : Option Content) (tmpOutput) :
    ProcessOk digests args own ⟨afterVerify code, some tmpf, tmpOutput⟩ := by
  rw [afterVerify]
  split
  · rename_i zero
    rw [verdict] at zero
    exact zero
  · trivial

/-- The temporary output file a process removes goes, and nothing else does. -/
theorem LocalOk.of_remove {directory : Directory} {process next : Process}
    (gone : next.tmpOutput = none) (named : ∀ name, process.tmpOutput = some name →
      name ≠ output ∧ directory name ≠ none)
    (ok : ProcessOk digests args none next) :
    LocalOk digests args output directory process (directory.remove process.tmpOutput) next where
  knows := by rw [Process.own, gone]; exact ok
  frame name _ others _ := by
    cases held : process.tmpOutput with
    | none => rfl
    | some own =>
      have different : name ≠ own := fun same => others (by rw [held, same])
      exact Function.update_of_ne different _ _
  named name holds := by
    rw [gone] at holds
    cases holds
  published := by
    refine Or.inr (Or.inl ?_)
    cases held : process.tmpOutput with
    | none => rfl
    | some own => exact Function.update_of_ne (named own held).1.symm _ _

/-- Every step of a process that knows its temporary output file is one of the above. -/
theorem localOk_of_local {directory after : Directory} {process next : Process}
    (step : Local digests args output directory process after next)
    (named : ∀ name, process.tmpOutput = some name → name ≠ output ∧ directory name ≠ none)
    (ok : ProcessOk digests args (process.own directory) process) :
    LocalOk digests args output directory process after next := by
  cases step with
  | missing | removeFails | makeDirectory | makeDirectoryFails | fetch | fetchFails
  | makeOutputFails | changeModeMissing | changeModeFails | copyFails | cleanFails
  | publishFails | discardFails | unlinkFails | checkGoes | existingFails | checkFails
  | verifyFails => exact .of_same rfl named trivial
  | existing present =>
    refine .of_same rfl named ?_
    rw [beginCheck]
    split
    · exact processOk_afterCheck _ _ _ _
    · trivial
  | checkStops | checkEnds => exact .of_same rfl named (processOk_afterCheck _ _ _ _)
  | remove =>
    refine ⟨trivial, fun name different _ _ => Function.update_of_ne different _ _,
      fun name holds => ?_, Or.inl (Function.update_self _ _ _)⟩
    obtain ⟨different, present⟩ := named name holds
    exact ⟨different, by rw [Function.update_of_ne different]; exact present, Or.inl holds⟩
  | @fetched tmpd =>
    refine .of_same rfl named ?_
    cases tmpd with
    | none =>
      rw [beginVerify]
      split <;> trivial
    | some tmpf =>
      rw [beginVerify]
      split
      · rename_i noLines
        exact processOk_afterVerify (checkHash_of_none noLines tmpf).symm _ _
      · rename_i lines read
        exact (checkHash_of_some read tmpf).symm
  | verifyGoes goes =>
    refine .of_same rfl named ?_
    exact (checkFrom_cons_of_goes goes _ _).symm.trans ok
  | verifyStops stops =>
    refine .of_same rfl named (processOk_afterVerify ?_ _ _)
    exact (checkFrom_cons_of_stop stops _ _).symm.trans ok
  | verifyEnds => exact .of_same rfl named (processOk_afterVerify ok _ _)
  | @makeOutput tmpd _ suffix _ fresh =>
    refine ⟨?_, fun name _ _ others => ?_, fun name holds => ?_,
      Or.inr (Or.inl (Function.update_of_ne (tmpName_ne suffix).symm _ _))⟩
    · cases tmpd with
      | none => trivial
      | some tmpf => exact ⟨ok, Function.update_self _ _ _⟩
    · exact Function.update_of_ne (fun same => others (congrArg some same.symm)) _ _
    · obtain rfl := Option.some.inj holds
      exact ⟨tmpName_ne suffix, by rw [Function.update_self]; exact Option.some_ne_none _,
        Or.inr fresh⟩
  | changeMode =>
    obtain ⟨accepted, empty⟩ := ok
    exact .of_same rfl named ⟨[], empty, accepted⟩
  | @copy _ name byte rest written present =>
    obtain ⟨different, _⟩ := named name rfl
    obtain ⟨content, holds, accepted⟩ := ok
    have same : content = written := Option.some.inj (holds.symm.trans present)
    subst same
    refine ⟨⟨content ++ [byte], Function.update_self _ _ _, ?_⟩, fun other _ others _ => ?_,
      fun other holds => ?_, Or.inr (Or.inl (Function.update_of_ne different.symm _ _))⟩
    · rw [List.append_assoc]
      exact accepted
    · exact Function.update_of_ne (fun same => others (congrArg some same.symm)) _ _
    · obtain rfl := Option.some.inj holds
      exact ⟨different, by rw [Function.update_self]; exact Option.some_ne_none _, Or.inl rfl⟩
  | copied =>
    obtain ⟨written, holds, accepted⟩ := ok
    rw [List.append_nil] at accepted
    exact .of_same rfl named ⟨written, holds, accepted⟩
  | clean => exact .of_same rfl named ok
  | @publish _ name =>
    obtain ⟨different, _⟩ := named name rfl
    obtain ⟨content, holds, accepted⟩ := ok
    refine ⟨trivial, fun other notOutput others _ => ?_, fun other holds =>
      absurd holds.symm (Option.some_ne_none other), ?_⟩
    · rw [Function.update_of_ne (fun same => others (congrArg some same.symm)),
        Function.update_of_ne notOutput]
    · refine Or.inr (Or.inr ⟨content, ?_, accepted⟩)
      rw [Function.update_of_ne different.symm, Function.update_self]
      exact holds
  | discard => exact .of_remove rfl named trivial
  | unlink => exact .of_remove rfl named trivial

end Local

/-! ### Reachable states -/

section Steps

variable {digests : Digests} {args : Nat → HashArgs} {output : Text} {initial : Option Content}

theorem verified_initialState (directory : Directory) :
    Verified digests args output (directory output) (initialState directory) where
  published := Or.inr (Or.inl rfl)
  named _ _ holds := by cases holds
  distinct _ _ _ holds := by cases holds
  processes _ := trivial

/-- A step changes the download directory and one process. -/
theorem Step.exists_local {before after : State} (step : Step digests args output before after) :
    ∃ who, Local digests (args who) output before.directory (before.process who)
        after.directory (after.process who) ∧
      ∀ other, other ≠ who → after.process other = before.process other := by
  obtain ⟨who, directory, process, step, rfl⟩ := step
  refine ⟨who, ?_, fun other different => Function.update_of_ne different _ _⟩
  have self : Function.update before.process who process who = process :=
    Function.update_self _ _ _
  rw [← self] at step
  exact step

/-- A step of one process keeps what the others know: their files are not the output file, and
no other process has them. -/
theorem verified_of_step {before after : State}
    (verified : Verified digests args output initial before)
    (step : Step digests args output before after) :
    Verified digests args output initial after := by
  obtain ⟨who, step, unchanged⟩ := step.exists_local
  have ok := localOk_of_local step (verified.named who) (verified.processes who)
  have others : ∀ other, other ≠ who → ∀ name,
      (before.process other).tmpOutput = some name →
        (after.process who).tmpOutput ≠ some name ∧
          after.directory name = before.directory name := by
    intro other different name holds
    obtain ⟨notOutput, present⟩ := verified.named other name holds
    have notBefore : (before.process who).tmpOutput ≠ some name :=
      fun same => different (verified.distinct other who name holds same)
    have notAfter : (after.process who).tmpOutput ≠ some name := by
      intro same
      rcases (ok.named name same).2.2 with old | free
      · exact notBefore old
      · exact present free
    exact ⟨notAfter, ok.frame name notOutput notBefore notAfter⟩
  refine ⟨?_, fun other name holds => ?_, fun first second name firstHolds secondHolds => ?_,
    fun other => ?_⟩
  · rcases ok.published with gone | same | ⟨content, holds, accepted⟩
    · exact Or.inl gone
    · rw [same]
      exact verified.published
    · exact Or.inr (Or.inr ⟨who, content, holds, accepted⟩)
  · by_cases same : other = who
    · subst same
      exact ⟨(ok.named name holds).1, (ok.named name holds).2.1⟩
    · rw [unchanged other same] at holds
      rw [(others other same name holds).2]
      exact verified.named other name holds
  · by_cases firstSame : first = who <;> by_cases secondSame : second = who
    · rw [firstSame, secondSame]
    · subst firstSame
      rw [unchanged second secondSame] at secondHolds
      exact absurd firstHolds (others second secondSame name secondHolds).1
    · subst secondSame
      rw [unchanged first firstSame] at firstHolds
      exact absurd secondHolds (others first firstSame name firstHolds).1
    · rw [unchanged first firstSame] at firstHolds
      rw [unchanged second secondSame] at secondHolds
      exact verified.distinct first second name firstHolds secondHolds
  · by_cases same : other = who
    · subst same
      exact ok.knows
    · rw [unchanged other same]
      have own : (before.process other).own after.directory =
          (before.process other).own before.directory := by
        rw [Process.own, Process.own]
        cases holds : (before.process other).tmpOutput with
        | none => rfl
        | some name => exact (others other same name holds).2
      rw [own]
      exact verified.processes other

end Steps

/-! ### Where a content comes from -/

/-- The backend of a process has succeeded, and `check-hash` starts. -/
def State.fetched (args : Nat → HashArgs) (state : State) (who : Nat) : State :=
  ⟨state.directory, Function.update state.process who
    { state.process who with phase := beginVerify (args who) }⟩

section History

variable (digests : Digests) (args : Nat → HashArgs) (output : Text) (first : State)

/-- On the way to the last state the backend of the process has succeeded with this content in its
file. -/
def Finished (who : Nat) (content : Content) (last : State) : Prop :=
  ∃ state, Steps digests args output first state ∧ (state.process who).phase = .fetching ∧
    (state.process who).tmpd = some (some content) ∧
    Steps digests args output (state.fetched args who) last

/-- And behind that `check-hash` has accepted the file of the process, with the same content. -/
def Passed (who : Nat) (content : Content) (last : State) : Prop :=
  ∃ state, Finished digests args output first who content state ∧
    (state.process who).phase = .makingOutput ∧
    (state.process who).tmpd = some (some content) ∧ Accepts digests (args who) content ∧
    Steps digests args output state last

/-- What a process has in its files was fetched, and from `mktemp` on it was verified. -/
def ProcessTraced (finished passed : Content → Prop) (own : Option Content) : Process → Prop
  | ⟨.verifying _ _, tmpd, _⟩ => ∀ content, tmpd = some (some content) → finished content
  | ⟨.makingOutput, tmpd, _⟩ | ⟨.changingMode, tmpd, _⟩ =>
    ∀ content, tmpd = some (some content) → passed content
  | ⟨.copying rest, _, _⟩ => ∀ written, own = some written → passed (written ++ rest)
  | ⟨.cleaning, _, _⟩ | ⟨.publishing, _, _⟩ => ∀ content, own = some content → passed content
  | _ => True

/-- The second invariant, over the run from the first state. -/
structure Traced (initial : Option Content) (state : State) : Prop where
  published : state.directory output = none ∨ state.directory output = initial ∨
    ∃ who content, state.directory output = some content ∧
      Passed digests args output first who content state
  processes : ∀ who, ProcessTraced (Finished digests args output first who · state)
    (Passed digests args output first who · state) ((state.process who).own state.directory)
    (state.process who)

end History

section Traced

variable {digests : Digests} {output : Text}

theorem ProcessTraced.mono {finished passed finished' passed' : Content → Prop}
    (keepsFinished : ∀ content, finished content → finished' content)
    (keepsPassed : ∀ content, passed content → passed' content) {own : Option Content}
    {process : Process} (traced : ProcessTraced finished passed own process) :
    ProcessTraced finished' passed' own process := by
  obtain ⟨phase, tmpd, tmpOutput⟩ := process
  cases phase with
  | verifying => exact fun content holds => keepsFinished content (traced content holds)
  | makingOutput | changingMode | cleaning | publishing =>
    exact fun content holds => keepsPassed content (traced content holds)
  | copying => exact fun written holds => keepsPassed _ (traced written holds)
  | _ => trivial

/-- The trace of a process whose check of the download has ended. -/
theorem processTraced_afterVerify {finished passed : Content → Prop} (own : Option Content)
    (code : Nat) (tmpd tmpOutput)
    (traced : ∀ content, tmpd = some (some content) → afterVerify code = .makingOutput →
      passed content) :
    ProcessTraced finished passed own ⟨afterVerify code, tmpd, tmpOutput⟩ := by
  revert traced
  rw [afterVerify]
  split
  · exact fun traced content holds => traced content holds rfl
  · exact fun _ => trivial

theorem processTraced_afterCheck {finished passed : Content → Prop} (own : Option Content)
    (code : Nat) (tmpd tmpOutput) :
    ProcessTraced finished passed own ⟨afterCheck code, tmpd, tmpOutput⟩ := by
  rw [afterCheck]
  split
  · trivial
  · split <;> trivial

/-- What one step makes of the trace: `finished` and `passed` hold of the contents after the step,
and `traced` is what the process had before it. -/
theorem processTraced_of_local {args : HashArgs} {directory after : Directory}
    {process next : Process} {finished passed : Content → Prop}
    (step : Local digests args output directory process after next)
    (ok : ProcessOk digests args (process.own directory) process)
    (traced : ProcessTraced finished passed (process.own directory) process)
    (fetches : ∀ content, process.phase = .fetching → process.tmpd = some (some content) →
      after = directory → next = { process with phase := beginVerify args } → finished content)
    (passes : ∀ content, finished content → next.phase = .makingOutput →
      next.tmpd = some (some content) → passed content) :
    ProcessTraced finished passed (next.own after) next := by
  cases step with
  | existing present =>
    rw [beginCheck]
    split
    · exact processTraced_afterCheck _ _ _ _
    · trivial
  | checkStops | checkEnds => exact processTraced_afterCheck _ _ _ _
  | fetched =>
    have isFinished := fun content holds => fetches content rfl holds rfl rfl
    revert passes
    rw [beginVerify]
    split
    · exact fun passes => processTraced_afterVerify _ _ _ _ fun content holds making =>
        passes content (isFinished content holds) making holds
    · exact fun _ => isFinished
  | verifyGoes => exact traced
  | verifyStops | verifyEnds =>
    exact processTraced_afterVerify _ _ _ _ fun content holds making =>
      passes content (traced content holds) making holds
  | makeOutput => exact traced
  | @changeMode tmpOutput content =>
    intro written holds
    have empty : written = [] := Option.some.inj (holds.symm.trans ok.2)
    rw [empty]
    exact traced content rfl
  | @copy _ name byte rest written present =>
    intro now holds
    have isNow : now = written ++ [byte] := by
      rw [Process.own, Option.bind_some, Function.update_self] at holds
      exact (Option.some.inj holds).symm
    rw [isNow, List.append_assoc]
    exact traced written present
  | copied =>
    intro content holds
    have whole := traced content holds
    rwa [List.append_nil] at whole
  | clean => exact traced
  | _ => trivial

/-- What a step does to the output path. -/
theorem published_of_local {args : HashArgs} {directory after : Directory}
    {process next : Process} (step : Local digests args output directory process after next)
    (named : ∀ name, process.tmpOutput = some name → name ≠ output) :
    after output = none ∨ after output = directory output ∨
      process.phase = .publishing ∧ after output = process.own directory := by
  have removed : ∀ tmpOutput, process.tmpOutput = tmpOutput →
      directory.remove tmpOutput output = directory output := by
    intro tmpOutput holds
    cases tmpOutput with
    | none => rfl
    | some name => exact Function.update_of_ne (named name holds).symm _ _
  cases step with
  | remove => exact Or.inl (Function.update_self _ _ _)
  | makeOutput suffix => exact Or.inr (Or.inl (Function.update_of_ne (tmpName_ne suffix).symm _ _))
  | copy => exact Or.inr (Or.inl (Function.update_of_ne (named _ rfl).symm _ _))
  | publish =>
    refine Or.inr (Or.inr ⟨rfl, ?_⟩)
    rw [Function.update_of_ne (named _ rfl).symm, Function.update_self]
    rfl
  | discard => exact Or.inr (Or.inl (removed _ rfl))
  | unlink => exact Or.inr (Or.inl (removed _ rfl))
  | _ => exact Or.inr (Or.inl rfl)

/-- What is known and traced of a process that renames its file. -/
theorem traced_publishing {args : HashArgs} {finished passed : Content → Prop}
    {own : Option Content} {process : Process} (publishing : process.phase = .publishing)
    (ok : ProcessOk digests args own process) (traced : ProcessTraced finished passed own process) :
    ∃ content, own = some content ∧ passed content := by
  obtain ⟨phase, tmpd, tmpOutput⟩ := process
  cases publishing
  obtain ⟨content, holds, _⟩ := ok
  exact ⟨content, holds, traced content holds⟩

/-- What is known of a process that has verified its file. -/
theorem accepts_of_making {args : HashArgs} {own : Option Content} {process : Process}
    {content : Content} (ok : ProcessOk digests args own process)
    (making : process.phase = .makingOutput) (holds : process.tmpd = some (some content)) :
    Accepts digests args content := by
  obtain ⟨phase, tmpd, tmpOutput⟩ := process
  cases making
  cases holds
  exact ok

variable {args : Nat → HashArgs} {first : State}

theorem Finished.step {who : Nat} {content : Content} {before after : State}
    (finished : Finished digests args output first who content before)
    (step : Step digests args output before after) :
    Finished digests args output first who content after := by
  obtain ⟨state, reached, fetching, holds, later⟩ := finished
  exact ⟨state, reached, fetching, holds, later.tail step⟩

theorem Passed.step {who : Nat} {content : Content} {before after : State}
    (passed : Passed digests args output first who content before)
    (step : Step digests args output before after) :
    Passed digests args output first who content after := by
  obtain ⟨state, finished, making, holds, accepted, later⟩ := passed
  exact ⟨state, finished, making, holds, accepted, later.tail step⟩

/-- A step keeps the second invariant, given the first. -/
theorem traced_of_step {initial : Option Content} {before after : State}
    (reached : Steps digests args output first before)
    (verified : Verified digests args output initial before)
    (traced : Traced digests args output first initial before)
    (step : Step digests args output before after) :
    Traced digests args output first initial after := by
  have verifiedAfter := verified_of_step verified step
  have kept := fun who => (traced.processes who).mono
    (fun _ finished => Finished.step finished step) fun _ passed => Passed.step passed step
  obtain ⟨who, moves, unchanged⟩ := step.exists_local
  have same : ∀ other, other ≠ who → (after.process other).own after.directory =
      (before.process other).own before.directory := by
    intro other different
    rw [unchanged other different, Process.own, Process.own]
    cases holds : (before.process other).tmpOutput with
    | none => rfl
    | some name =>
      have ok := localOk_of_local moves (verified.named who) (verified.processes who)
      have notBefore : (before.process who).tmpOutput ≠ some name := fun isName =>
        different (verified.distinct other who name holds isName)
      have notAfter : (after.process who).tmpOutput ≠ some name := fun isName =>
        different (verifiedAfter.distinct other who name
          ((congrArg Process.tmpOutput (unchanged other different)).trans holds) isName)
      exact ok.frame name (verified.named other name holds).1 notBefore notAfter
  refine ⟨?_, fun other => ?_⟩
  · rcases published_of_local moves fun name holds => (verified.named who name holds).1 with
      gone | stays | ⟨publishing, isOwn⟩
    · exact Or.inl gone
    · rw [stays]
      exact traced.published.imp_right (Or.imp_right fun ⟨other, content, holds, passed⟩ =>
        ⟨other, content, holds, passed.step step⟩)
    · obtain ⟨content, holds, passed⟩ :=
        traced_publishing publishing (verified.processes who) (kept who)
      exact Or.inr (Or.inr ⟨who, content, isOwn.trans holds, passed⟩)
  · by_cases isMover : other = who
    · subst isMover
      refine processTraced_of_local moves (verified.processes other) (kept other) ?_ ?_
      · intro content fetching holds sameDirectory isNext
        have isAfter : before.fetched args other = after := by
          obtain ⟨directory, process⟩ := after
          refine (State.mk.injEq _ _ _ _).mpr ⟨sameDirectory.symm, funext fun one => ?_⟩
          by_cases isOther : one = other
          · rw [isOther, Function.update_self]
            exact isNext.symm
          · rw [Function.update_of_ne isOther]
            exact (unchanged one isOther).symm
        exact ⟨before, reached, fetching, holds, isAfter ▸ .refl⟩
      · intro content finished making holds
        exact ⟨after, finished, making, holds,
          accepts_of_making (verifiedAfter.processes other) making holds, .refl⟩
    · have other' := kept other
      rw [← same other isMover, ← unchanged other isMover] at other'
      exact other'

end Traced

/-- Whatever interleaving of whatever processes ran, the output path is absent, holds what it held
at the start, or holds the content with which the backend of one of the processes has succeeded
and which `check-hash` has then accepted for that process. -/
theorem published_only_verified (digests : Digests) (args : Nat → HashArgs) (output : Text)
    (directory : Directory) (state : State)
    (reached : Steps digests args output (initialState directory) state) :
    state.directory output = none ∨ state.directory output = directory output ∨
      ∃ who content, state.directory output = some content ∧
        Passed digests args output (initialState directory) who content state := by
  have both : Verified digests args output (directory output) state ∧
      Traced digests args output (initialState directory) (directory output) state := by
    induction reached with
    | refl => exact ⟨verified_initialState directory, Or.inr (Or.inl rfl), fun _ => trivial⟩
    | tail reached step inductionHypothesis =>
      obtain ⟨verified, traced⟩ := inductionHypothesis
      exact ⟨verified_of_step verified step, traced_of_step reached verified traced step⟩
  exact both.2.published

/-! ### A download -/

/-- The characters `new`. -/
def newContent : Content := [110, 101, 119]

/-- The characters `old`. -/
def oldContent : Content := [111, 108, 100]

def newHash : Text :=
  "11507a0e2f5e69d5dfa40a62a1bd7b6ee57e6bcd85c67c9b8431b36fff21c437".toList

def oldHash : Text :=
  "cba06b5736faf67e54b07b561eae94395e774c517a7d910a54369e1263ccfbd4".toList

/-- `sha256sum` on the two contents. -/
def sampleDigests : Digests := fun type content =>
  if type = .sha256 ∧ content = newContent then newHash
  else if type = .sha256 ∧ content = oldContent then oldHash
  else []

/-- The file `foo.tar`, whose hash file has the hash of the new content. -/
def sampleArgs : HashArgs :=
  ⟨some ("sha256 ".toList ++ newHash ++ " foo.tar\n".toList), "foo.tar".toList, [], by decide⟩

theorem accepts_newContent : Accepts sampleDigests sampleArgs newContent := by decide +kernel

theorem checkHash_oldContent : checkHash sampleDigests sampleArgs (some oldContent) = 2 := by
  decide +kernel

/-- `published_only_verified` on a download into an empty directory. -/
theorem published_only_verified_download :
    ∃ state, Steps sampleDigests (fun _ => sampleArgs) "dl/foo.tar".toList
        (initialState fun _ => none) state ∧
      state.directory "dl/foo.tar".toList = some newContent ∧
      (state.directory "dl/foo.tar".toList = none ∨ state.directory "dl/foo.tar".toList = none ∨
        ∃ who content, state.directory "dl/foo.tar".toList = some content ∧
          Passed sampleDigests (fun _ => sampleArgs) "dl/foo.tar".toList
            (initialState fun _ => none) who content state) := by
  have download : Steps sampleDigests (fun _ => sampleArgs) "dl/foo.tar".toList
      (initialState fun _ => none) _ :=
    Alone.steps 0
      (.head (.missing rfl) <|
        alone_download (fun _ => none) "a1b2c3".toList accepts_newContent rfl rfl
          none none) rfl
  exact ⟨_, download, rfl,
    published_only_verified sampleDigests (fun _ => sampleArgs) "dl/foo.tar".toList
      (fun _ => none) _ download⟩

end Buildroot4G.Download
