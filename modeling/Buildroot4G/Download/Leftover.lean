/-
This file proves when a process of `dl-wrapper` exits without its temporaries. Failures of the
backend, of the checks, of `cat` and of `mv` are tested, and the branches behind the tests remove
what was created. Other commands that run while there are temporaries are left to `set -e`: the
second `mktemp`, `chmod` and the `rm` of a download that went well; and an `rm` of an error
path may fail. A process that exits leaves nothing exactly when none of these has failed for it.
-/

import Buildroot4G.Download.Published

namespace Buildroot4G.Download

open Shell

/-! ### Runs with their steps -/

/-- A step of a process, which it finds and leaves as given. -/
structure Event where
  who : Nat
  before : Process
  after : Process

/-- The events of a run, the latest one first. -/
inductive Run (digests : Digests) (args : Nat → HashArgs) (output : Text) (first : State) :
    List Event → State → Prop
  | start : Run digests args output first [] first
  | step {events before who directory process} (run : Run digests args output first events before)
      (moves : Local digests (args who) output before.directory (before.process who)
        directory process) :
      Run digests args output first (⟨who, before.process who, process⟩ :: events)
        ⟨directory, Function.update before.process who process⟩

section Run

variable {digests : Digests} {args : Nat → HashArgs} {output : Text} {first last : State}

theorem Run.steps {events : List Event} (run : Run digests args output first events last) :
    Steps digests args output first last := by
  induction run with
  | start => exact .refl
  | step _ moves inductionHypothesis => exact inductionHypothesis.tail ⟨_, _, _, moves, rfl⟩

/-- The runs with their events are the runs. -/
theorem exists_run_iff :
    (∃ events, Run digests args output first events last) ↔
      Steps digests args output first last := by
  refine ⟨fun ⟨_, run⟩ => run.steps, fun steps => ?_⟩
  induction steps with
  | refl => exact ⟨[], .start⟩
  | tail _ step inductionHypothesis =>
    obtain ⟨events, run⟩ := inductionHypothesis
    obtain ⟨who, directory, process, moves, rfl⟩ := step
    exact ⟨_, run.step moves⟩

end Run

/-! ### The commands whose failure leaves something -/

/-- The temporary directory of the process is gone, and so is its temporary output file. -/
def LeavesNothing (state : State) (who : Nat) : Prop :=
  (state.process who).tmpd = none ∧
    ∀ name, (state.process who).tmpOutput = some name → state.directory name = none

/-- A command fails that runs while there are temporaries and that nothing tests, or an `rm` of an
error path. -/
inductive Unhandled : Process → Process → Prop
  | makeOutput {tmpd tmpOutput} :
      Unhandled ⟨.makingOutput, tmpd, tmpOutput⟩ ⟨.exited 1, tmpd, tmpOutput⟩
  | changeMode {tmpd tmpOutput} :
      Unhandled ⟨.changingMode, tmpd, tmpOutput⟩ ⟨.exited 1, tmpd, tmpOutput⟩
  | clean {tmpd tmpOutput} : Unhandled ⟨.cleaning, tmpd, tmpOutput⟩ ⟨.exited 1, tmpd, tmpOutput⟩
  | discard {tmpd tmpOutput} : Unhandled ⟨.discarding, tmpd, tmpOutput⟩ ⟨.exited 1, tmpd, tmpOutput⟩
  | unlink {tmpd tmpOutput} : Unhandled ⟨.unlinking, tmpd, tmpOutput⟩ ⟨.exited 1, tmpd, tmpOutput⟩

/-- No step of the process was such a failure. -/
def NoneUnhandled (who : Nat) (events : List Event) : Prop :=
  ∀ event ∈ events, event.who = who → ¬Unhandled event.before event.after

/-- What a process has created, by its phase; `sound` says that none of its commands has
failed in that way. -/
def Holds (sound : Prop) : Process → Prop
  | ⟨.start, tmpd, tmpOutput⟩ | ⟨.checking _ _, tmpd, tmpOutput⟩ | ⟨.removing, tmpd, tmpOutput⟩
  | ⟨.makingDirectory, tmpd, tmpOutput⟩ => sound ∧ tmpd = none ∧ tmpOutput = none
  | ⟨.fetching, tmpd, tmpOutput⟩ | ⟨.verifying _ _, tmpd, tmpOutput⟩
  | ⟨.makingOutput, tmpd, tmpOutput⟩ => sound ∧ tmpd ≠ none ∧ tmpOutput = none
  | ⟨.changingMode, tmpd, tmpOutput⟩ | ⟨.copying _, tmpd, tmpOutput⟩
  | ⟨.cleaning, tmpd, tmpOutput⟩ => sound ∧ tmpd ≠ none ∧ tmpOutput ≠ none
  | ⟨.publishing, tmpd, tmpOutput⟩ | ⟨.unlinking, tmpd, tmpOutput⟩ =>
    sound ∧ tmpd = none ∧ tmpOutput ≠ none
  | ⟨.discarding, tmpd, _⟩ => sound ∧ tmpd ≠ none
  | ⟨.exited _, tmpd, tmpOutput⟩ => tmpd = none ∧ tmpOutput = none ↔ sound

theorem Holds.mono {sound sound' : Prop} (same : sound ↔ sound') {process : Process}
    (holds : Holds sound process) : Holds sound' process := by
  rwa [← propext same]

section Local

variable {digests : Digests} {args : HashArgs} {output : Text} {sound : Prop}

theorem holds_afterCheck (isSound : sound) (code : Nat) :
    Holds sound ⟨afterCheck code, none, none⟩ := by
  rw [afterCheck]
  split
  · exact iff_of_true ⟨rfl, rfl⟩ isSound
  · split
    · exact iff_of_true ⟨rfl, rfl⟩ isSound
    · exact ⟨isSound, rfl, rfl⟩

theorem holds_afterVerify (isSound : sound) (code : Nat) {tmpd : Option (Option Content)}
    (created : tmpd ≠ none) : Holds sound ⟨afterVerify code, tmpd, none⟩ := by
  rw [afterVerify]
  split
  · exact ⟨isSound, created, rfl⟩
  · exact ⟨isSound, created⟩

/-- What one step makes of the temporaries. -/
theorem holds_of_local {directory after : Directory} {process next : Process}
    (step : Local digests args output directory process after next)
    (holds : Holds sound process) : Holds (sound ∧ ¬Unhandled process next) next := by
  cases step with
  | missing | checkGoes | remove =>
    obtain ⟨isSound, rfl, rfl⟩ := holds
    exact ⟨⟨isSound, fun fails => by cases fails⟩, rfl, rfl⟩
  | existing =>
    obtain ⟨isSound, rfl, rfl⟩ := holds
    have sounds : sound ∧ ¬Unhandled ⟨.start, none, none⟩ ⟨beginCheck args, none, none⟩ :=
      ⟨isSound, fun fails => by cases fails⟩
    revert sounds
    rw [beginCheck]
    split
    · exact fun sounds => holds_afterCheck sounds 0
    · exact fun sounds => ⟨sounds, rfl, rfl⟩
  | checkStops | checkEnds =>
    obtain ⟨isSound, rfl, rfl⟩ := holds
    exact holds_afterCheck ⟨isSound, fun fails => by cases fails⟩ _
  | existingFails | checkFails | removeFails | makeDirectoryFails =>
    obtain ⟨isSound, rfl, rfl⟩ := holds
    exact iff_of_true ⟨rfl, rfl⟩ ⟨isSound, fun fails => by cases fails⟩
  | makeDirectory =>
    obtain ⟨isSound, -, rfl⟩ := holds
    exact ⟨⟨isSound, fun fails => by cases fails⟩, Option.some_ne_none _, rfl⟩
  | fetch | verifyGoes =>
    obtain ⟨isSound, -, rfl⟩ := holds
    exact ⟨⟨isSound, fun fails => by cases fails⟩, Option.some_ne_none _, rfl⟩
  | @fetched tmpd =>
    obtain ⟨isSound, created, rfl⟩ := holds
    have sounds : sound ∧ ¬Unhandled ⟨.fetching, tmpd, none⟩ ⟨beginVerify args, tmpd, none⟩ :=
      ⟨isSound, fun fails => by cases fails⟩
    revert sounds
    rw [beginVerify]
    split
    · exact fun sounds => holds_afterVerify sounds 0 created
    · exact fun sounds => ⟨sounds, created, rfl⟩
  | verifyStops | verifyEnds =>
    obtain ⟨isSound, created, rfl⟩ := holds
    exact holds_afterVerify ⟨isSound, fun fails => by cases fails⟩ _ created
  | fetchFails | verifyFails | changeModeMissing | copyFails =>
    exact ⟨⟨holds.1, fun fails => by cases fails⟩, holds.2.1⟩
  | makeOutput =>
    obtain ⟨isSound, created, -⟩ := holds
    exact ⟨⟨isSound, fun fails => by cases fails⟩, created, Option.some_ne_none _⟩
  | changeMode | copy | copied =>
    exact ⟨⟨holds.1, fun fails => by cases fails⟩, holds.2⟩
  | clean =>
    exact ⟨⟨holds.1, fun fails => by cases fails⟩, rfl, holds.2.2⟩
  | publishFails =>
    exact ⟨⟨holds.1, fun fails => by cases fails⟩, holds.2⟩
  | publish =>
    obtain ⟨isSound, rfl, -⟩ := holds
    exact iff_of_true ⟨rfl, rfl⟩ ⟨isSound, fun fails => by cases fails⟩
  | discard =>
    refine iff_of_true ⟨rfl, rfl⟩ ⟨holds.1, fun fails => ?_⟩
    cases fails
    exact holds.2 rfl
  | unlink =>
    obtain ⟨isSound, rfl, created⟩ := holds
    refine iff_of_true ⟨rfl, rfl⟩ ⟨isSound, fun fails => ?_⟩
    cases fails
    exact created rfl
  -- the failures
  | makeOutputFails =>
    exact iff_of_false (fun none => holds.2.1 none.1) fun sounds => sounds.2 .makeOutput
  | changeModeFails =>
    exact iff_of_false (fun none => holds.2.1 none.1) fun sounds => sounds.2 .changeMode
  | cleanFails =>
    exact iff_of_false (fun none => holds.2.1 none.1) fun sounds => sounds.2 .clean
  | discardFails =>
    exact iff_of_false (fun none => holds.2 none.1) fun sounds => sounds.2 .discard
  | unlinkFails =>
    exact iff_of_false (fun none => holds.2.2 none.2) fun sounds => sounds.2 .unlink

end Local

/-! ### Whole runs -/

section Run

variable {digests : Digests} {args : Nat → HashArgs} {output : Text} {directory : Directory}
  {events : List Event} {last : State}

theorem holds_of_run (run : Run digests args output (initialState directory) events last)
    (who : Nat) : Holds (NoneUnhandled who events) (last.process who) := by
  induction run with
  | start =>
    exact ⟨fun event member => absurd member List.not_mem_nil, rfl, rfl⟩
  | @step events before mover directory process _ moves inductionHypothesis =>
    have same : NoneUnhandled who (⟨mover, before.process mover, process⟩ :: events) ↔
        NoneUnhandled who events ∧ (mover = who → ¬Unhandled (before.process mover) process) := by
      rw [NoneUnhandled, List.forall_mem_cons, and_comm]
      exact Iff.rfl
    by_cases isMover : who = mover
    · subst isMover
      change Holds _ (Function.update before.process who process who)
      rw [Function.update_self]
      refine (holds_of_local moves inductionHypothesis).mono ?_
      rw [same, imp_iff_right rfl]
    · change Holds _ (Function.update before.process mover process who)
      rw [Function.update_of_ne isMover]
      refine inductionHypothesis.mono ?_
      rw [same]
      exact (and_iff_left fun isWho => absurd isWho.symm isMover).symm

/-- A process that has exited leaves nothing exactly when no such command of it has failed,
whatever else failed and whatever the other processes did. -/
theorem leavesNothing_iff
    (run : Run digests args output (initialState directory) events last) (who code : Nat)
    (exits : (last.process who).phase = .exited code) :
    LeavesNothing last who ↔ NoneUnhandled who events := by
  have verified := invariant_of_steps (Verified digests args output (directory output))
    (fun _ _ => verified_of_step) (verified_initialState directory) run.steps
  have holds := holds_of_run run who
  have named := verified.named who
  rw [LeavesNothing]
  revert exits holds named
  generalize last.process who = process
  obtain ⟨phase, tmpd, tmpOutput⟩ := process
  rintro rfl holds named
  refine Iff.trans (and_congr_right fun _ => ?_) holds
  cases tmpOutput with
  | none => exact iff_of_true (fun name isName => by cases isName) rfl
  | some name =>
    exact iff_of_false (fun gone => (named name rfl).2 (gone name rfl)) (Option.some_ne_none name)

end Run

/-- A download in which every command succeeds. -/
theorem leavesNothing_iff_download : ∃ events last,
    Run sampleDigests (fun _ => sampleArgs) "dl/foo.tar".toList (initialState fun _ => none)
        events last ∧
      (last.process 0).phase = .exited 0 ∧ LeavesNothing last 0 ∧ NoneUnhandled 0 events := by
  have download : Steps sampleDigests (fun _ => sampleArgs) "dl/foo.tar".toList
      (initialState fun _ => none) _ :=
    Alone.steps 0
      (.head (.missing rfl) <|
        alone_download (fun _ => none) "a1b2c3".toList accepts_newContent rfl rfl none none) rfl
  obtain ⟨events, run⟩ := exists_run_iff.mpr download
  refine ⟨events, _, run, rfl, ⟨rfl, fun name isName => by cases isName⟩, ?_⟩
  exact (leavesNothing_iff run 0 0 rfl).mp ⟨rfl, fun name isName => by cases isName⟩

theorem fooTar_ne_nil : "foo.tar".toList ≠ [] := by decide

/-- The same file without hashes. -/
def uncheckedArgs : HashArgs := ⟨none, "foo.tar".toList, [], fooTar_ne_nil⟩

/-- `chmod` fails: the process exits, and both temporaries stay. -/
theorem leaves_output_file : ∃ events last,
    Run sampleDigests (fun _ => uncheckedArgs) "dl/foo.tar".toList (initialState fun _ => none)
        events last ∧
      (last.process 0).phase = .exited 1 ∧ (last.process 0).tmpd ≠ none ∧
      last.directory "dl/foo.tar.a1b2c3".toList ≠ none ∧ ¬LeavesNothing last 0 := by
  have alone : Alone sampleDigests uncheckedArgs "dl/foo.tar".toList
      (fun _ => none, ⟨.start, none, none⟩) _ :=
    .head (.missing rfl) <| .head .makeDirectory <| .head (.fetch (some newContent)) <|
      .head .fetched <| .head (.makeOutput "a1b2c3".toList rfl rfl) <| .head .changeModeFails .refl
  obtain ⟨events, run⟩ := exists_run_iff.mpr
    (Alone.steps 0 alone rfl : Steps _ (fun _ => uncheckedArgs) _ (initialState fun _ => none) _)
  refine ⟨events, _, run, rfl, ?_, ?_, fun gone => ?_⟩
  · exact Option.some_ne_none _
  · exact fun gone => by cases gone
  · cases gone.1

end Buildroot4G.Download
