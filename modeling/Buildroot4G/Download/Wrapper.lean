/-
This file models `support/download/dl-wrapper` as a transition system: any number
of processes started for one output path, sharing the download directory, each
with a temporary directory of its own.

A step is one external command, one character copied by `cat`, or one line of
`check-hash` reading the file it checks, so the interleavings are those of the
real processes. Every external command may also fail, and the script runs under
`set -e`: a failure that no test catches makes the process exit, with what it
has created left behind. So may a command of `check-hash`, which then exits with
the status of that command, neither `0` nor `2`. The backend may put anything into its file, at any
time, until it succeeds or fails.

`mktemp` picks a name that no file of the directory has, and `mv` within a
directory is atomic. A process number that never takes a step is a process that
was not started.
-/

import Mathlib.Logic.Relation
import Mathlib.Logic.Function.Basic
import Buildroot4G.Download.CheckHash

namespace Buildroot4G.Download

open Shell

/-- The files of the download directory. -/
abbrev Directory := Text → Option Content

/-- Where in the script a process is. -/
inductive Phase where
  | start
  | checking (lines : List HashLine) (checks : Nat)
  | removing
  | makingDirectory
  | fetching
  | verifying (lines : List HashLine) (checks : Nat)
  | makingOutput
  | changingMode
  | copying (rest : Content)
  | cleaning
  | publishing
  | discarding
  | unlinking
  | exited (code : Nat)
  deriving DecidableEq

/-- A process: its phase, its temporary directory (with the file `output` in it, when the backend
has created it) and the name of its temporary output file, while they exist. -/
structure Process where
  phase : Phase
  tmpd : Option (Option Content)
  tmpOutput : Option Text
  deriving DecidableEq

/-- The download directory and the processes. -/
structure State where
  directory : Directory
  process : Nat → Process

/-! ### The script -/

/-- What follows the check of an existing output file: exit, or a new download after a
mismatch. -/
def afterCheck (code : Nat) : Phase :=
  if code = 0 then .exited 0 else if code ≠ 2 then .exited 1 else .removing

/-- What follows the check of the downloaded file. -/
def afterVerify (code : Nat) : Phase := if code = 0 then .makingOutput else .discarding

/-- `check-hash` starts to read the existing output file. -/
def beginCheck (args : HashArgs) : Phase :=
  match hashLines args with
  | none => afterCheck 0
  | some lines => .checking lines 0

/-- `check-hash` starts to read the downloaded file. -/
def beginVerify (args : HashArgs) : Phase :=
  match hashLines args with
  | none => afterVerify 0
  | some lines => .verifying lines 0

/-- `mktemp "${output}.XXXXXX"`. -/
def tmpName (output suffix : Text) : Text := output ++ '.' :: suffix

/-- A file the directory loses, when there is one. -/
def Directory.remove (directory : Directory) : Option Text → Directory
  | none => directory
  | some name => Function.update directory name none

/-- One step of one process: the download directory and the process before and after. -/
inductive Local (digests : Digests) (args : HashArgs) (output : Text) :
    Directory → Process → Directory → Process → Prop
  -- the test for an existing file, and check-hash on it
  | missing {directory tmpd tmpOutput} (absent : directory output = none) :
      Local digests args output directory ⟨.start, tmpd, tmpOutput⟩
        directory ⟨.makingDirectory, tmpd, tmpOutput⟩
  | existing {directory tmpd tmpOutput content} (present : directory output = some content) :
      Local digests args output directory ⟨.start, tmpd, tmpOutput⟩
        directory ⟨beginCheck args, tmpd, tmpOutput⟩
  | checkGoes {directory tmpd tmpOutput line rest checks}
      (goes : ∀ code, checkLine digests args.base line (directory output) ≠ .stop code) :
      Local digests args output directory ⟨.checking (line :: rest) checks, tmpd, tmpOutput⟩
        directory ⟨.checking rest
          ((checkLine digests args.base line (directory output)).count checks), tmpd, tmpOutput⟩
  | checkStops {directory tmpd tmpOutput line rest checks code}
      (stops : checkLine digests args.base line (directory output) = .stop code) :
      Local digests args output directory ⟨.checking (line :: rest) checks, tmpd, tmpOutput⟩
        directory ⟨afterCheck code, tmpd, tmpOutput⟩
  | checkEnds {directory tmpd tmpOutput checks} :
      Local digests args output directory ⟨.checking [] checks, tmpd, tmpOutput⟩
        directory ⟨afterCheck (checkEnd args checks), tmpd, tmpOutput⟩
  -- check-hash itself fails, with another status than 0 and 2
  | existingFails {directory tmpd tmpOutput content} (present : directory output = some content) :
      Local digests args output directory ⟨.start, tmpd, tmpOutput⟩
        directory ⟨.exited 1, tmpd, tmpOutput⟩
  | checkFails {directory lines checks tmpd tmpOutput} :
      Local digests args output directory ⟨.checking lines checks, tmpd, tmpOutput⟩
        directory ⟨.exited 1, tmpd, tmpOutput⟩
  | remove {directory tmpd tmpOutput} :
      Local digests args output directory ⟨.removing, tmpd, tmpOutput⟩
        (Function.update directory output none) ⟨.makingDirectory, tmpd, tmpOutput⟩
  | removeFails {directory tmpd tmpOutput} :
      Local digests args output directory ⟨.removing, tmpd, tmpOutput⟩
        directory ⟨.exited 1, tmpd, tmpOutput⟩
  -- the temporary directory and the backend
  | makeDirectory {directory tmpd tmpOutput} :
      Local digests args output directory ⟨.makingDirectory, tmpd, tmpOutput⟩
        directory ⟨.fetching, some none, tmpOutput⟩
  | makeDirectoryFails {directory tmpd tmpOutput} :
      Local digests args output directory ⟨.makingDirectory, tmpd, tmpOutput⟩
        directory ⟨.exited 1, tmpd, tmpOutput⟩
  | fetch {directory tmpd tmpOutput} (tmpf : Option Content) :
      Local digests args output directory ⟨.fetching, some tmpd, tmpOutput⟩
        directory ⟨.fetching, some tmpf, tmpOutput⟩
  | fetched {directory tmpd tmpOutput} :
      Local digests args output directory ⟨.fetching, tmpd, tmpOutput⟩
        directory ⟨beginVerify args, tmpd, tmpOutput⟩
  | fetchFails {directory tmpd tmpOutput} :
      Local digests args output directory ⟨.fetching, tmpd, tmpOutput⟩
        directory ⟨.discarding, tmpd, tmpOutput⟩
  -- check-hash on the downloaded file
  | verifyGoes {directory tmpf tmpOutput line rest checks}
      (goes : ∀ code, checkLine digests args.base line tmpf ≠ .stop code) :
      Local digests args output directory ⟨.verifying (line :: rest) checks, some tmpf, tmpOutput⟩
        directory ⟨.verifying rest ((checkLine digests args.base line tmpf).count checks),
          some tmpf, tmpOutput⟩
  | verifyStops {directory tmpf tmpOutput line rest checks code}
      (stops : checkLine digests args.base line tmpf = .stop code) :
      Local digests args output directory ⟨.verifying (line :: rest) checks, some tmpf, tmpOutput⟩
        directory ⟨afterVerify code, some tmpf, tmpOutput⟩
  | verifyEnds {directory tmpf tmpOutput checks} :
      Local digests args output directory ⟨.verifying [] checks, some tmpf, tmpOutput⟩
        directory ⟨afterVerify (checkEnd args checks), some tmpf, tmpOutput⟩
  | verifyFails {directory lines checks tmpd tmpOutput} :
      Local digests args output directory ⟨.verifying lines checks, tmpd, tmpOutput⟩
        directory ⟨.discarding, tmpd, tmpOutput⟩
  -- the temporary output file
  | makeOutput {directory tmpd tmpOutput} (suffix : Text) (six : suffix.length = 6)
      (fresh : directory (tmpName output suffix) = none) :
      Local digests args output directory ⟨.makingOutput, tmpd, tmpOutput⟩
        (Function.update directory (tmpName output suffix) (some []))
        ⟨.changingMode, tmpd, some (tmpName output suffix)⟩
  | makeOutputFails {directory tmpd tmpOutput} :
      Local digests args output directory ⟨.makingOutput, tmpd, tmpOutput⟩
        directory ⟨.exited 1, tmpd, tmpOutput⟩
  | changeMode {directory tmpOutput content} :
      Local digests args output directory ⟨.changingMode, some (some content), tmpOutput⟩
        directory ⟨.copying content, some (some content), tmpOutput⟩
  | changeModeMissing {directory tmpOutput} :
      Local digests args output directory ⟨.changingMode, some none, tmpOutput⟩
        directory ⟨.discarding, some none, tmpOutput⟩
  | changeModeFails {directory tmpd tmpOutput} :
      Local digests args output directory ⟨.changingMode, tmpd, tmpOutput⟩
        directory ⟨.exited 1, tmpd, tmpOutput⟩
  | copy {directory tmpd name byte rest written} (exists' : directory name = some written) :
      Local digests args output directory ⟨.copying (byte :: rest), tmpd, some name⟩
        (Function.update directory name (some (written ++ [byte])))
        ⟨.copying rest, tmpd, some name⟩
  | copied {directory tmpd tmpOutput} :
      Local digests args output directory ⟨.copying [], tmpd, tmpOutput⟩
        directory ⟨.cleaning, tmpd, tmpOutput⟩
  | copyFails {directory rest tmpd tmpOutput} :
      Local digests args output directory ⟨.copying rest, tmpd, tmpOutput⟩
        directory ⟨.discarding, tmpd, tmpOutput⟩
  -- the end: remove the temporary directory and rename
  | clean {directory tmpd tmpOutput} :
      Local digests args output directory ⟨.cleaning, tmpd, tmpOutput⟩
        directory ⟨.publishing, none, tmpOutput⟩
  | cleanFails {directory tmpd tmpOutput} :
      Local digests args output directory ⟨.cleaning, tmpd, tmpOutput⟩
        directory ⟨.exited 1, tmpd, tmpOutput⟩
  | publish {directory tmpd name} :
      Local digests args output directory ⟨.publishing, tmpd, some name⟩
        (Function.update (Function.update directory output (directory name)) name none)
        ⟨.exited 0, tmpd, none⟩
  | publishFails {directory tmpd tmpOutput} :
      Local digests args output directory ⟨.publishing, tmpd, tmpOutput⟩
        directory ⟨.unlinking, tmpd, tmpOutput⟩
  -- the error paths
  | discard {directory tmpd tmpOutput} :
      Local digests args output directory ⟨.discarding, tmpd, tmpOutput⟩
        (directory.remove tmpOutput) ⟨.exited 1, none, none⟩
  | discardFails {directory tmpd tmpOutput} :
      Local digests args output directory ⟨.discarding, tmpd, tmpOutput⟩
        directory ⟨.exited 1, tmpd, tmpOutput⟩
  | unlink {directory tmpd tmpOutput} :
      Local digests args output directory ⟨.unlinking, tmpd, tmpOutput⟩
        (directory.remove tmpOutput) ⟨.exited 1, tmpd, none⟩
  | unlinkFails {directory tmpd tmpOutput} :
      Local digests args output directory ⟨.unlinking, tmpd, tmpOutput⟩
        directory ⟨.exited 1, tmpd, tmpOutput⟩

/-! ### Interleavings -/

/-- A step of the system is a step of one process. -/
def Step (digests : Digests) (args : Nat → HashArgs) (output : Text) (before after : State) :
    Prop :=
  ∃ who directory process,
    Local digests (args who) output before.directory (before.process who) directory process ∧
      after = ⟨directory, Function.update before.process who process⟩

/-- Any number of steps, of any processes in any order. -/
def Steps (digests : Digests) (args : Nat → HashArgs) (output : Text) : State → State → Prop :=
  Relation.ReflTransGen (Step digests args output)

/-- All processes at their start, over a download directory. -/
def initialState (directory : Directory) : State := ⟨directory, fun _ => ⟨.start, none, none⟩⟩

/-- A property that holds at the start and that every step keeps holds in every reachable
state. -/
theorem invariant_of_steps {digests : Digests} {args : Nat → HashArgs} {output : Text}
    (invariant : State → Prop)
    (keeps : ∀ before after, invariant before → Step digests args output before after →
      invariant after)
    {first last : State} (holds : invariant first)
    (steps : Steps digests args output first last) : invariant last := by
  induction steps with
  | refl => exact holds
  | tail _ step inductionHypothesis => exact keeps _ _ inductionHypothesis step

end Buildroot4G.Download
