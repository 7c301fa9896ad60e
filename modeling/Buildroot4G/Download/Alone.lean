/-
This file runs one process of `dl-wrapper` while the others wait. A check that
nothing disturbs ends with the status of `check-hash` on the file, and a process
whose backend fetches an accepted content can publish it, leaving every other file
of the download directory as it was.
-/

import Buildroot4G.Download.Wrapper

namespace Buildroot4G.Download

open Shell

/-- Steps of one process, nothing else moving. -/
def Alone (digests : Digests) (args : HashArgs) (output : Text) :
    Directory × Process → Directory × Process → Prop :=
  Relation.ReflTransGen fun before after =>
    Local digests args output before.1 before.2 after.1 after.2

theorem Alone.head {digests : Digests} {args : HashArgs} {output : Text}
    {before after : Directory} {process next : Process} {last : Directory × Process}
    (step : Local digests args output before process after next)
    (rest : Alone digests args output (after, next) last) :
    Alone digests args output (before, process) last :=
  Relation.ReflTransGen.head (r := fun before after : Directory × Process =>
    Local digests args output before.1 before.2 after.1 after.2) step rest

theorem Alone.trans {digests : Digests} {args : HashArgs} {output : Text}
    {first second third : Directory × Process} (before : Alone digests args output first second)
    (after : Alone digests args output second third) : Alone digests args output first third :=
  Relation.ReflTransGen.trans before after

/-- The state when one process has moved. -/
def State.move (state : State) (who : Nat) (last : Directory × Process) : State :=
  ⟨last.1, Function.update state.process who last.2⟩

@[simp] theorem State.process_move (state : State) (who : Nat) (last : Directory × Process) :
    (state.move who last).process who = last.2 :=
  Function.update_self _ _ _

theorem State.process_move_of_ne (state : State) {who other : Nat} (different : other ≠ who)
    (last : Directory × Process) : (state.move who last).process other = state.process other :=
  Function.update_of_ne different _ _

/-- Steps of one process are steps of the system, whatever the others are waiting for. -/
theorem Alone.steps {digests : Digests} {args : Nat → HashArgs} {output : Text} {state : State}
    (who : Nat) {process : Process} {last : Directory × Process}
    (alone : Alone digests (args who) output (state.directory, process) last)
    (here : state.process who = process) :
    Steps digests args output state (state.move who last) := by
  induction alone with
  | refl =>
    rw [State.move, ← here, Function.update_eq_self]
    exact .refl
  | @tail before after _ step inductionHypothesis =>
    refine inductionHypothesis.tail ⟨who, after.1, after.2, ?_, ?_⟩
    · rw [State.process_move]
      exact step
    · rw [State.move, State.move, Function.update_idem]

section Alone

variable {digests : Digests} {args : HashArgs} {output : Text}

/-- The check of the existing file, line after line. -/
theorem alone_checking (directory : Directory) (lines : List HashLine) (checks : Nat)
    (tmpd : Option (Option Content)) (tmpOutput : Option Text) :
    Alone digests args output (directory, ⟨.checking lines checks, tmpd, tmpOutput⟩)
      (directory, ⟨afterCheck (checkFrom digests args (directory output) lines checks),
        tmpd, tmpOutput⟩) := by
  induction lines generalizing checks with
  | nil => exact .head .checkEnds .refl
  | cons line rest inductionHypothesis =>
    by_cases goes : ∀ code, checkLine digests args.base line (directory output) ≠ .stop code
    · rw [checkFrom_cons_of_goes goes]
      exact .head (.checkGoes goes) (inductionHypothesis _)
    · push Not at goes
      obtain ⟨code, stops⟩ := goes
      rw [checkFrom_cons_of_stop stops]
      exact .head (.checkStops stops) .refl

variable (digests args) in
/-- The check of the existing file ends with the status of `check-hash`. -/
theorem alone_check {directory : Directory} {content : Content}
    (present : directory output = some content) (tmpd : Option (Option Content))
    (tmpOutput : Option Text) :
    Alone digests args output (directory, ⟨.start, tmpd, tmpOutput⟩)
      (directory, ⟨afterCheck (checkHash digests args (some content)), tmpd, tmpOutput⟩) := by
  refine .head (.existing present) ?_
  cases read : hashLines args with
  | none =>
    rw [beginCheck, read, checkHash_of_none read]
    exact .refl
  | some lines =>
    rw [beginCheck, read, checkHash_of_some read, ← present]
    exact alone_checking directory lines 0 tmpd tmpOutput

/-- The check of the downloaded file, line after line. -/
theorem alone_verifying (directory : Directory) (tmpf : Option Content)
    (lines : List HashLine) (checks : Nat) (tmpOutput : Option Text) :
    Alone digests args output (directory, ⟨.verifying lines checks, some tmpf, tmpOutput⟩)
      (directory, ⟨afterVerify (checkFrom digests args tmpf lines checks),
        some tmpf, tmpOutput⟩) := by
  induction lines generalizing checks with
  | nil => exact .head .verifyEnds .refl
  | cons line rest inductionHypothesis =>
    by_cases goes : ∀ code, checkLine digests args.base line tmpf ≠ .stop code
    · rw [checkFrom_cons_of_goes goes]
      exact .head (.verifyGoes goes) (inductionHypothesis _)
    · push Not at goes
      obtain ⟨code, stops⟩ := goes
      rw [checkFrom_cons_of_stop stops]
      exact .head (.verifyStops stops) .refl

variable (digests args output) in
/-- The check of the downloaded file ends with the status of `check-hash`. -/
theorem alone_verify (directory : Directory) (tmpf : Option Content) (tmpOutput : Option Text) :
    Alone digests args output (directory, ⟨beginVerify args, some tmpf, tmpOutput⟩)
      (directory, ⟨afterVerify (checkHash digests args tmpf), some tmpf, tmpOutput⟩) := by
  cases read : hashLines args with
  | none =>
    rw [beginVerify, read, checkHash_of_none read]
    exact .refl
  | some lines =>
    rw [beginVerify, read, checkHash_of_some read]
    exact alone_verifying directory tmpf lines 0 tmpOutput

variable (digests args output) in
/-- `cat` appends the whole content to the temporary output file. -/
theorem alone_copy (directory : Directory) {name : Text} {written : Content}
    (present : directory name = some written) (rest : Content)
    (tmpd : Option (Option Content)) :
    Alone digests args output (directory, ⟨.copying rest, tmpd, some name⟩)
      (Function.update directory name (some (written ++ rest)),
        ⟨.copying [], tmpd, some name⟩) := by
  induction rest generalizing directory written with
  | nil =>
    rw [List.append_nil, ← present, Function.update_eq_self]
    exact .refl
  | cons byte rest inductionHypothesis =>
    refine .head (.copy present) ?_
    have copied := inductionHypothesis (Function.update directory name (some (written ++ [byte])))
      (Function.update_self _ _ _)
    rw [Function.update_idem, List.append_assoc] at copied
    exact copied

theorem tmpName_ne (suffix : Text) : tmpName output suffix ≠ output := by
  intro same
  have lengths := congrArg List.length same
  rw [tmpName, List.length_append, List.length_cons] at lengths
  omega

/-- The temporary output file becomes the output file. -/
theorem publish_eq {directory : Directory} {suffix : Text} (content : Content)
    (fresh : directory (tmpName output suffix) = none) :
    Function.update
        (Function.update
          (Function.update directory (tmpName output suffix) (some content)) output (some content))
        (tmpName output suffix) none =
      Function.update directory output (some content) := by
  funext name
  by_cases temporary : name = tmpName output suffix
  · rw [temporary, Function.update_self, Function.update_of_ne (tmpName_ne suffix), fresh]
  · rw [Function.update_of_ne temporary]
    by_cases same : name = output
    · rw [same, Function.update_self, Function.update_self]
    · rw [Function.update_of_ne same, Function.update_of_ne temporary, Function.update_of_ne same]

/-- A process whose backend fetches an accepted content can publish it, and changes nothing
else. -/
theorem alone_download (directory : Directory) {content : Content} (suffix : Text)
    (accepted : Accepts digests args content) (six : suffix.length = 6)
    (fresh : directory (tmpName output suffix) = none) (tmpd : Option (Option Content))
    (tmpOutput : Option Text) :
    Alone digests args output (directory, ⟨.makingDirectory, tmpd, tmpOutput⟩)
      (Function.update directory output (some content), ⟨.exited 0, none, none⟩) := by
  have verified := alone_verify digests args output directory (some content) tmpOutput
  rw [show checkHash digests args (some content) = 0 from accepted] at verified
  have copied := alone_copy digests args output
    (Function.update directory (tmpName output suffix) (some [])) (Function.update_self _ _ _)
    content (some (some content))
  rw [Function.update_idem, List.nil_append] at copied
  have published : Local digests args output
      (Function.update directory (tmpName output suffix) (some content))
      ⟨.publishing, none, some (tmpName output suffix)⟩ _ _ := .publish
  rw [Function.update_self, publish_eq content fresh] at published
  exact .head .makeDirectory <| .head (.fetch (some content)) <| .head .fetched <|
    verified.trans <| .head (.makeOutput suffix six fresh) <| .head .changeMode <|
    copied.trans <| .head .copied <| .head .clean <| .head published .refl

end Alone

end Buildroot4G.Download
