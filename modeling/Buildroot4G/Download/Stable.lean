/-
This file decides when the success of `dl-wrapper` is stable: when, once one of
several processes for the same output path has exited `0`, the output path keeps
an accepted content in the rest of the run.

The only command that can take an accepted content away is the `rm -f` of a process
that saw a mismatch earlier, when another process has put a good file there
meanwhile. A run is stable exactly when that never happens. Up to the first success
all processes agree on the verdict over the output path; from then on nothing but
that `rm -f` can take the file away, and the file is there again only after
another download.
-/

import Mathlib.Data.List.Chain
import Buildroot4G.Download.Published

namespace Buildroot4G.Download

open Shell

/-! ### Stable runs -/

/-- Some process has exited `0`. -/
def State.Succeeded (state : State) : Prop := ∃ who, (state.process who).phase = .exited 0

/-- The output path exists and holds an accepted content. -/
def State.Holds (digests : Digests) (args : HashArgs) (output : Text) (state : State) : Prop :=
  ∃ content, state.directory output = some content ∧ Accepts digests args content

/-- Once a process has exited `0`, the output path holds an accepted content, at that moment
and later. -/
def Stable (digests : Digests) (args : HashArgs) (output : Text) : List State → Prop
  | [] => True
  | state :: rest =>
    (state.Succeeded → ∀ later ∈ state :: rest, later.Holds digests args output) ∧
      Stable digests args output rest

/-- A process executes its `rm -f` while the output path holds an accepted content. -/
def RemovesAccepted (digests : Digests) (args : HashArgs) (output : Text)
    (before after : State) : Prop :=
  before.Holds digests args output ∧ ∃ who, (before.process who).phase = .removing ∧
    (after.process who).phase = .makingDirectory

/-! ### A missing file -/

/-- A line that names a file has a hash for it. -/
def HashLine.Complete (line : HashLine) : Prop := line.name ≠ [] → line.hash ≠ []

theorem HashLine.complete_ofFields (line : List QuotedChar) :
    (HashLine.ofFields line).Complete := by
  intro named empty
  rw [HashLine.ofFields] at named empty
  split at named
  · rename_i type hash name fields
    obtain ⟨_, rest⟩ := List.cons.inj fields
    rw [fields] at empty
    change hash = [] at empty
    rw [empty] at rest
    exact named (readFields_cons_of_nil rest name (List.mem_singleton_self name))
  · exact named rfl

theorem complete_of_hashLines {args : HashArgs} {lines : List HashLine}
    (read : hashLines args = some lines) : ∀ line ∈ lines, line.Complete := by
  obtain ⟨_, _, rfl⟩ := Option.map_eq_some_iff.mp read
  intro line member
  obtain ⟨fields, _, rfl⟩ := List.mem_map.mp member
  exact HashLine.complete_ofFields fields

section Stable

variable {digests : Digests} {args : HashArgs} {output : Text}

/-- A loop that finds a mismatch in a file finds one in a missing file as well. -/
theorem checkFrom_none {file : Option Content} {lines : List HashLine} {checks : Nat}
    (complete : ∀ line ∈ lines, line.Complete)
    (mismatch : checkFrom digests args file lines checks = 2) :
    checkFrom digests args none lines checks = 2 := by
  induction lines generalizing checks with
  | nil => exact mismatch
  | cons line rest inductionHypothesis =>
    have restComplete : ∀ line' ∈ rest, line'.Complete :=
      fun line' member => complete line' (List.mem_cons_of_mem line member)
    rw [checkFrom] at mismatch ⊢
    rcases checkLine_cases digests args.base line with
      skip | pass | stop | ⟨type, same, compared⟩
    · rw [skip] at mismatch ⊢
      exact inductionHypothesis restComplete mismatch
    · rw [pass] at mismatch ⊢
      exact inductionHypothesis restComplete mismatch
    · rw [stop] at mismatch ⊢
      exact mismatch
    · have hash : line.hash ≠ [] := complete line List.mem_cons_self (same ▸ args.named)
      rw [compared, if_neg (show digest digests type none ≠ line.hash from hash.symm)]

/-! ### Before the first success -/

/-- What is known of a process while nobody has succeeded, `verdict` being the status of
`check-hash` on the output path. -/
def PhaseOk (digests : Digests) (args : HashArgs) (verdict : Nat) (file : Option Content) :
    Phase → Prop
  | .checking lines checks =>
    (∀ line ∈ lines, line.Complete) ∧ checkFrom digests args file lines checks = verdict
  | .removing => verdict = 2
  | .exited code => code ≠ 0
  | _ => True

/-- Nobody has succeeded, and all processes agree on the verdict over the output path. -/
structure Pending (digests : Digests) (args : HashArgs) (output : Text) (verdict : Nat)
    (state : State) : Prop where
  present : ∀ content, state.directory output = some content →
    checkHash digests args (some content) = verdict
  absent : state.directory output = none → verdict = 2
  phases : ∀ who, PhaseOk digests args verdict (state.directory output) (state.process who).phase

/-- The status of `check-hash` on the output path, a missing file counting as a mismatch. -/
def verdictOf (digests : Digests) (args : HashArgs) : Option Content → Nat
  | none => 2
  | some content => checkHash digests args (some content)

theorem pending_initialState (directory : Directory) :
    Pending digests args output (verdictOf digests args (directory output))
      (initialState directory) where
  present content holds := by
    change directory output = some content at holds
    rw [holds]
    rfl
  absent gone := by
    change directory output = none at gone
    rw [gone]
    rfl
  phases _ := trivial

theorem Pending.not_succeeded {verdict : Nat} {state : State}
    (pending : Pending digests args output verdict state) : ¬state.Succeeded := by
  rintro ⟨who, exited⟩
  have phase := pending.phases who
  rw [exited] at phase
  exact phase rfl

/-- What the check of the existing file leads to. -/
theorem phaseOk_afterCheck (verdict : Nat) (file : Option Content) :
    PhaseOk digests args verdict file (afterCheck verdict) ∨
      afterCheck verdict = .exited 0 ∧ verdict = 0 := by
  rw [afterCheck]
  split
  · rename_i zero
    exact Or.inr ⟨rfl, zero⟩
  · split
    · exact Or.inl Nat.one_ne_zero
    · rename_i _ two
      exact Or.inl (not_not.mp two)

/-- A process that sees a mismatch in the output file sees one when the file is gone. -/
theorem phaseOk_none {file : Option Content} {phase : Phase}
    (ok : PhaseOk digests args 2 file phase) : PhaseOk digests args 2 none phase := by
  cases phase with
  | checking lines checks => exact ⟨ok.1, checkFrom_none ok.1 ok.2⟩
  | _ => exact ok

/-- What a step does to the output path: nothing, unless it is an `rm -f` or a rename. -/
theorem output_of_local {directory after : Directory} {process next : Process}
    (step : Local digests args output directory process after next)
    (named : ∀ name, process.tmpOutput = some name → name ≠ output) :
    after output = directory output ∨
      (process.phase = .removing ∧ next.phase = .makingDirectory ∧ after output = none) ∨
      (next.phase = .exited 0 ∧ process.phase = .publishing) := by
  have removed : ∀ tmpOutput, process.tmpOutput = tmpOutput →
      directory.remove tmpOutput output = directory output := by
    intro tmpOutput holds
    cases tmpOutput with
    | none => rfl
    | some name => exact Function.update_of_ne (named name holds).symm _ _
  cases step with
  | remove => exact Or.inr (Or.inl ⟨rfl, rfl, Function.update_self _ _ _⟩)
  | makeOutput suffix => exact Or.inl (Function.update_of_ne (tmpName_ne suffix).symm _ _)
  | copy => exact Or.inl (Function.update_of_ne (named _ rfl).symm _ _)
  | publish => exact Or.inr (Or.inr ⟨rfl, rfl⟩)
  | discard => exact Or.inl (removed _ rfl)
  | unlink => exact Or.inl (removed _ rfl)
  | _ => exact Or.inl rfl

/-- What a step makes of the process that takes it. -/
theorem phaseOk_of_local {directory after : Directory} {process next : Process} {verdict : Nat}
    (step : Local digests args output directory process after next)
    (present : ∀ content, directory output = some content →
      checkHash digests args (some content) = verdict)
    (ok : PhaseOk digests args verdict (directory output) process.phase) :
    PhaseOk digests args verdict (after output) next.phase ∨
      next.phase = .exited 0 ∧ (verdict = 0 ∨ process.phase = .publishing) := by
  have checked : ∀ code, code = verdict →
      PhaseOk digests args verdict (directory output) (afterCheck code) ∨
        afterCheck code = .exited 0 ∧ (verdict = 0 ∨ process.phase = .publishing) := by
    intro code same
    rw [same]
    exact (phaseOk_afterCheck verdict _).imp_right fun ends => ⟨ends.1, Or.inl ends.2⟩
  cases step with
  | existing holds =>
    have agrees := present _ holds
    cases read : hashLines args with
    | none =>
      rw [checkHash_of_none read] at agrees
      rw [beginCheck, read]
      exact checked 0 agrees
    | some lines =>
      rw [checkHash_of_some read, ← holds] at agrees
      rw [beginCheck, read]
      exact Or.inl ⟨complete_of_hashLines read, agrees⟩
  | checkGoes goes =>
    obtain ⟨complete, agrees⟩ := ok
    rw [checkFrom_cons_of_goes goes] at agrees
    exact Or.inl ⟨fun line member => complete line (List.mem_cons_of_mem _ member), agrees⟩
  | checkStops stops =>
    obtain ⟨_, agrees⟩ := ok
    rw [checkFrom_cons_of_stop stops] at agrees
    exact checked _ agrees
  | checkEnds => exact checked _ ok.2
  | fetched =>
    refine Or.inl ?_
    change PhaseOk digests args verdict _ (beginVerify args)
    rw [beginVerify]
    split
    · trivial
    · trivial
  | verifyStops | verifyEnds =>
    refine Or.inl ?_
    change PhaseOk digests args verdict _ (afterVerify _)
    rw [afterVerify]
    split <;> trivial
  | publish => exact Or.inr ⟨rfl, Or.inr rfl⟩
  | existingFails | checkFails | removeFails | makeDirectoryFails | makeOutputFails
  | changeModeFails | cleanFails | discard | discardFails | unlink | unlinkFails =>
    exact Or.inl Nat.one_ne_zero
  | _ => exact Or.inl trivial

/-- The rename puts the content of the temporary output file in place. -/
theorem accepted_of_publish {directory after : Directory} {process next : Process}
    (step : Local digests args output directory process after next)
    (named : ∀ name, process.tmpOutput = some name → name ≠ output)
    (knows : ProcessOk digests args (process.own directory) process)
    (exits : next.phase = .exited 0) (publishing : process.phase = .publishing) :
    ∃ content, after output = some content ∧ Accepts digests args content := by
  cases step with
  | publish =>
    obtain ⟨content, own, accepted⟩ := knows
    refine ⟨content, ?_, accepted⟩
    rw [Function.update_of_ne (named _ rfl).symm, Function.update_self]
    exact own
  | publishFails => cases exits
  | _ => cases publishing

/-! ### Steps of the system -/

theorem State.Succeeded.step {before after : State} (succeeded : before.Succeeded)
    (step : Step digests (fun _ => args) output before after) : after.Succeeded := by
  obtain ⟨who, exited⟩ := succeeded
  obtain ⟨mover, step, unchanged⟩ := step.exists_local
  by_cases same : who = mover
  · subst same
    cases process : before.process who with
    | mk phase tmpd tmpOutput =>
      rw [process] at step exited
      change phase = .exited 0 at exited
      subst exited
      cases step
  · exact ⟨who, by rw [unchanged who same]; exact exited⟩

/-- The `rm -f` leaves no output file. -/
theorem RemovesAccepted.gone {before after : State}
    (removes : RemovesAccepted digests args output before after)
    (step : Step digests (fun _ => args) output before after) :
    after.directory output = none := by
  obtain ⟨_, who, removing, made⟩ := removes
  obtain ⟨mover, step, unchanged⟩ := step.exists_local
  by_cases same : who = mover
  · subst same
    generalize after.directory = directory at step ⊢
    generalize before.process who = process at step removing
    generalize after.process who = next at step made
    cases step with
    | remove => exact Function.update_self _ _ _
    | removeFails => cases made
    | _ => cases removing
  · rw [unchanged who same, removing] at made
    cases made

/-- Nothing but that `rm -f` takes an accepted content away. -/
theorem State.Holds.step {initial : Option Content} {before after : State}
    (holds : before.Holds digests args output)
    (verified : Verified digests (fun _ => args) output initial before)
    (step : Step digests (fun _ => args) output before after)
    (keeps : ¬RemovesAccepted digests args output before after) :
    after.Holds digests args output := by
  obtain ⟨who, step, _⟩ := step.exists_local
  have named := fun name own => (verified.named who name own).1
  rcases output_of_local step named with same | ⟨removing, made, _⟩ | ⟨exits, publishing⟩
  · rw [State.Holds, same]
    exact holds
  · exact absurd ⟨holds, who, removing, made⟩ keeps
  · exact accepted_of_publish step named (verified.processes who) exits publishing

/-- While nobody has succeeded no accepted content is removed, since nobody saw a mismatch. -/
theorem Pending.keeps {verdict : Nat} {before after : State}
    (pending : Pending digests args output verdict before) :
    ¬RemovesAccepted digests args output before after := by
  rintro ⟨⟨content, holds, accepted⟩, who, removing, _⟩
  have phase := pending.phases who
  rw [removing] at phase
  have same := pending.present content holds
  rw [show checkHash digests args (some content) = 0 from accepted,
    show verdict = 2 from phase] at same
  cases same

/-- A step before the first success keeps the common verdict, or is the first success. -/
theorem Pending.step {initial : Option Content} {verdict : Nat} {before after : State}
    (pending : Pending digests args output verdict before)
    (verified : Verified digests (fun _ => args) output initial before)
    (step : Step digests (fun _ => args) output before after) :
    Pending digests args output verdict after ∨
      after.Succeeded ∧ after.Holds digests args output := by
  obtain ⟨who, step, unchanged⟩ := step.exists_local
  have named := fun name own => (verified.named who name own).1
  rcases phaseOk_of_local step pending.present (pending.phases who) with
    phase | ⟨exits, accepted⟩
  · rcases output_of_local step named with same | ⟨removing, _, gone⟩ | ⟨exits, publishing⟩
    · refine Or.inl ⟨by rw [same]; exact pending.present, by rw [same]; exact pending.absent,
        fun other => ?_⟩
      by_cases moved : other = who
      · rw [moved]
        exact phase
      · rw [unchanged other moved, same]
        exact pending.phases other
    · have two : verdict = 2 := by
        have phase := pending.phases who
        rw [removing] at phase
        exact phase
      refine Or.inl ⟨fun content holds => ?_, fun _ => two, fun other => ?_⟩
      · rw [gone] at holds
        cases holds
      · by_cases moved : other = who
        · rw [moved]
          exact phase
        · rw [unchanged other moved, gone]
          have other' := pending.phases other
          rw [two] at other' ⊢
          exact phaseOk_none other'
    · rw [exits] at phase
      exact absurd rfl phase
  · refine Or.inr ⟨⟨who, exits⟩, ?_⟩
    by_cases publishing : (before.process who).phase = .publishing
    · exact accepted_of_publish step named (verified.processes who) exits publishing
    · have zero : verdict = 0 := accepted.resolve_right publishing
      cases held : before.directory output with
      | none =>
        have two := pending.absent held
        omega
      | some content =>
        rcases output_of_local step named with same | ⟨removing, made, _⟩ | ⟨_, published⟩
        · refine ⟨content, same.trans held, ?_⟩
          rw [Accepts, pending.present content held, zero]
        · rw [made] at exits
          cases exits
        · exact absurd published publishing

/-! ### Runs -/

/-- What holds in every state of a run that has removed no accepted content. -/
def Settled (digests : Digests) (args : HashArgs) (output : Text) (initial : Option Content)
    (state : State) : Prop :=
  Verified digests (fun _ => args) output initial state ∧
    (Pending digests args output (verdictOf digests args initial) state ∨
      state.Succeeded ∧ state.Holds digests args output)

theorem settled_of_step {initial : Option Content} {before after : State}
    (settled : Settled digests args output initial before)
    (step : Step digests (fun _ => args) output before after)
    (keeps : ¬RemovesAccepted digests args output before after) :
    Settled digests args output initial after := by
  obtain ⟨verified, pending | ⟨succeeded, holds⟩⟩ := settled
  · exact ⟨verified_of_step verified step, pending.step verified step⟩
  · exact ⟨verified_of_step verified step,
      Or.inr ⟨succeeded.step step, holds.step verified step keeps⟩⟩

theorem stable_iff_of_settled {initial : Option Content} {state : State} {rest : List State}
    (settled : Settled digests args output initial state)
    (run : (state :: rest).IsChain (Step digests (fun _ => args) output)) :
    Stable digests args output (state :: rest) ↔
      (state :: rest).IsChain
        fun before after => ¬RemovesAccepted digests args output before after := by
  induction rest generalizing state with
  | nil =>
    refine ⟨fun _ => .singleton _, fun _ => ⟨fun succeeded later member => ?_, trivial⟩⟩
    rw [List.mem_singleton.mp member]
    rcases settled.2 with pending | ⟨_, holds⟩
    · exact absurd succeeded pending.not_succeeded
    · exact holds
  | cons next rest inductionHypothesis =>
    obtain ⟨step, run⟩ := List.isChain_cons_cons.mp run
    rw [List.isChain_cons_cons]
    by_cases removes : RemovesAccepted digests args output state next
    · refine ⟨fun stable => ?_, fun keeps => absurd removes keeps.1⟩
      have succeeded : state.Succeeded := by
        rcases settled.2 with pending | ⟨succeeded, _⟩
        · exact absurd removes pending.keeps
        · exact succeeded
      obtain ⟨content, holds, _⟩ := stable.1 succeeded next (by simp)
      rw [removes.gone step] at holds
      cases holds
    · have later := settled_of_step settled step removes
      rw [and_iff_right removes, ← inductionHypothesis later run]
      refine ⟨fun stable => stable.2, fun stable => ⟨fun succeeded => ?_, stable⟩⟩
      rcases settled.2 with pending | ⟨_, holds⟩
      · exact absurd succeeded pending.not_succeeded
      · intro other member
        rcases List.mem_cons.mp member with same | member
        · rw [same]
          exact holds
        · exact stable.1 (succeeded.step step) other member

theorem Stable.of_append {before after : List State}
    (stable : Stable digests args output (before ++ after)) : Stable digests args output after := by
  induction before with
  | nil => exact stable
  | cons state rest inductionHypothesis => exact inductionHypothesis stable.2

/-- Two processes find a mismatch; the one downloads the file anew and exits `0`, and then the
other removes it. -/
theorem exists_race {directory : Directory} {stale fetched : Content} (suffix : Text)
    (present : directory output = some stale)
    (mismatch : checkHash digests args (some stale) = 2)
    (accepted : Accepts digests args fetched) (six : suffix.length = 6)
    (fresh : directory (tmpName output suffix) = none) :
    ∃ before after, Steps digests (fun _ => args) output (initialState directory) before ∧
      before.Succeeded ∧ Step digests (fun _ => args) output before after ∧
      after.directory output = none := by
  have checked := alone_check digests args present none none
  rw [mismatch, show afterCheck 2 = .removing from rfl] at checked
  have downloaded : Alone digests args output
      (Function.update directory output none, ⟨.makingDirectory, none, none⟩) _ :=
    alone_download _ suffix accepted six
      (by rw [Function.update_of_ne (tmpName_ne suffix)]; exact fresh) none none
  have first : Steps digests (fun _ => args) output (initialState directory) _ :=
    Alone.steps 0 checked rfl
  have second : Steps digests (fun _ => args) output _ _ := first.trans <|
    Alone.steps 1 (checked.trans (.head .remove downloaded))
      (State.process_move_of_ne _ Nat.one_ne_zero _)
  let published := Function.update (Function.update directory output none) output (some fetched)
  refine ⟨_, State.move _ 0 (Function.update published output none, ⟨.makingDirectory, none, none⟩),
    second, ⟨1, by rw [State.process_move]⟩, ⟨0, _, _, ?_, rfl⟩, Function.update_self _ _ _⟩
  rw [State.process_move_of_ne _ Nat.zero_ne_one, State.process_move]
  exact .remove

/-- A run is not stable when its last step takes the output file away behind a success. -/
theorem exists_not_stable {first before after : State}
    (steps : Steps digests (fun _ => args) output first before) (succeeded : before.Succeeded)
    (step : Step digests (fun _ => args) output before after)
    (gone : after.directory output = none) :
    ∃ rest, (first :: rest).IsChain (Step digests (fun _ => args) output) ∧
      ¬Stable digests args output (first :: rest) := by
  obtain ⟨rest, chain, ends⟩ := List.exists_isChain_cons_of_relationReflTransGen steps
  have split := List.dropLast_append_getLast (List.cons_ne_nil first rest)
  rw [ends] at split
  have whole : first :: (rest ++ [after]) = (first :: rest).dropLast ++ [before, after] := by
    rw [← List.cons_append, ← split, List.dropLast_concat, List.append_assoc]
    rfl
  refine ⟨rest ++ [after], ?_, fun stable => ?_⟩
  · rw [← List.cons_append]
    refine chain.append (.singleton _) fun last isLast next isNext => ?_
    rw [List.getLast?_eq_some_getLast (List.cons_ne_nil first rest), ends] at isLast
    obtain rfl := Option.some.inj isLast
    obtain rfl := Option.some.inj isNext
    exact step
  · rw [whole] at stable
    obtain ⟨content, holds, _⟩ := stable.of_append.1 succeeded after (by simp)
    rw [gone] at holds
    cases holds

/-- In a run of processes with the same arguments, success is stable exactly when no process
executes its `rm -f` while the output path holds an accepted content. -/
theorem stable_iff (digests : Digests) (args : HashArgs) (output : Text) (directory : Directory)
    (rest : List State)
    (run : (initialState directory :: rest).IsChain (Step digests (fun _ => args) output)) :
    Stable digests args output (initialState directory :: rest) ↔
      (initialState directory :: rest).IsChain
        fun before after => ¬RemovesAccepted digests args output before after :=
  stable_iff_of_settled
    ⟨verified_initialState directory, Or.inl (pending_initialState directory)⟩ run

end Stable

/-! ### The race -/

/-- A download directory that has the file with its old content. -/
def staleDirectory : Directory :=
  Function.update (fun _ => none) "dl/foo.tar".toList (some oldContent)

theorem exists_race_foo : ∃ before after,
    Steps sampleDigests (fun _ => sampleArgs) "dl/foo.tar".toList (initialState staleDirectory)
        before ∧
      before.Succeeded ∧
      Step sampleDigests (fun _ => sampleArgs) "dl/foo.tar".toList before after ∧
      after.directory "dl/foo.tar".toList = none :=
  exists_race "a1b2c3".toList rfl checkHash_oldContent accepts_newContent rfl rfl

/-- A process has exited `0`, and the file is gone. -/
theorem success_not_stable : ∃ rest,
    (initialState staleDirectory :: rest).IsChain
        (Step sampleDigests (fun _ => sampleArgs) "dl/foo.tar".toList) ∧
      ¬Stable sampleDigests sampleArgs "dl/foo.tar".toList
        (initialState staleDirectory :: rest) := by
  obtain ⟨_, _, steps, succeeded, step, gone⟩ := exists_race_foo
  exact exists_not_stable steps succeeded step gone

/-- `stable_iff` on that race. -/
theorem stable_iff_race : ∃ rest,
    (initialState staleDirectory :: rest).IsChain
        (Step sampleDigests (fun _ => sampleArgs) "dl/foo.tar".toList) ∧
      ¬(initialState staleDirectory :: rest).IsChain fun before after =>
        ¬RemovesAccepted sampleDigests sampleArgs "dl/foo.tar".toList before after := by
  obtain ⟨_, _, steps, succeeded, step, gone⟩ := exists_race_foo
  obtain ⟨rest, run, unstable⟩ := exists_not_stable steps succeeded step gone
  exact ⟨rest, run, fun keeps =>
    unstable ((stable_iff sampleDigests sampleArgs _ staleDirectory rest run).mpr keeps)⟩

end Buildroot4G.Download
