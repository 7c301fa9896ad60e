/-
This file models the double buffering of the overlay in `master-progs/video_record.c`: the
main loop draws on one surface while the camera's callback blends the other one into a
frame. The main result is that the callback reads from the surface that is being drawn
on exactly when the surfaces were flipped an odd number of times since it chose one.

The two run in threads of their own. Each event is what one of them does next, in any
interleaving: an access of `userdata.overlay`, a call that draws or a pixel that is read.
-/

import Mathlib.Algebra.Group.Nat.Even
import Mathlib.Data.List.Induction

namespace Buildroot4G.VideoOverlay

/-- The surfaces, by the fields that point to their pixels. -/
inductive Surface where
  | overlayBuffer
  | overlayBuffer2
  deriving DecidableEq, Repr

/-- The main loop: before the test of an iteration, or drawing with so many calls to go. -/
inductive Main where
  | loopHead
  | drawing (surface : Surface) (calls : ℕ)
  deriving DecidableEq, Repr

/-- The callback: not in the loops, or in them before the pixel `(x, y)` is read. -/
inductive Callback where
  | outside
  | blending (localOverlayBuffer : Surface) (x y : ℕ)
  deriving DecidableEq, Repr

structure State where
  overlay : ℕ
  main : Main
  callback : Callback
  deriving DecidableEq, Repr

inductive Event where
  /-- The main loop tests `overlay`. -/
  | test
  /-- The main loop makes its next call of cairo. -/
  | draw
  /-- The main loop sets `overlay`. -/
  | flip
  /-- The callback tests `overlay`; it may have a buffer for the frame or not. -/
  | select (outputBuffer : Bool)
  /-- The callback reads a pixel. -/
  | read
  deriving DecidableEq, Repr

/-! ### The program -/

/-- The surface that an iteration of the main loop draws on. -/
def surfaceToDraw (overlay : ℕ) : Surface :=
  if overlay = 1 then .overlayBuffer else .overlayBuffer2

/-- The value that an iteration gives to `overlay` at its end. -/
def overlayAfter : Surface → ℕ
  | .overlayBuffer => 0
  | .overlayBuffer2 => 1

/-- The surface that the callback reads. -/
def surfaceToRead (overlay : ℕ) : Surface :=
  if overlay = 0 then .overlayBuffer else .overlayBuffer2

/-- An iteration makes eight calls of cairo on its surface. -/
def drawCalls : ℕ := 8

/-- The pixel after `(x, y)` in the loops of the callback. -/
def nextPixel (surface : Surface) (x y : ℕ) : Callback :=
  if y + 1 < 100 then .blending surface x (y + 1)
  else if x + 1 < 600 then .blending surface (x + 1) 0
  else .outside

/-- The state after an event, when the event is what its thread does next. -/
def State.step (state : State) : Event → Option State
  | .test =>
    match state.main with
    | .loopHead => some { state with main := .drawing (surfaceToDraw state.overlay) drawCalls }
    | .drawing _ _ => none
  | .draw =>
    match state.main with
    | .drawing surface (calls + 1) => some { state with main := .drawing surface calls }
    | _ => none
  | .flip =>
    match state.main with
    | .drawing surface 0 => some { state with overlay := overlayAfter surface, main := .loopHead }
    | _ => none
  | .select outputBuffer =>
    match state.callback with
    | .outside =>
      if outputBuffer then
        some { state with callback := .blending (surfaceToRead state.overlay) 0 0 }
      else some state
    | .blending _ _ _ => none
  | .read =>
    match state.callback with
    | .blending surface x y => some { state with callback := nextPixel surface x y }
    | .outside => none

def run (state : State) (events : List Event) : Option State :=
  events.foldlM State.step state

/-- `main` sets `overlay` to 1 before it enables the camera's port. -/
def initial : State := ⟨1, .loopHead, .outside⟩

/-! ### What the runs are about -/

/-- The callback is about to read from the surface that the main loop is drawing on. -/
def State.Torn (state : State) : Prop :=
  ∃ surface calls x y,
    state.main = .drawing surface calls ∧ state.callback = .blending surface x y

/-- No pixel is read from the surface that the main loop is drawing on. -/
def NeverTorn (events : List Event) : Prop :=
  ∀ done rest state, events = done ++ .read :: rest → run initial done = some state → ¬ state.Torn

/-- How often the surfaces were flipped since the callback chose one. -/
def flipsSinceSelect (events : List Event) : ℕ :=
  events.foldl (fun flips event =>
    match event with
    | .select _ => 0
    | .flip => flips + 1
    | _ => flips) 0

/-- The main loop is between the test and the flip of an iteration. -/
def midIteration (events : List Event) : Bool :=
  events.foldl (fun mid event =>
    match event with
    | .test => true
    | .flip => false
    | _ => mid) false

/-- A pixel that is read in the middle of an iteration is read after an even number of flips. -/
def EvenFlips (events : List Event) : Prop :=
  ∀ done rest, events = done ++ .read :: rest → midIteration done = true →
    Even (flipsSinceSelect done)

/-! ### The invariant -/

/-- What holds after the events of a run. -/
structure Invariant (events : List Event) (state : State) : Prop where
  overlay : state.overlay = 0 ∨ state.overlay = 1
  main : ∀ surface calls, state.main = .drawing surface calls →
    surface = surfaceToDraw state.overlay
  mid : midIteration events = true ↔ state.main ≠ .loopHead
  callback : ∀ surface x y, state.callback = .blending surface x y →
    (surface = surfaceToRead state.overlay ↔ Even (flipsSinceSelect events))

theorem midIteration_append (events : List Event) (event : Event) :
    midIteration (events ++ [event]) =
      match event with
      | .test => true
      | .flip => false
      | _ => midIteration events := by
  rw [midIteration, List.foldl_append]
  rfl

theorem flipsSinceSelect_append (events : List Event) (event : Event) :
    flipsSinceSelect (events ++ [event]) =
      match event with
      | .select _ => 0
      | .flip => flipsSinceSelect events + 1
      | _ => flipsSinceSelect events := by
  rw [flipsSinceSelect, List.foldl_append]
  rfl

/-- The main loop draws on the surface that is not read. -/
theorem surfaceToDraw_ne {overlay : ℕ} (flag : overlay = 0 ∨ overlay = 1) :
    surfaceToDraw overlay ≠ surfaceToRead overlay := by
  rcases flag with rfl | rfl <;> decide

/-- A surface is one of the two. -/
theorem eq_surfaceToDraw_iff {overlay : ℕ} (flag : overlay = 0 ∨ overlay = 1) (surface : Surface) :
    surface = surfaceToDraw overlay ↔ surface ≠ surfaceToRead overlay := by
  rcases flag with rfl | rfl <;> cases surface <;> decide

/-- A flip shows the surface that was drawn. -/
theorem surfaceToRead_overlayAfter (surface : Surface) :
    surfaceToRead (overlayAfter surface) = surface := by
  cases surface <;> rfl

theorem overlayAfter_flag (surface : Surface) :
    overlayAfter surface = 0 ∨ overlayAfter surface = 1 := by
  cases surface
  · exact Or.inl rfl
  · exact Or.inr rfl

/-- The callback stays on its surface. -/
theorem nextPixel_surface {surface other : Surface} {x y x' y' : ℕ}
    (next : nextPixel surface x y = .blending other x' y') : other = surface := by
  rw [nextPixel] at next
  split_ifs at next <;> cases next <;> rfl

theorem invariant_initial : Invariant [] initial :=
  ⟨Or.inr rfl, nofun, by decide, nofun⟩

/-- An event keeps the invariant. -/
theorem Invariant.step {events : List Event} {state next : State}
    (invariant : Invariant events state) {event : Event} (steps : state.step event = some next) :
    Invariant (events ++ [event]) next := by
  obtain ⟨overlay, main, callback⟩ := state
  obtain ⟨flag, draws, mid, reads⟩ := invariant
  cases event with
  | test =>
    cases main with
    | drawing surface calls => cases steps
    | loopHead =>
      cases steps
      refine ⟨flag, ?_, ?_, ?_⟩
      · rintro surface calls ⟨⟩
        rfl
      · rw [midIteration_append]
        exact iff_of_true rfl nofun
      · rw [flipsSinceSelect_append]
        exact reads
  | draw =>
    match main, steps with
    | .drawing surface (calls + 1), steps =>
      cases steps
      refine ⟨flag, ?_, ?_, ?_⟩
      · rintro surface calls ⟨⟩
        exact draws _ _ rfl
      · rw [midIteration_append]
        exact iff_of_true (mid.mpr nofun) nofun
      · rw [flipsSinceSelect_append]
        exact reads
  | flip =>
    match main, steps with
    | .drawing surface 0, steps =>
      cases steps
      refine ⟨overlayAfter_flag surface, nofun, ?_, ?_⟩
      · rw [midIteration_append]
        exact iff_of_false nofun (fun moved => moved rfl)
      · intro other x y blending
        rw [flipsSinceSelect_append, Nat.even_add_one, ← reads other x y blending,
          surfaceToRead_overlayAfter, draws surface 0 rfl]
        exact eq_surfaceToDraw_iff flag other
  | select outputBuffer =>
    cases callback with
    | blending surface x y => cases steps
    | outside =>
      cases outputBuffer with
      | false =>
        cases steps
        refine ⟨flag, draws, ?_, nofun⟩
        rw [midIteration_append]
        exact mid
      | true =>
        cases steps
        refine ⟨flag, draws, ?_, ?_⟩
        · rw [midIteration_append]
          exact mid
        · rintro surface x y ⟨⟩
          rw [flipsSinceSelect_append]
          exact iff_of_true rfl Even.zero
  | read =>
    cases callback with
    | outside => cases steps
    | blending surface x y =>
      cases steps
      refine ⟨flag, draws, ?_, ?_⟩
      · rw [midIteration_append]
        exact mid
      · intro other x' y' blending
        rw [flipsSinceSelect_append, nextPixel_surface blending]
        exact reads surface x y rfl

/-- The invariant holds after every run. -/
theorem invariant_run (events : List Event) (state : State)
    (runs : run initial events = some state) : Invariant events state := by
  induction events using List.reverseRecOn generalizing state with
  | nil =>
    cases runs
    exact invariant_initial
  | append_singleton done event inductionHypothesis =>
    rw [run, List.foldlM_append] at runs
    obtain ⟨before, runsBefore, runs⟩ := Option.bind_eq_some_iff.mp runs
    rw [List.foldlM_cons] at runs
    obtain ⟨after, steps, same⟩ := Option.bind_eq_some_iff.mp runs
    cases same
    exact (inductionHypothesis before runsBefore).step steps

/-! ### The result -/

/-- A callback in its loops is about to read what is being drawn, exactly after an odd number of
flips in the middle of an iteration. -/
theorem Invariant.torn_iff {events : List Event} {state : State}
    (invariant : Invariant events state) {surface : Surface} {x y : ℕ}
    (blending : state.callback = .blending surface x y) :
    state.Torn ↔ midIteration events = true ∧ ¬ Even (flipsSinceSelect events) := by
  rw [invariant.mid, ← invariant.callback surface x y blending]
  constructor
  · rintro ⟨drawn, calls, x', y', drawing, reading⟩
    rw [blending] at reading
    cases reading
    refine ⟨fun atHead => ?_, ?_⟩
    · cases drawing.symm.trans atHead
    · rw [invariant.main surface calls drawing]
      exact surfaceToDraw_ne invariant.overlay
  · rintro ⟨moved, different⟩
    cases main : state.main with
    | loopHead => exact absurd main moved
    | drawing drawn calls =>
      have same : surface = drawn := by
        rw [invariant.main drawn calls main]
        exact (eq_surfaceToDraw_iff invariant.overlay surface).mpr different
      exact ⟨surface, calls, x, y, same ▸ main, blending⟩

/-- In every interleaving, the callback never reads from the surface that the main loop is
drawing on, exactly when it reads in the middle of an iteration after even numbers of flips
only. -/
theorem neverTorn_iff_evenFlips (events : List Event) (last : State)
    (runs : run initial events = some last) : NeverTorn events ↔ EvenFlips events := by
  refine forall_congr' fun done => forall_congr' fun rest => ?_
  constructor
  · intro clean split mid
    subst split
    rw [run, List.foldlM_append] at runs
    obtain ⟨state, runsDone, runs⟩ := Option.bind_eq_some_iff.mp runs
    rw [List.foldlM_cons] at runs
    obtain ⟨next, steps, -⟩ := Option.bind_eq_some_iff.mp runs
    cases blending : state.callback with
    | outside =>
      rw [State.step, blending] at steps
      cases steps
    | blending surface x y =>
      have torn := (invariant_run done state runsDone).torn_iff blending
      by_contra odd
      exact clean state rfl runsDone (torn.mpr ⟨mid, odd⟩)
  · rintro even state split runsDone ⟨surface, calls, x, y, drawing, blending⟩
    have torn := (invariant_run done state runsDone).torn_iff blending
    obtain ⟨mid, odd⟩ := torn.mp ⟨surface, calls, x, y, drawing, blending⟩
    exact odd (even split mid)

/-- A pixel is read while the other surface is drawn. -/
theorem neverTorn_iff_evenFlips_read :
    ∃ last, run initial [.select true, .test, .draw, .read] = some last ∧
      (NeverTorn [.select true, .test, .draw, .read] ↔
        EvenFlips [.select true, .test, .draw, .read]) :=
  ⟨_, rfl, neverTorn_iff_evenFlips _ _ rfl⟩

/-- The callback is overtaken: the main loop draws a whole iteration and begins the next one. -/
theorem torn_when_overtaken :
    ∃ events last, run initial events = some last ∧ ¬ NeverTorn events := by
  refine ⟨[.select true, .test] ++ List.replicate 8 .draw ++ [.flip, .test] ++ .read :: [], _, rfl,
    fun clean => ?_⟩
  exact clean _ _ _ rfl rfl ⟨.overlayBuffer2, 8, 0, 0, rfl, rfl⟩

end Buildroot4G.VideoOverlay
