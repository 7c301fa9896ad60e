/-
This file is a library about make. A target is updated by updating its prerequisites in
order, and by running its recipe when it is missing or older than an ordinary one.

The lines of the recipes act on a world that is a parameter, of which make itself sees
only the times of its targets. The rule of the library, `Makefile.update_progress`, shows that
a property holds at every moment of a run, by looking at one recipe at a time: a recipe
runs when the prerequisites of its target were updated and its target needs it.
-/

import Mathlib.Data.Nat.Notation
import Mathlib.Data.List.Basic

namespace Make

/-- A prerequisite; one that is order-only is updated first but not compared. -/
structure Dep (Target : Type) where
  target : Target
  orderOnly : Bool

/-- The rules of a makefile, and what its files and its lines are: the time of a target that
exists, and what a line does to the world. A phony target never exists. -/
structure Makefile (Target Line World : Type) where
  deps : Target → List (Dep Target)
  recipe : Target → List Line
  mtime : World → Target → Option ℕ
  exec : World → Line → World

/-- What a run of make did so far: the targets it updated and the lines it ran. -/
structure Session (Target Line : Type) where
  updated : List Target
  lines : List Line

namespace Makefile

variable {Target Line World : Type} (makefile : Makefile Target Line World)

/-- The world after lines. -/
def after (start : World) (lines : List Line) : World := lines.foldl makefile.exec start

/-- A target that is missing, or older than an ordinary prerequisite or without it. -/
def needsRemake (world : World) (target : Target) : Bool :=
  match makefile.mtime world target with
  | none => true
  | some time => (makefile.deps target).any fun dep =>
    !dep.orderOnly && match makefile.mtime world dep.target with
      | none => true
      | some depTime => decide (time < depTime)

theorem after_append (start : World) (first second : List Line) :
    makefile.after start (first ++ second) =
      makefile.after (makefile.after start first) second :=
  List.foldl_append

/-! ### The rule -/

/-- What is to be shown of recipes, for targets that are closed under prerequisites: `inv` holds
between recipes, of the targets that were updated and the world, and `safe` at every moment. -/
structure Preserves (targets : Target → Prop) (inv : List Target → World → Prop)
    (safe : World → Prop) : Prop where
  closed : ∀ target, targets target → ∀ dep ∈ makefile.deps target, targets dep.target
  always : ∀ updated world, inv updated world → safe world
  keep : ∀ updated world target, targets target → inv updated world →
    (∀ dep ∈ makefile.deps target, dep.target ∈ updated) →
    makefile.needsRemake world target = false → inv (target :: updated) world
  remake : ∀ updated world target, targets target → inv updated world →
    (∀ dep ∈ makefile.deps target, dep.target ∈ updated) →
    makefile.needsRemake world target = true →
    inv (target :: updated) (makefile.after world (makefile.recipe target)) ∧
      ∀ n, safe (makefile.after world ((makefile.recipe target).take n))

/-- How a run goes on from a session to a later one. -/
structure Progress (inv : List Target → World → Prop) (safe : World → Prop) (start : World)
    (session next : Session Target Line) : Prop where
  holds : inv next.updated (makefile.after start next.lines)
  updated : ∀ target ∈ session.updated, target ∈ next.updated
  lines : ∃ lines, next.lines = session.lines ++ lines ∧
    ∀ n, safe (makefile.after start (session.lines ++ lines.take n))

section Rule

variable {makefile} {targets : Target → Prop} {inv : List Target → World → Prop}
  {safe : World → Prop} {start : World}

/-- Targets that have their prerequisites among them still do so with one whose prerequisites were
updated. -/
theorem closed_cons {updated : List Target} {target : Target}
    (closed : ∀ other ∈ updated, ∀ dep ∈ makefile.deps other, dep.target ∈ updated)
    (ready : ∀ dep ∈ makefile.deps target, dep.target ∈ updated) :
    ∀ other ∈ target :: updated, ∀ dep ∈ makefile.deps other, dep.target ∈ target :: updated := by
  intro other member dep isDep
  rcases List.mem_cons.mp member with rfl | member
  · exact List.mem_cons_of_mem _ (ready dep isDep)
  · exact List.mem_cons_of_mem _ (closed other member dep isDep)

theorem Progress.refl (preserves : makefile.Preserves targets inv safe)
    {session : Session Target Line}
    (holds : inv session.updated (makefile.after start session.lines)) :
    makefile.Progress inv safe start session session := by
  refine ⟨holds, fun _ => id, [], (List.append_nil _).symm, fun n => ?_⟩
  rw [List.take_nil, List.append_nil]
  exact preserves.always _ _ holds

theorem Progress.trans {first second third : Session Target Line}
    (toSecond : makefile.Progress inv safe start first second)
    (toThird : makefile.Progress inv safe start second third) :
    makefile.Progress inv safe start first third := by
  obtain ⟨holds, updated, lines, same, safeAt⟩ := toThird
  obtain ⟨-, updated', lines', same', safeAt'⟩ := toSecond
  refine ⟨holds, fun target member => updated target (updated' target member), lines' ++ lines,
    by rw [same, same', List.append_assoc], fun n => ?_⟩
  rw [List.take_append]
  by_cases inside : n ≤ lines'.length
  · rw [Nat.sub_eq_zero_of_le inside, List.take_zero, List.append_nil]
    exact safeAt' n
  · rw [List.take_of_length_le (by omega), ← List.append_assoc, ← same']
    exact safeAt _

/-- A run that was safe wherever it stopped is so when it goes on. -/
theorem Progress.safe_take {session next : Session Target Line}
    (progress : makefile.Progress inv safe start session next)
    (before : ∀ n, safe (makefile.after start (session.lines.take n))) (n : ℕ) :
    safe (makefile.after start (next.lines.take n)) := by
  obtain ⟨lines, same, safeAt⟩ := progress.lines
  rw [same, List.take_append]
  by_cases inside : n ≤ session.lines.length
  · rw [Nat.sub_eq_zero_of_le inside, List.take_zero, List.append_nil]
    exact before n
  · rw [List.take_of_length_le (by omega)]
    exact safeAt _

/-- A target whose prerequisites were updated. -/
theorem Preserves.progress (preserves : makefile.Preserves targets inv safe)
    {session : Session Target Line} {target : Target} (isTarget : targets target)
    (holds : inv session.updated (makefile.after start session.lines))
    (ready : ∀ dep ∈ makefile.deps target, dep.target ∈ session.updated) :
    makefile.Progress inv safe start session ⟨target :: session.updated,
      if makefile.needsRemake (makefile.after start session.lines) target then
        session.lines ++ makefile.recipe target
      else session.lines⟩ := by
  cases needs : makefile.needsRemake (makefile.after start session.lines) target with
  | false =>
    refine ⟨preserves.keep _ _ _ isTarget holds ready needs,
      fun _ member => List.mem_cons_of_mem _ member, [], (List.append_nil _).symm, fun n => ?_⟩
    rw [List.take_nil, List.append_nil]
    exact preserves.always _ _ holds
  | true =>
    obtain ⟨later, safeAt⟩ := preserves.remake _ _ _ isTarget holds ready needs
    refine ⟨?_, fun _ member => List.mem_cons_of_mem _ member, makefile.recipe target, rfl,
      fun n => ?_⟩
    · rw [if_pos rfl, after_append]
      exact later
    · rw [after_append]
      exact safeAt n

end Rule

/-! ### Updating -/

variable [DecidableEq Target]

/-- Make updates a target, at most once. -/
def update (start : World) : ℕ → Session Target Line → Target → Session Target Line
  | 0, session, _ => session
  | fuel + 1, session, target =>
    if target ∈ session.updated then session
    else
      let session := (makefile.deps target).foldl
        (fun session dep => update start fuel session dep.target) session
      ⟨target :: session.updated,
        if makefile.needsRemake (makefile.after start session.lines) target then
          session.lines ++ makefile.recipe target
        else session.lines⟩

/-- A run only adds lines. -/
theorem lines_prefix_update (start : World) (fuel : ℕ) (session : Session Target Line)
    (target : Target) : session.lines <+: (makefile.update start fuel session target).lines := by
  induction fuel generalizing session target with
  | zero => exact List.prefix_rfl
  | succ fuel inductionHypothesis =>
    have each : ∀ (deps : List (Dep Target)) (session : Session Target Line),
        session.lines <+: (deps.foldl
          (fun session dep => makefile.update start fuel session dep.target) session).lines := by
      intro deps
      induction deps with
      | nil => exact fun _ => List.prefix_rfl
      | cons dep rest restHypothesis =>
        exact fun session => (inductionHypothesis session dep.target).trans (restHypothesis _)
    rw [update]
    split
    · exact List.prefix_rfl
    · refine (each (makefile.deps target) session).trans ?_
      dsimp only
      split
      · exact List.prefix_append _ _
      · exact List.prefix_rfl

variable {makefile} {targets : Target → Prop} {inv : List Target → World → Prop}
  {safe : World → Prop} {start : World}

/-- With fuel for every chain of prerequisites, make updates a target and keeps the invariant. -/
theorem update_progress (preserves : makefile.Preserves targets inv safe) {rank : Target → ℕ}
    (acyclic : ∀ target, ∀ dep ∈ makefile.deps target, rank dep.target < rank target) {fuel : ℕ}
    {session : Session Target Line} {target : Target} (isTarget : targets target)
    (enough : rank target < fuel)
    (holds : inv session.updated (makefile.after start session.lines)) :
    makefile.Progress inv safe start session (makefile.update start fuel session target) ∧
      target ∈ (makefile.update start fuel session target).updated := by
  induction fuel generalizing session target with
  | zero => exact absurd enough (Nat.not_lt_zero _)
  | succ fuel inductionHypothesis =>
    have each : ∀ (deps : List (Dep Target)) (session : Session Target Line),
        (∀ dep ∈ deps, targets dep.target ∧ rank dep.target < fuel) →
        inv session.updated (makefile.after start session.lines) →
        makefile.Progress inv safe start session (deps.foldl
          (fun session dep => makefile.update start fuel session dep.target) session) ∧
        ∀ dep ∈ deps, dep.target ∈ (deps.foldl
          (fun session dep => makefile.update start fuel session dep.target) session).updated := by
      intro deps
      induction deps with
      | nil => exact fun session _ holds => ⟨Progress.refl preserves holds, nofun⟩
      | cons dep rest restHypothesis =>
        intro session known holds
        obtain ⟨⟨isDep, below⟩, knownRest⟩ := List.forall_mem_cons.mp known
        obtain ⟨first, done⟩ := inductionHypothesis isDep below holds
        obtain ⟨others, doneRest⟩ := restHypothesis _ knownRest first.holds
        exact ⟨first.trans others,
          List.forall_mem_cons.mpr ⟨others.updated _ done, doneRest⟩⟩
    rw [update]
    by_cases done : target ∈ session.updated
    · rw [if_pos done]
      exact ⟨Progress.refl preserves holds, done⟩
    · rw [if_neg done]
      obtain ⟨first, ready⟩ := each (makefile.deps target) session
        (fun dep member => ⟨preserves.closed target isTarget dep member,
          Nat.lt_of_lt_of_le (acyclic target dep member) (Nat.le_of_lt_succ enough)⟩) holds
      exact ⟨first.trans (preserves.progress isTarget first.holds ready), List.mem_cons_self⟩

end Makefile

end Make
