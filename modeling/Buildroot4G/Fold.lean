/-
This file has the rules for loops whose body may stop with an error: how a loop that
completes is taken apart, and how an invariant of the body becomes one of the loop.
-/

import Mathlib.Data.List.Basic

namespace Fold

variable {α σ ε : Type}

theorem bind_eq_ok {β : Type} {first : Except ε α} {next : α → Except ε β} {result : β} :
    first >>= next = .ok result ↔ ∃ value, first = .ok value ∧ next value = .ok result := by
  cases first with
  | error failure => exact iff_of_false nofun (fun ⟨_, impossible, _⟩ => nomatch impossible)
  | ok value => exact ⟨fun done => ⟨value, rfl, done⟩, fun ⟨_, rfl, done⟩ => done⟩

theorem foldlM_cons_eq_ok {body : σ → α → Except ε σ} {head : α} {rest : List α}
    {first last : σ} :
    (head :: rest).foldlM body first = .ok last ↔
      ∃ next, body first head = .ok next ∧ rest.foldlM body next = .ok last := by
  rw [List.foldlM_cons, bind_eq_ok]

theorem foldlM_append_eq_ok {body : σ → α → Except ε σ} {before after : List α}
    {first last : σ} :
    (before ++ after).foldlM body first = .ok last ↔
      ∃ middle, before.foldlM body first = .ok middle ∧ after.foldlM body middle = .ok last := by
  rw [List.foldlM_append, bind_eq_ok]

/-- What the body keeps on the items of a list, the loop keeps. -/
theorem invariant_of_foldlM {body : σ → α → Except ε σ} (invariant : σ → Prop) {items : List α}
    (keeps : ∀ item ∈ items, ∀ before after, body before item = .ok after → invariant before →
      invariant after)
    {first last : σ} (completes : items.foldlM body first = .ok last)
    (holds : invariant first) : invariant last := by
  induction items generalizing first with
  | nil =>
    cases completes
    exact holds
  | cons head rest inductionHypothesis =>
    obtain ⟨next, step, later⟩ := foldlM_cons_eq_ok.mp completes
    exact inductionHypothesis
      (fun item member => keeps item (List.mem_cons_of_mem head member)) later
      (keeps head List.mem_cons_self first next step holds)

/-- A loop that completes ran the body for every item, in a state with the invariant. -/
theorem exists_step_of_foldlM {body : σ → α → Except ε σ} (invariant : σ → Prop) {items : List α}
    (keeps : ∀ item ∈ items, ∀ before after, body before item = .ok after → invariant before →
      invariant after)
    {first last : σ} (completes : items.foldlM body first = .ok last)
    (holds : invariant first) :
    ∀ item ∈ items, ∃ before after, invariant before ∧ body before item = .ok after := by
  induction items generalizing first with
  | nil => nofun
  | cons head rest inductionHypothesis =>
    obtain ⟨next, step, later⟩ := foldlM_cons_eq_ok.mp completes
    refine List.forall_mem_cons.mpr ⟨⟨first, next, holds, step⟩, ?_⟩
    exact inductionHypothesis
      (fun item member => keeps item (List.mem_cons_of_mem head member)) later
      (keeps head List.mem_cons_self first next step holds)

/-- A loop completes when its body does wherever the invariant holds. -/
theorem exists_of_foldlM {body : σ → α → Except ε σ} (invariant : σ → Prop) {items : List α}
    (completes : ∀ item ∈ items, ∀ before, invariant before →
      ∃ after, body before item = .ok after ∧ invariant after)
    {first : σ} (holds : invariant first) :
    ∃ last, items.foldlM body first = .ok last ∧ invariant last := by
  induction items generalizing first with
  | nil => exact ⟨first, rfl, holds⟩
  | cons head rest inductionHypothesis =>
    obtain ⟨next, step, nextHolds⟩ := completes head List.mem_cons_self first holds
    obtain ⟨last, later, lastHolds⟩ := inductionHypothesis
      (fun item member => completes item (List.mem_cons_of_mem head member)) nextHolds
    exact ⟨last, foldlM_cons_eq_ok.mpr ⟨next, step, later⟩, lastHolds⟩

/-! ### Conditions on every step -/

/-- The condition holds of every item of a loop, in the state in which the body meets it. -/
inductive EveryStep (body : σ → α → Except ε σ) (holds : α → σ → Prop) : List α → σ → Prop
  | nil (state : σ) : EveryStep body holds [] state
  | cons {item : α} {rest : List α} {state : σ} (here : holds item state)
      (later : ∀ next, body state item = .ok next → EveryStep body holds rest next) :
      EveryStep body holds (item :: rest) state

section EveryStep

variable {body : σ → α → Except ε σ} {holds holds' : α → σ → Prop}

theorem everyStep_cons {item : α} {rest : List α} {state : σ} :
    EveryStep body holds (item :: rest) state ↔
      holds item state ∧ ∀ next, body state item = .ok next → EveryStep body holds rest next := by
  constructor
  · intro every
    cases every with
    | cons here later => exact ⟨here, later⟩
  · exact fun ⟨here, later⟩ => .cons here later

theorem everyStep_append {before after : List α} {first : σ} :
    EveryStep body holds (before ++ after) first ↔
      EveryStep body holds before first ∧
        ∀ middle, before.foldlM body first = .ok middle → EveryStep body holds after middle := by
  induction before generalizing first with
  | nil =>
    refine ⟨fun every => ⟨.nil first, fun middle same => ?_⟩, fun every => every.2 first rfl⟩
    cases same
    exact every
  | cons head rest inductionHypothesis =>
    rw [List.cons_append, everyStep_cons, everyStep_cons, and_assoc]
    refine and_congr_right fun _ => ⟨fun every => ⟨?_, ?_⟩, fun every next step => ?_⟩
    · exact fun next step => (inductionHypothesis.mp (every next step)).1
    · intro middle completes
      obtain ⟨next, step, later⟩ := foldlM_cons_eq_ok.mp completes
      exact (inductionHypothesis.mp (every next step)).2 middle later
    · exact inductionHypothesis.mpr ⟨every.1 next step, fun middle later =>
        every.2 middle (foldlM_cons_eq_ok.mpr ⟨next, step, later⟩)⟩

theorem EveryStep.mono {items : List α} {first : σ} (every : EveryStep body holds items first)
    (weaker : ∀ item state, holds item state → holds' item state) :
    EveryStep body holds' items first := by
  induction every with
  | nil state => exact .nil state
  | cons here _ inductionHypothesis => exact .cons (weaker _ _ here) inductionHypothesis

/-- A condition that an invariant implies holds in every step. -/
theorem everyStep_of_invariant (invariant : σ → Prop) {items : List α} {first : σ}
    (keeps : ∀ item ∈ items, ∀ before after, body before item = .ok after → invariant before →
      invariant after)
    (implies : ∀ item ∈ items, ∀ state, invariant state → holds item state)
    (start : invariant first) : EveryStep body holds items first := by
  induction items generalizing first with
  | nil => exact .nil first
  | cons head rest inductionHypothesis =>
    exact .cons (implies head List.mem_cons_self first start) fun next step => inductionHypothesis
      (fun item member => keeps item (List.mem_cons_of_mem head member))
      (fun item member => implies item (List.mem_cons_of_mem head member))
      (keeps head List.mem_cons_self first next step start)

instance decidableEveryStep [∀ item state, Decidable (holds item state)] :
    ∀ items first, Decidable (EveryStep body holds items first)
  | [], state => isTrue (.nil state)
  | item :: rest, state =>
    match result : body state item with
    | .error failure =>
      decidable_of_iff (holds item state) (by
        rw [everyStep_cons, result]
        refine (and_iff_left ?_).symm
        intro next same
        cases same)
    | .ok next =>
      have := decidableEveryStep rest next
      decidable_of_iff (holds item state ∧ EveryStep body holds rest next) (by
        rw [everyStep_cons, result]
        exact and_congr_right fun _ =>
          ⟨fun every next' same => Except.ok.inj same ▸ every, fun every => every next rfl⟩)

/-- A relation between the items so far and the state, from the steps of the loop. -/
theorem relation_of_everyStep (relation : List α → σ → Prop) {items : List α} {first last : σ}
    (every : EveryStep body holds items first) (completes : items.foldlM body first = .ok last)
    (start : relation [] first)
    (keeps : ∀ done item before after, holds item before → relation done before →
      body before item = .ok after → relation (done ++ [item]) after) :
    relation items last := by
  have general : ∀ rest done state, EveryStep body holds rest state → relation done state →
      rest.foldlM body state = .ok last → relation (done ++ rest) last := by
    intro rest
    induction rest with
    | nil =>
      intro done state _ related completes
      cases completes
      rw [List.append_nil]
      exact related
    | cons head rest inductionHypothesis =>
      intro done state every related completes
      obtain ⟨next, step, later⟩ := foldlM_cons_eq_ok.mp completes
      obtain ⟨here, everyLater⟩ := everyStep_cons.mp every
      have := inductionHypothesis (done ++ [head]) next (everyLater next step)
        (keeps done head state next here related step) later
      rwa [List.append_assoc] at this
  exact general items [] first every start completes

end EveryStep

theorem relation_of_foldlM {body : σ → α → Except ε σ} (relation : List α → σ → Prop)
    {items : List α} {first last : σ} (completes : items.foldlM body first = .ok last)
    (start : relation [] first)
    (keeps : ∀ done item before after, item ∈ items → relation done before →
      body before item = .ok after → relation (done ++ [item]) after) :
    relation items last := by
  have members : EveryStep body (fun item _ => item ∈ items) items first :=
    everyStep_of_invariant (fun _ => True) (fun _ _ _ _ _ _ => trivial) (fun _ inside _ _ => inside)
      trivial
  exact relation_of_everyStep relation members completes start keeps

/-- What holds behind a computation that completes can be decided. -/
instance decidableOk {holds : σ → Prop} [∀ state, Decidable (holds state)]
    (result : Except ε σ) : Decidable (∀ state, result = .ok state → holds state) :=
  match result with
  | .error _ => isTrue (by
      intro state same
      cases same)
  | .ok state => decidable_of_iff (holds state)
      ⟨fun here state' same => Except.ok.inj same ▸ here, fun all => all state rfl⟩

/-! ### Results and failures -/

/-- A computation ends in a value with the one property or in a failure with the other. -/
def Meets (post : α → Prop) (fail : ε → Prop) : Except ε α → Prop
  | .ok value => post value
  | .error failure => fail failure

theorem Meets.mono {post post' : α → Prop} {fail fail' : ε → Prop} {result : Except ε α}
    (meets : Meets post fail result) (weaker : ∀ value, post value → post' value)
    (weakerFail : ∀ failure, fail failure → fail' failure) : Meets post' fail' result := by
  cases result with
  | ok value => exact weaker value meets
  | error failure => exact weakerFail failure meets

theorem Meets.bind {β : Type} {post : α → Prop} {post' : β → Prop} {fail : ε → Prop}
    {first : Except ε α} {next : α → Except ε β} (meets : Meets post fail first)
    (later : ∀ value, post value → Meets post' fail (next value)) :
    Meets post' fail (first >>= next) := by
  cases first with
  | ok value => exact later value meets
  | error failure => exact meets

/-- A computation that cannot fail has a value. -/
theorem exists_of_meets {post : α → Prop} {result : Except ε α}
    (meets : Meets post (fun _ => False) result) : ∃ value, result = .ok value ∧ post value := by
  cases result with
  | ok value => exact ⟨value, rfl, meets⟩
  | error failure => exact meets.elim

/-- A loop whose body keeps an invariant, or fails with a property, does so as a whole. -/
theorem meets_foldlM {body : σ → α → Except ε σ} {fail : ε → Prop}
    (invariant : List α → σ → Prop) {items : List α} {first : σ} (start : invariant [] first)
    (keeps : ∀ done item rest state, items = done ++ item :: rest → invariant done state →
      Meets (invariant (done ++ [item])) fail (body state item)) :
    Meets (invariant items) fail (items.foldlM body first) := by
  have general : ∀ rest done state, items = done ++ rest → invariant done state →
      Meets (invariant items) fail (rest.foldlM body state) := by
    intro rest
    induction rest with
    | nil =>
      intro done state whole holds
      rw [whole, List.append_nil]
      exact holds
    | cons head rest inductionHypothesis =>
      intro done state whole holds
      rw [List.foldlM_cons]
      refine (keeps done head rest state whole holds).bind ?_
      intro next nextHolds
      exact inductionHypothesis (done ++ [head]) next (by rw [whole, List.append_assoc]; rfl)
        nextHolds
  exact general items [] first rfl start

/-! ### Loops that make a list of results -/

theorem mapM_eq_filterMap {β : Type} {f : α → Option β} {items : List α}
    (all : ∀ item ∈ items, (f item).isSome) : items.mapM f = some (items.filterMap f) := by
  induction items with
  | nil => rfl
  | cons item rest inductionHypothesis =>
    obtain ⟨here, later⟩ := List.forall_mem_cons.mp all
    obtain ⟨result, isResult⟩ := Option.isSome_iff_exists.mp here
    rw [List.mapM_cons, isResult, inductionHypothesis later, List.filterMap_cons_some isResult]
    rfl

theorem mapM_isSome_iff {β : Type} {f : α → Option β} {items : List α} :
    (items.mapM f).isSome ↔ ∀ item ∈ items, (f item).isSome := by
  constructor
  · induction items with
    | nil => exact fun _ item inside => absurd inside List.not_mem_nil
    | cons item rest inductionHypothesis =>
      intro isSome
      rw [List.mapM_cons] at isSome
      cases here : f item with
      | none =>
        rw [here] at isSome
        cases isSome
      | some result =>
        rw [here] at isSome
        cases later : rest.mapM f with
        | none =>
          rw [later] at isSome
          cases isSome
        | some results =>
          rw [List.forall_mem_cons, here]
          exact ⟨rfl, inductionHypothesis (by rw [later]; rfl)⟩
  · intro all
    rw [mapM_eq_filterMap all]
    rfl

/-- A loop over the results of another one. -/
theorem mapM_of_mapM {β γ : Type} {f : α → Option β} {g : β → Option γ} {h : α → γ}
    {items : List α} {results : List β} (done : items.mapM f = some results)
    (each : ∀ item ∈ items, ∀ result, f item = some result → g result = some (h item)) :
    results.mapM g = some (items.map h) := by
  have all : ∀ item ∈ items, (f item).isSome := by
    rw [← mapM_isSome_iff, done]
    rfl
  rw [mapM_eq_filterMap all, Option.some.injEq] at done
  subst done
  induction items with
  | nil => rfl
  | cons item rest inductionHypothesis =>
    obtain ⟨here, later⟩ := List.forall_mem_cons.mp all
    obtain ⟨eachHere, eachLater⟩ := List.forall_mem_cons.mp each
    obtain ⟨result, isResult⟩ := Option.isSome_iff_exists.mp here
    rw [List.filterMap_cons_some isResult, List.mapM_cons, eachHere result isResult,
      inductionHypothesis eachLater later]
    rfl

end Fold
