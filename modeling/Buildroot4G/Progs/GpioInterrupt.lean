/-
This file models the event loop of `master-progs/gpio-interrupt.c`: the program reads
the value of a pin after each interrupt, takes the time when the button goes down and
starts a script when it comes up, which one depending on how long it was down. The main
result says which readings trigger a script, for every sequence of readings.

A read that does not give two characters ends the program, so that a run is a list of
complete readings. The clock gives a time at each of them.
-/

import Mathlib.Algebra.Group.Int.Defs
import Mathlib.Algebra.Group.Nat.Defs
import Mathlib.Data.Int.Order.Basic
import Mathlib.Data.List.Basic
import Mathlib.Data.Nat.Log

namespace Buildroot4G.Gpio

/-- `struct timespec`. -/
structure Timespec where
  sec : ℤ
  nsec : ℤ
  normal : 0 ≤ nsec ∧ nsec < 10 ^ 9
  deriving DecidableEq

/-- The time in nanoseconds. -/
def Timespec.nanoseconds (time : Timespec) : ℤ := 10 ^ 9 * time.sec + time.nsec

/-- A reading of the pin: the character read and the time of the clock. -/
structure Reading where
  buff : Char
  time : Timespec
  deriving DecidableEq

/-- `atoi` of a string of one character. -/
def atoi (c : Char) : ℤ := if c.isDigit then c.toNat - '0'.toNat else 0

/-- The scripts the program starts. -/
inductive Action where
  | restartSS
  | rebootFreedom
  | reinstallSS
  deriving DecidableEq, Repr

/-! ### The duration -/

/-- The double next to an integer, an even one when two are. -/
def roundDouble (number : ℤ) : ℤ :=
  let size := number.natAbs
  if size < 2 ^ 53 then number
  else
    let unit := 2 ^ (size.log2 - 52)
    let quotient := size / unit
    let rest := size % unit
    let rounded :=
      if 2 * rest > unit ∨ 2 * rest = unit ∧ quotient % 2 = 1 then quotient + 1 else quotient
    number.sign * (rounded * unit)

/-- `t_diff`: the factor `1E9` makes the sum one of doubles. -/
def tDiff (start stop : Timespec) : ℕ :=
  (roundDouble (roundDouble (10 ^ 9 * roundDouble (stop.sec - start.sec)) +
    roundDouble (stop.nsec - start.nsec))).toNat

def firstRangeLower : ℕ := 100000000

def firstRangeUpper : ℕ := 500000000

def secondRangeLower : ℕ := 501000000

def secondRangeUpper : ℕ := 15000000000

def thirdRangeLower : ℕ := 15000000000

/-- The script for a duration. -/
def actionFor (duration : ℕ) : Option Action :=
  if duration < firstRangeLower then none
  else if duration > firstRangeLower ∧ duration ≤ firstRangeUpper then some .restartSS
  else if duration > secondRangeLower ∧ duration ≤ secondRangeUpper then some .rebootFreedom
  else if duration > thirdRangeLower then some .reinstallSS
  else none

/-! ### The loop -/

/-- What the loop keeps from one reading to the next. -/
structure State where
  lastValue : ℤ
  startTime : Timespec
  deriving DecidableEq

/-- What the loop does with a reading, and the script it starts. -/
def step (state : State) (reading : Reading) : State × Option Action :=
  let newValue := atoi reading.buff
  if state.lastValue = 0 ∧ newValue = 1 then
    ({ lastValue := newValue, startTime := reading.time }, none)
  else if state.lastValue = 1 ∧ newValue = 0 then
    ({ state with lastValue := newValue }, actionFor (tDiff state.startTime reading.time))
  else (state, none)

/-- The state before the first reading; the start time is not initialised. -/
def initial (startTime : Timespec) : State := ⟨0, startTime⟩

def stateAfter (startTime : Timespec) (readings : List Reading) : State :=
  readings.foldl (fun state reading => (step state reading).1) (initial startTime)

/-- The script that a reading of a run triggers. -/
def triggered (startTime : Timespec) (readings : List Reading) (index : ℕ) : Option Action :=
  readings[index]?.bind fun reading =>
    (step (stateAfter startTime (readings.take index)) reading).2

/-! ### Presses of the button -/

/-- A reading of the run has a value. -/
def HasValue (readings : List Reading) (index : ℕ) (value : ℤ) : Prop :=
  ∃ reading, readings[index]? = some reading ∧ atoi reading.buff = value

/-- The button is down since a reading: it is the first reading of 1 after the previous 0, and
none of 0 has followed. -/
structure Down (readings : List Reading) (start stop : ℕ) : Prop where
  one : HasValue readings start 1
  first : ∀ index < start, HasValue readings index 1 →
    ∃ zero, index < zero ∧ zero < start ∧ HasValue readings zero 0
  before : start < stop
  held : ∀ index, start < index → index < stop → ¬HasValue readings index 0

/-- The button is up: a reading of 0 has followed each reading of 1. -/
def Up (readings : List Reading) (stop : ℕ) : Prop :=
  ∀ index < stop, HasValue readings index 1 →
    ∃ zero, index < zero ∧ zero < stop ∧ HasValue readings zero 0

/-- A completed press: the button is down since one reading, and another one is of 0. -/
def Press (readings : List Reading) (start stop : ℕ) : Prop :=
  Down readings start stop ∧ HasValue readings stop 0

/-- A press is completed once. -/
theorem press_unique {readings : List Reading} {start stop stop' : ℕ}
    (press : Press readings start stop) (press' : Press readings start stop') : stop = stop' := by
  rcases Nat.lt_trichotomy stop stop' with less | same | more
  · exact absurd press.2 (press'.1.held stop press.1.before less)
  · exact same
  · exact absurd press'.2 (press.1.held stop' press'.1.before more)

section Run

variable {startTime : Timespec} {readings : List Reading}

theorem hasValue_iff {index : ℕ} {reading : Reading} (found : readings[index]? = some reading)
    (value : ℤ) : HasValue readings index value ↔ atoi reading.buff = value :=
  ⟨fun ⟨_, same, isValue⟩ => Option.some.inj (found.symm.trans same) ▸ isValue,
    fun isValue => ⟨reading, found, isValue⟩⟩

/-- What the loop keeps: whether the button is down, and since which reading. -/
def Keeps (readings : List Reading) (stop : ℕ) (state : State) : Prop :=
  state.lastValue = 0 ∧ Up readings stop ∨
    state.lastValue = 1 ∧ ∃ start first, readings[start]? = some first ∧
      Down readings start stop ∧ state.startTime = first.time

/-- One reading keeps it. -/
theorem Keeps.step {stop : ℕ} {state : State} (keeps : Keeps readings stop state)
    {reading : Reading} (found : readings[stop]? = some reading) :
    Keeps readings (stop + 1) (step state reading).1 := by
  have value := hasValue_iff found
  rw [Gpio.step]
  rcases keeps with ⟨last, up⟩ | ⟨last, start, first, isFirst, down, time⟩
  · by_cases one : atoi reading.buff = 1
    · rw [if_pos ⟨last, one⟩]
      refine Or.inr ⟨one, stop, reading, found, ⟨(value 1).mpr one, up, Nat.lt_succ_self stop, ?_⟩,
        rfl⟩
      intro index above below
      omega
    · rw [if_neg fun both => one both.2, if_neg (by rw [last]; exact fun both => nomatch both.1)]
      refine Or.inl ⟨last, fun index below isOne => ?_⟩
      have notLast : index ≠ stop := fun same => one ((value 1).mp (same ▸ isOne))
      obtain ⟨zero, after, before, isZero⟩ := up index (by omega) isOne
      exact ⟨zero, after, Nat.lt_succ_of_lt before, isZero⟩
  · rw [if_neg (by rw [last]; exact fun both => nomatch both.1)]
    by_cases isZero : atoi reading.buff = 0
    · rw [if_pos ⟨last, isZero⟩]
      refine Or.inl ⟨isZero, fun index below isOne => ?_⟩
      have notLast : index ≠ stop := by
        rintro rfl
        rw [(value 1).mp isOne] at isZero
        cases isZero
      exact ⟨stop, by omega, Nat.lt_succ_self stop, (value 0).mpr isZero⟩
    · rw [if_neg fun both => isZero both.2]
      refine Or.inr ⟨last, start, first, isFirst,
        ⟨down.one, down.first, Nat.lt_succ_of_lt down.before, fun index after below => ?_⟩, time⟩
      by_cases isLast : index = stop
      · rw [isLast, value]
        exact isZero
      · exact down.held index after (by omega)

/-- The state after any part of a run. -/
theorem keeps_stateAfter (startTime : Timespec) {stop : ℕ} (inside : stop ≤ readings.length) :
    Keeps readings stop (stateAfter startTime (readings.take stop)) := by
  induction stop with
  | zero => exact Or.inl ⟨rfl, nofun⟩
  | succ stop inductionHypothesis =>
    have found : readings[stop]? = some readings[stop] := List.getElem?_eq_getElem inside
    have before := inductionHypothesis (Nat.le_of_succ_le inside)
    rw [List.take_succ_eq_append_getElem inside, stateAfter, List.foldl_append]
    exact before.step found

theorem Down.not_up {start stop : ℕ} (down : Down readings start stop) : ¬Up readings stop := by
  intro up
  obtain ⟨zero, after, before, isZero⟩ := up start down.before down.one
  exact down.held zero after before isZero

/-- The button is down since one reading only. -/
theorem Down.unique {start start' stop : ℕ} (down : Down readings start stop)
    (down' : Down readings start' stop) : start = start' := by
  rcases Nat.lt_trichotomy start start' with less | same | more
  · obtain ⟨zero, after, before, isZero⟩ := down'.first start less down.one
    exact absurd isZero (down.held zero after (before.trans down'.before))
  · exact same
  · obtain ⟨zero, after, before, isZero⟩ := down.first start' more down'.one
    exact absurd isZero (down'.held zero after (before.trans down.before))

/-- What a reading triggers, by the state before it. -/
theorem triggered_eq {stop : ℕ} {reading : Reading} (found : readings[stop]? = some reading) :
    triggered startTime readings stop =
      (step (stateAfter startTime (readings.take stop)) reading).2 := by
  rw [triggered, found]
  rfl

/-- A reading triggers a script exactly when it completes a press whose duration has one. -/
theorem triggered_eq_some_iff {stop : ℕ} {action : Action} :
    triggered startTime readings stop = some action ↔
      ∃ start first release, readings[start]? = some first ∧ readings[stop]? = some release ∧
        Press readings start stop ∧ actionFor (tDiff first.time release.time) = some action := by
  cases found : readings[stop]? with
  | none =>
    refine iff_of_false (fun triggers => ?_) fun ⟨_, _, _, _, impossible, _⟩ => nomatch impossible
    rw [triggered, found] at triggers
    cases triggers
  | some release =>
    have inside : stop < readings.length := (List.getElem?_eq_some_iff.mp found).1
    have keeps := keeps_stateAfter startTime (Nat.le_of_lt inside)
    rw [triggered_eq found, step]
    rcases keeps with ⟨last, up⟩ | ⟨last, start, first, isFirst, down, time⟩
    · have noAction : ¬∃ start first release', readings[start]? = some first ∧
          some release = some release' ∧ Press readings start stop ∧
          actionFor (tDiff first.time release'.time) = some action :=
        fun ⟨_, _, _, _, _, press, _⟩ => press.1.not_up up
      refine iff_of_false (fun triggers => ?_) noAction
      by_cases one : atoi release.buff = 1
      · rw [if_pos ⟨last, one⟩] at triggers
        cases triggers
      · rw [if_neg fun both => one both.2,
          if_neg (by rw [last]; exact fun both => nomatch both.1)] at triggers
        cases triggers
    · rw [if_neg (by rw [last]; exact fun both => nomatch both.1)]
      by_cases isZero : atoi release.buff = 0
      · rw [if_pos ⟨last, isZero⟩, time]
        constructor
        · intro triggers
          exact ⟨start, first, release, isFirst, rfl,
            ⟨down, (hasValue_iff found 0).mpr isZero⟩, triggers⟩
        · rintro ⟨start', first', release', isFirst', same, press, acts⟩
          rw [press.1.unique down, isFirst] at isFirst'
          rw [Option.some.inj same, Option.some.inj isFirst']
          exact acts
      · rw [if_neg fun both => isZero both.2]
        refine iff_of_false nofun fun ⟨_, _, _, _, _, press, _⟩ => ?_
        exact isZero ((hasValue_iff found 0).mp press.2)

end Run

/-! ### Durations -/

theorem roundDouble_eq {number : ℤ} (small : number.natAbs < 2 ^ 53) :
    roundDouble number = number := if_pos small

/-- A duration below some hundred days is measured to the nanosecond. -/
theorem tDiff_eq {start stop : Timespec} (ordered : start.nanoseconds ≤ stop.nanoseconds)
    (short : stop.nanoseconds - start.nanoseconds ≤ 2 ^ 53 - 10 ^ 9) :
    (tDiff start stop : ℤ) = stop.nanoseconds - start.nanoseconds := by
  obtain ⟨startLow, startHigh⟩ := start.normal
  obtain ⟨stopLow, stopHigh⟩ := stop.normal
  rw [Timespec.nanoseconds, Timespec.nanoseconds] at *
  have seconds : (stop.sec - start.sec).natAbs < 2 ^ 53 := by omega
  have product : (10 ^ 9 * (stop.sec - start.sec)).natAbs < 2 ^ 53 := by omega
  have rest : (stop.nsec - start.nsec).natAbs < 2 ^ 53 := by omega
  rw [tDiff, roundDouble_eq seconds, roundDouble_eq product, roundDouble_eq rest,
    roundDouble_eq (by omega)]
  omega

/-- In every run only a reading of 0 triggers a script, and it follows a press: the duration is
that since the first reading of 1 after the previous 0, and no other reading completes the press. -/
theorem triggered_completes_press (startTime : Timespec) (readings : List Reading)
    (ordered : readings.Pairwise fun first second =>
      first.time.nanoseconds ≤ second.time.nanoseconds)
    (stop : ℕ) (action : Action) (triggers : triggered startTime readings stop = some action) :
    ∃ start first release, readings[start]? = some first ∧ readings[stop]? = some release ∧
      Press readings start stop ∧ actionFor (tDiff first.time release.time) = some action ∧
      (release.time.nanoseconds - first.time.nanoseconds ≤ 2 ^ 53 - 10 ^ 9 →
        (tDiff first.time release.time : ℤ) =
          release.time.nanoseconds - first.time.nanoseconds) ∧
      ∀ other, Press readings start other → other = stop := by
  obtain ⟨start, first, release, isFirst, isRelease, press, acts⟩ :=
    triggered_eq_some_iff.mp triggers
  refine ⟨start, first, release, isFirst, isRelease, press, acts, tDiff_eq ?_,
    fun other otherPress => press_unique otherPress press⟩
  obtain ⟨startInside, startIs⟩ := List.getElem?_eq_some_iff.mp isFirst
  obtain ⟨stopInside, stopIs⟩ := List.getElem?_eq_some_iff.mp isRelease
  rw [← startIs, ← stopIs]
  exact List.pairwise_iff_getElem.mp ordered start stop startInside stopInside press.1.before

/-- A bounce that is too short, and a press of 200 ms that is read twice. -/
def bounceAndPress : List Reading :=
  [⟨'1', ⟨5, 0, by decide⟩⟩, ⟨'0', ⟨5, 20000000, by decide⟩⟩, ⟨'1', ⟨5, 900000000, by decide⟩⟩,
    ⟨'1', ⟨6, 0, by decide⟩⟩, ⟨'0', ⟨6, 100000000, by decide⟩⟩]

theorem triggered_completes_press_bounce :
    ∃ start first release, bounceAndPress[start]? = some first ∧
      bounceAndPress[4]? = some release ∧ Press bounceAndPress start 4 ∧
      actionFor (tDiff first.time release.time) = some .restartSS ∧
      (release.time.nanoseconds - first.time.nanoseconds ≤ 2 ^ 53 - 10 ^ 9 →
        (tDiff first.time release.time : ℤ) =
          release.time.nanoseconds - first.time.nanoseconds) ∧
      ∀ other, Press bounceAndPress start other → other = 4 :=
  triggered_completes_press ⟨0, 0, by decide⟩ bounceAndPress (by decide) 4 .restartSS (by decide)

end Buildroot4G.Gpio
