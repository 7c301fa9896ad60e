/-
This file says which presses of the button get a script from `master-progs/gpio-interrupt.c`.
The bounds of the ranges leave out the lowest duration of the first range and the
millisecond between the first range and the second: a press of such a duration is longer
than noise and starts nothing. The main result is that these are the only ones: a run
classifies its presses as the comments say exactly when no press lasts that long.

The duration is the one by the clock. The program computes it in doubles, which are exact
below some hundred days, and above that the last range has no upper bound.
-/

import Buildroot4G.Progs.GpioInterrupt
import Mathlib.Data.Int.Order.Basic
import Mathlib.Tactic.SplitIfs

namespace Buildroot4G.Gpio

/-! ### The duration of a long press -/

/-- Rounding to a double loses less than half of a number. -/
theorem le_two_mul_roundDouble (number : ℤ) (nonneg : 0 ≤ number) :
    number ≤ 2 * roundDouble number := by
  by_cases small : number.natAbs < 2 ^ 53
  · rw [roundDouble_eq small]
    omega
  · obtain ⟨size, rfl⟩ := Int.eq_ofNat_of_zero_le nonneg
    rw [Int.natAbs_natCast] at small
    have large : size ≠ 0 := by
      rintro rfl
      exact small (Nat.two_pow_pos 53)
    rw [roundDouble, Int.natAbs_natCast, if_neg small, Int.sign_natCast_of_ne_zero large, one_mul]
    generalize isUnit : 2 ^ (size.log2 - 52) = unit
    have unitPos : 0 < unit := isUnit ▸ Nat.two_pow_pos _
    have unitLe : unit ≤ size :=
      isUnit ▸ (Nat.pow_le_pow_right (by decide) (Nat.sub_le _ _)).trans
        (Nat.log2_self_le large)
    have split := Nat.div_add_mod size unit
    have restLt := Nat.mod_lt size unitPos
    have one : unit * 1 ≤ unit * (size / unit) :=
      Nat.mul_le_mul_left unit (Nat.div_pos unitLe unitPos)
    have keeps : unit * (size / unit) ≤
        (if 2 * (size % unit) > unit ∨ 2 * (size % unit) = unit ∧ size / unit % 2 = 1
          then size / unit + 1 else size / unit) * unit := by
      rw [Nat.mul_comm]
      refine Nat.mul_le_mul_right unit ?_
      split_ifs <;> omega
    norm_cast
    omega

/-- A press that is too long for an exact duration is longer than the second range. -/
theorem thirdRangeLower_lt_tDiff {start stop : Timespec}
    (long : 2 ^ 53 - 10 ^ 9 < stop.nanoseconds - start.nanoseconds) :
    thirdRangeLower < tDiff start stop := by
  obtain ⟨startLow, startHigh⟩ := start.normal
  obtain ⟨stopLow, stopHigh⟩ := stop.normal
  rw [Timespec.nanoseconds, Timespec.nanoseconds] at long
  have seconds : 1000 ≤ stop.sec - start.sec := by omega
  have first := le_two_mul_roundDouble (stop.sec - start.sec) (by omega)
  have second := le_two_mul_roundDouble (10 ^ 9 * roundDouble (stop.sec - start.sec)) (by omega)
  have rest : roundDouble (stop.nsec - start.nsec) = stop.nsec - start.nsec :=
    roundDouble_eq (by omega)
  have third := le_two_mul_roundDouble
    (roundDouble (10 ^ 9 * roundDouble (stop.sec - start.sec)) + (stop.nsec - start.nsec))
    (by omega)
  rw [tDiff, rest, thirdRangeLower]
  omega

/-- The script depends on the duration by the clock. -/
theorem actionFor_tDiff {start stop : Timespec} (ordered : start.nanoseconds ≤ stop.nanoseconds) :
    actionFor (tDiff start stop) = actionFor (stop.nanoseconds - start.nanoseconds).toNat := by
  by_cases short : stop.nanoseconds - start.nanoseconds ≤ 2 ^ 53 - 10 ^ 9
  · have exact := tDiff_eq ordered short
    rw [← exact, Int.toNat_natCast]
  · have long := not_le.mp short
    have measured := thirdRangeLower_lt_tDiff long
    have isLong : ∀ duration, thirdRangeLower < duration →
        actionFor duration = some .reinstallSS := by
      intro duration above
      rw [thirdRangeLower] at above
      rw [actionFor, firstRangeLower, firstRangeUpper, secondRangeLower, secondRangeUpper,
        thirdRangeLower, if_neg (by omega), if_neg (by omega), if_neg (by omega), if_pos above]
    rw [isLong _ measured, isLong _ (by rw [thirdRangeLower]; omega)]

/-! ### The classes -/

/-- The order of the scripts, with no script below them. -/
def rank : Option Action → ℕ
  | none => 0
  | some .restartSS => 1
  | some .rebootFreedom => 2
  | some .reinstallSS => 3

/-- A duration that is no noise and in no range. -/
def Missed (duration : ℕ) : Prop :=
  duration = firstRangeLower ∨ firstRangeUpper < duration ∧ duration ≤ secondRangeLower

instance (duration : ℕ) : Decidable (Missed duration) :=
  inferInstanceAs (Decidable (_ ∨ _ ∧ _))

theorem actionFor_eq_none_iff (duration : ℕ) :
    actionFor duration = none ↔ duration < firstRangeLower ∨ Missed duration := by
  rw [actionFor, Missed, firstRangeLower, firstRangeUpper, secondRangeLower, secondRangeUpper,
    thirdRangeLower]
  split_ifs <;> simp only [true_iff, false_iff] <;> omega

/-- A longer press has no lower class, unless its duration is missed. -/
theorem rank_actionFor_le {shorter longer : ℕ} (le : shorter ≤ longer)
    (notMissed : ¬Missed longer) : rank (actionFor shorter) ≤ rank (actionFor longer) := by
  rw [Missed, firstRangeLower, firstRangeUpper, secondRangeLower] at notMissed
  rw [actionFor, actionFor, firstRangeLower, firstRangeUpper, secondRangeLower, secondRangeUpper,
    thirdRangeLower]
  split_ifs <;> simp only [rank] <;> omega

/-! ### The presses of a run -/

/-- A press of a run with the reading that begins it and the one that ends it. -/
structure IsPress (readings : List Reading) (start stop : ℕ) (first release : Reading) : Prop where
  begins : readings[start]? = some first
  ends : readings[stop]? = some release
  press : Press readings start stop

/-- How long a press lasts, in nanoseconds. -/
def duration (first release : Reading) : ℕ :=
  (release.time.nanoseconds - first.time.nanoseconds).toNat

/-- The clock does not go back. -/
def Ordered (readings : List Reading) : Prop :=
  readings.Pairwise fun first second => first.time.nanoseconds ≤ second.time.nanoseconds

instance (readings : List Reading) : Decidable (Ordered readings) :=
  inferInstanceAs (Decidable (readings.Pairwise _))

/-- Noise triggers nothing, every other press one script, and a longer press none of a lower
class. -/
structure Classified (startTime : Timespec) (readings : List Reading) : Prop where
  noise : ∀ {start stop first release}, IsPress readings start stop first release →
    duration first release < firstRangeLower → triggered startTime readings stop = none
  one : ∀ {start stop first release}, IsPress readings start stop first release →
    firstRangeLower ≤ duration first release →
      ∃! action, triggered startTime readings stop = some action
  monotone : ∀ {start stop first release start' stop' first' release'},
    IsPress readings start stop first release → IsPress readings start' stop' first' release' →
      duration first release ≤ duration first' release' →
        rank (triggered startTime readings stop) ≤ rank (triggered startTime readings stop')

variable {readings : List Reading} {start stop : ℕ} {first release : Reading}

/-- What the end of a press triggers. -/
theorem IsPress.triggered_eq (isPress : IsPress readings start stop first release)
    (startTime : Timespec) (ordered : Ordered readings) :
    triggered startTime readings stop = actionFor (duration first release) := by
  have inOrder : first.time.nanoseconds ≤ release.time.nanoseconds := by
    obtain ⟨startInside, isFirst⟩ := List.getElem?_eq_some_iff.mp isPress.begins
    obtain ⟨stopInside, isRelease⟩ := List.getElem?_eq_some_iff.mp isPress.ends
    rw [← isFirst, ← isRelease]
    exact List.pairwise_iff_getElem.mp ordered start stop startInside stopInside
      isPress.press.1.before
  rw [duration, ← actionFor_tDiff inOrder]
  refine Option.ext fun action => ?_
  rw [triggered_eq_some_iff]
  constructor
  · rintro ⟨start', first', release', begins, ends, press, acts⟩
    rw [press.1.unique isPress.press.1, isPress.begins] at begins
    rw [isPress.ends] at ends
    rw [Option.some.inj begins, Option.some.inj ends]
    exact acts
  · intro acts
    exact ⟨start, first, release, isPress.begins, isPress.ends, isPress.press, acts⟩

/-- A press of a missed duration triggers nothing. -/
theorem Classified.not_missed {startTime : Timespec} (classified : Classified startTime readings)
    (ordered : Ordered readings) (isPress : IsPress readings start stop first release) :
    ¬Missed (duration first release) := by
  intro missed
  have none := (actionFor_eq_none_iff _).mpr (Or.inr missed)
  rw [← isPress.triggered_eq startTime ordered] at none
  have notNoise : firstRangeLower ≤ duration first release := by
    rw [Missed, firstRangeLower, firstRangeUpper, secondRangeLower] at missed
    rw [firstRangeLower]
    omega
  obtain ⟨action, triggers, -⟩ := classified.one isPress notNoise
  rw [none] at triggers
  cases triggers

/-- A run classifies its presses exactly when the duration of none is missed. -/
theorem classified_iff (startTime : Timespec) (readings : List Reading)
    (ordered : Ordered readings) :
    Classified startTime readings ↔
      ∀ start stop first release, IsPress readings start stop first release →
        ¬Missed (duration first release) := by
  constructor
  · intro classified start stop first release isPress
    exact classified.not_missed ordered isPress
  · intro noneMissed
    refine ⟨fun isPress noise => ?_, @fun start stop first release isPress notNoise => ?_,
      fun isPress isPress' le => ?_⟩
    · rw [isPress.triggered_eq startTime ordered, actionFor_eq_none_iff]
      exact Or.inl noise
    · have acts : actionFor (duration first release) ≠ none := by
        rw [Ne, actionFor_eq_none_iff]
        rintro (noise | missed)
        · exact absurd notNoise (not_le.mpr noise)
        · exact noneMissed start stop first release isPress missed
      obtain ⟨action, isAction⟩ := Option.ne_none_iff_exists'.mp acts
      rw [isPress.triggered_eq startTime ordered, isAction]
      exact ⟨action, rfl, fun other same => (Option.some.inj same).symm⟩
    · rw [isPress.triggered_eq startTime ordered, isPress'.triggered_eq startTime ordered]
      exact rank_actionFor_le le (noneMissed _ _ _ _ isPress')

/-- A bounce of 20 ms and a press of 200 ms. -/
theorem classified_iff_bounce :
    Classified ⟨0, 0, by decide⟩ bounceAndPress ↔
      ∀ start stop first release, IsPress bounceAndPress start stop first release →
        ¬Missed (duration first release) :=
  classified_iff ⟨0, 0, by decide⟩ bounceAndPress (by decide)

theorem normal_zero : (0 : ℤ) ≤ 0 ∧ (0 : ℤ) < 10 ^ 9 := by decide

/-- A press of half a second and 500 microseconds. -/
def gapPress : List Reading :=
  [⟨'1', ⟨5, 0, normal_zero⟩⟩, ⟨'0', ⟨5, 500500000, by decide⟩⟩]

/-- It falls between the first range and the second. -/
theorem not_classified_gapPress : ¬Classified ⟨0, 0, by decide⟩ gapPress := by
  intro classified
  have isPress : IsPress gapPress 0 1 ⟨'1', ⟨5, 0, by decide⟩⟩ ⟨'0', ⟨5, 500500000, by decide⟩⟩ :=
    { begins := rfl
      ends := rfl
      press := ⟨⟨⟨_, rfl, by decide⟩, fun index below => absurd below (Nat.not_lt_zero index),
          Nat.zero_lt_one, fun index above below => by omega⟩, _, rfl, by decide⟩ }
  exact classified.not_missed (by decide) isPress (by decide)

end Buildroot4G.Gpio
