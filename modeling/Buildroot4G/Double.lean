/-
This file is a theory of the doubles that a decimal numeral becomes: the numbers of 53 binary
digits, of which the nearest one is taken, and the even one of two that are as near. Up to 2^53 all
natural numbers are doubles; above, a number becomes one that stays what it is.
-/

import Mathlib.Algebra.Order.Ring.Rat
import Mathlib.Algebra.Order.Field.Basic
import Mathlib.Data.Nat.Log
import Mathlib.Tactic.FieldSimp
import Mathlib.Tactic.Linarith
import Mathlib.Tactic.Ring

namespace Double

/-- The nearest integer, and the even one of two. -/
def roundEven (value : ℚ) : ℤ :=
  let below := value.floor
  let rest := value - below
  if rest < 1 / 2 then below
  else if 1 / 2 < rest then below + 1
  else if below % 2 = 0 then below
  else below + 1

/-- `2 ^ exponent`. -/
def scale (exponent : ℤ) : ℚ := (2 ^ exponent.toNat : ℕ) / (2 ^ (-exponent).toNat : ℕ)

/-- The exponent of the numbers that are too large. -/
def tooLarge : ℕ := 1024

/-- What stands for the infinite doubles; every finite one is smaller. -/
def infinity : ℕ := 2 ^ tooLarge

/-- The exponent of the last binary digit of the doubles of a magnitude. -/
def lastPlace (magnitude : ℚ) : ℤ :=
  let length : ℤ := magnitude.num.natAbs.log2 - magnitude.den.log2
  max (-1074) ((if scale length ≤ magnitude then length else length - 1) - 52)

/-- The double that is nearest to a number. -/
def toDouble (value : ℚ) : ℚ :=
  let place := lastPlace value.abs
  max (-infinity) (min infinity (roundEven (value / scale place) * scale place))

/-- The double that is nearest to a natural number. -/
def nearest (number : ℕ) : ℕ := (toDouble number).floor.toNat

/-! ### Rounding -/

@[simp]
theorem roundEven_intCast (number : ℤ) : roundEven number = number := by
  simp [roundEven]

theorem le_roundEven {bound : ℤ} {value : ℚ} (le : (bound : ℚ) ≤ value) :
    bound ≤ roundEven value := by
  have floorLe : bound ≤ value.floor := Rat.le_floor_iff.mpr le
  rw [roundEven]
  split
  · exact floorLe
  · split
    · omega
    · split
      · exact floorLe
      · omega

theorem roundEven_le {bound : ℤ} {value : ℚ} (le : value ≤ bound) : roundEven value ≤ bound := by
  have below : (value.floor : ℚ) ≤ value := Rat.floor_le value
  have floorLe : value.floor ≤ bound := by exact_mod_cast below.trans le
  rcases floorLe.lt_or_eq with less | same
  · rw [roundEven]
    split
    · exact floorLe
    · split
      · omega
      · split
        · exact floorLe
        · omega
  · have exact : value = bound := le_antisymm le (same ▸ below)
    rw [exact, roundEven_intCast]

theorem scale_of_nonneg {exponent : ℕ} : scale exponent = 2 ^ exponent := by
  simp [scale]

theorem scale_of_neg {exponent : ℕ} : scale (-exponent) = 1 / 2 ^ exponent := by
  simp [scale]

/-! ### Natural numbers -/

theorem lastPlace_natCast {number : ℕ} (nonzero : number ≠ 0) :
    lastPlace (number : ℚ) = (number.log2 : ℤ) - 52 := by
  have below : scale (number.log2 : ℤ) ≤ number := by
    rw [scale_of_nonneg]
    exact_mod_cast Nat.log2_self_le nonzero
  have one : Nat.log2 1 = 0 := by decide
  rw [lastPlace]
  simp only [Rat.num_natCast, Int.natAbs_natCast, Rat.den_natCast, one, Nat.cast_zero, sub_zero,
    if_pos below]
  omega

theorem abs_natCast (number : ℕ) : (number : ℚ).abs = number := by
  rw [Rat.abs, if_pos (Nat.cast_nonneg number)]

/-- A multiple of the last place is a double, as long as it is finite. -/
theorem toDouble_of_dvd {number : ℕ} (divides : 2 ^ (number.log2 - 52) ∣ number) :
    toDouble number = (min infinity number : ℕ) := by
  have nonneg : (-infinity : ℚ) ≤ (min infinity number : ℕ) :=
    le_trans (neg_nonpos.mpr (Nat.cast_nonneg infinity)) (Nat.cast_nonneg _)
  suffices whole : (roundEven ((number : ℚ) / scale (lastPlace number)) : ℚ) *
      scale (lastPlace number) = number by
    rw [Nat.cast_min] at nonneg ⊢
    rw [toDouble, abs_natCast, whole, max_eq_right nonneg]
  rcases Nat.eq_zero_or_pos number with rfl | positive
  · have zero : roundEven 0 = 0 := roundEven_intCast 0
    simp [zero]
  · rw [lastPlace_natCast positive.ne']
    rcases Nat.lt_or_ge number.log2 52 with small | large
    · obtain ⟨shift, isShift⟩ : ∃ shift : ℕ, (number.log2 : ℤ) - 52 = -(shift : ℤ) :=
        ⟨52 - number.log2, by omega⟩
      have integer : (number : ℚ) / scale (-(shift : ℤ)) = ((number * 2 ^ shift : ℤ) : ℚ) := by
        rw [scale_of_neg]
        push_cast
        field_simp
      rw [isShift, integer, roundEven_intCast, scale_of_neg]
      push_cast
      field_simp
    · obtain ⟨units, isUnits⟩ := divides
      obtain ⟨shift, isShift⟩ : ∃ shift : ℕ, number.log2 = shift + 52 :=
        ⟨number.log2 - 52, by omega⟩
      have place : (number.log2 : ℤ) - 52 = (shift : ℤ) := by omega
      have isNumber : (number : ℚ) = (units : ℤ) * 2 ^ shift := by
        rw [isShift, Nat.add_sub_cancel] at isUnits
        rw [isUnits]
        push_cast
        ring
      have integer : (number : ℚ) / scale (shift : ℤ) = ((units : ℤ) : ℚ) := by
        rw [scale_of_nonneg, isNumber]
        field_simp
      rw [place, integer, roundEven_intCast, scale_of_nonneg, isNumber]

/-- The double of a number that is not below 2^53. -/
theorem exists_toDouble {number : ℕ} (large : 2 ^ 53 ≤ number) :
    ∃ units : ℕ, 2 ^ 52 ≤ units ∧ units ≤ 2 ^ 53 ∧
      toDouble number = (min infinity (units * 2 ^ (number.log2 - 52)) : ℕ) := by
  have nonzero : number ≠ 0 := by
    have := Nat.two_pow_pos 53
    omega
  have long : 53 ≤ number.log2 := (Nat.le_log2 nonzero).mpr large
  obtain ⟨shift, isShift⟩ : ∃ shift : ℕ, number.log2 = shift + 52 := ⟨number.log2 - 52, by omega⟩
  have place : (number.log2 : ℤ) - 52 = (shift : ℤ) := by omega
  have positive : (0 : ℚ) < 2 ^ shift := by positivity
  have lower : ((2 ^ 52 : ℤ) : ℚ) ≤ (number : ℚ) / 2 ^ shift := by
    rw [le_div_iff₀ positive]
    have bound := Nat.log2_self_le nonzero
    rw [isShift, Nat.pow_add, Nat.mul_comm] at bound
    exact_mod_cast bound
  have upper : (number : ℚ) / 2 ^ shift ≤ ((2 ^ 53 : ℤ) : ℚ) := by
    rw [div_le_iff₀ positive]
    have bound := (Nat.lt_log2_self (n := number)).le
    rw [isShift, show shift + 52 + 1 = 53 + shift by omega, Nat.pow_add] at bound
    exact_mod_cast bound
  obtain ⟨units, isUnits⟩ := Int.eq_ofNat_of_zero_le
    (le_trans (by norm_num) (le_roundEven lower) : 0 ≤ roundEven ((number : ℚ) / 2 ^ shift))
  refine ⟨units, ?_, ?_, ?_⟩
  · have bound := le_roundEven lower
    rw [isUnits] at bound
    exact_mod_cast bound
  · have bound := roundEven_le upper
    rw [isUnits] at bound
    exact_mod_cast bound
  · have nonneg : (-infinity : ℚ) ≤ (min infinity (units * 2 ^ shift) : ℕ) :=
      le_trans (neg_nonpos.mpr (Nat.cast_nonneg infinity)) (Nat.cast_nonneg _)
    rw [toDouble, abs_natCast, lastPlace_natCast nonzero, place, scale_of_nonneg, isUnits, isShift,
      Nat.add_sub_cancel]
    push_cast at nonneg ⊢
    exact max_eq_right nonneg

theorem nearest_of_eq {number whole : ℕ} (isWhole : toDouble number = whole) :
    nearest number = whole := by
  have floor : (whole : ℚ).floor = whole := Rat.floor_intCast whole
  rw [nearest, isWhole, floor, Int.toNat_natCast]

theorem dvd_of_lt {number : ℕ} (small : number < 2 ^ 53) : 2 ^ (number.log2 - 52) ∣ number := by
  have short : number.log2 - 52 = 0 := by
    rcases Nat.eq_zero_or_pos number with rfl | positive
    · decide
    · have := (Nat.log2_lt positive.ne').mpr small
      omega
  rw [short, Nat.pow_zero]
  exact Nat.one_dvd number

/-- The double of a natural number is a natural number. -/
theorem toDouble_natCast (number : ℕ) : toDouble number = nearest number := by
  rcases Nat.lt_or_ge number (2 ^ 53) with small | large
  · rw [nearest_of_eq (toDouble_of_dvd (dvd_of_lt small)), toDouble_of_dvd (dvd_of_lt small)]
  · obtain ⟨units, _, _, isDouble⟩ := exists_toDouble large
    rw [nearest_of_eq isDouble, isDouble]

theorem le_infinity : 2 ^ 53 ≤ infinity :=
  Nat.pow_le_pow_right (by decide) (by decide : 53 ≤ tooLarge)

/-- Below 2^53 every number is a double. -/
theorem nearest_of_lt {number : ℕ} (small : number < 2 ^ 53) : nearest number = number := by
  rw [nearest_of_eq (toDouble_of_dvd (dvd_of_lt small))]
  exact min_eq_right (small.le.trans le_infinity)

theorem le_nearest {number : ℕ} (large : 2 ^ 53 ≤ number) : 2 ^ 53 ≤ nearest number := by
  obtain ⟨units, above, _, isDouble⟩ := exists_toDouble large
  have nonzero : number ≠ 0 := by
    have := Nat.two_pow_pos 53
    omega
  have long : 53 ≤ number.log2 := (Nat.le_log2 nonzero).mpr large
  rw [nearest_of_eq isDouble]
  refine le_min le_infinity ?_
  calc 2 ^ 53 = 2 ^ 52 * 2 ^ 1 := by rfl
    _ ≤ units * 2 ^ (number.log2 - 52) :=
      Nat.mul_le_mul above (Nat.pow_le_pow_right (by decide) (by omega))

/-- A number below 2^53 is the double of itself only. -/
theorem nearest_eq_iff {number other : ℕ} (small : other < 2 ^ 53) :
    nearest number = other ↔ number = other := by
  rcases Nat.lt_or_ge number (2 ^ 53) with less | large
  · rw [nearest_of_lt less]
  · have := le_nearest large
    exact iff_of_false (by omega) (by omega)

theorem log2_mul_two_pow {units : ℕ} (nonzero : units ≠ 0) (shift : ℕ) :
    (units * 2 ^ shift).log2 = units.log2 + shift := by
  induction shift with
  | zero => rw [Nat.pow_zero, Nat.mul_one, Nat.add_zero]
  | succ shift inductionHypothesis =>
    have positive : units * 2 ^ shift ≠ 0 :=
      Nat.mul_ne_zero nonzero (Nat.two_pow_pos shift).ne'
    rw [Nat.pow_succ, ← Nat.mul_assoc, Nat.mul_comm _ 2, Nat.log2_two_mul positive,
      inductionHypothesis, Nat.add_assoc]

/-- The double of a large number is a multiple of its own last place. -/
theorem dvd_of_units {units : ℕ} (above : 2 ^ 52 ≤ units) (below : units ≤ 2 ^ 53) (shift : ℕ) :
    2 ^ ((units * 2 ^ shift).log2 - 52) ∣ units * 2 ^ shift := by
  have nonzero : units ≠ 0 := by
    have := Nat.two_pow_pos 52
    omega
  rw [log2_mul_two_pow nonzero]
  rcases below.lt_or_eq with less | rfl
  · have length : units.log2 = 52 := by
      have := (Nat.le_log2 nonzero).mpr above
      have := (Nat.log2_lt nonzero).mpr less
      omega
    rw [length, Nat.add_sub_cancel_left]
    exact Nat.dvd_mul_left _ _
  · rw [Nat.log2_two_pow, ← Nat.pow_add]
    exact Nat.pow_dvd_pow 2 (by omega)

/-- A double stays what it is. -/
@[simp]
theorem nearest_nearest (number : ℕ) : nearest (nearest number) = nearest number := by
  rcases Nat.lt_or_ge number (2 ^ 53) with small | large
  · rw [nearest_of_lt small, nearest_of_lt small]
  · obtain ⟨units, above, below, isDouble⟩ := exists_toDouble large
    rw [nearest_of_eq isDouble]
    have divides : 2 ^ ((min infinity (units * 2 ^ (number.log2 - 52))).log2 - 52) ∣
        min infinity (units * 2 ^ (number.log2 - 52)) := by
      rcases min_choice infinity (units * 2 ^ (number.log2 - 52)) with infinite | finite
      · rw [infinite, infinity, Nat.log2_two_pow]
        exact Nat.pow_dvd_pow 2 (Nat.sub_le tooLarge 52)
      · rw [finite]
        exact dvd_of_units above below _
    rw [nearest_of_eq (toDouble_of_dvd divides)]
    exact min_eq_right (min_le_left _ _)

end Double
