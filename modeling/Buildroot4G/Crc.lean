/-
This file is a theory of cyclic redundancy checks that take the most significant bit
first: the register is divided bit by bit, and a division of eight bits at once looks
one word up in a table.
-/

import Mathlib.Data.Nat.Notation

namespace Crc

variable {w : ℕ} (poly : BitVec w)

/-- One bit of the division. -/
def shift (register : BitVec w) : BitVec w :=
  if register.msb then register <<< 1 ^^^ poly else register <<< 1

def shifts : ℕ → BitVec w → BitVec w
  | 0, register => register
  | count + 1, register => shift poly (shifts count register)

/-- A byte at the top of a register. -/
def atTop (byte : BitVec 8) : BitVec w := byte.setWidth w <<< (w - 8)

/-- A byte of the message enters at the top and is divided out. -/
def enter (register : BitVec w) (byte : BitVec 8) : BitVec w :=
  shifts poly 8 (register ^^^ atTop byte)

/-- The check of a message, from a register. -/
def crc (register : BitVec w) (message : List (BitVec 8)) : BitVec w :=
  message.foldl (enter poly) register

/-- The word of the table for a byte. -/
def word (byte : BitVec 8) : BitVec w := shifts poly 8 (atTop byte)

theorem shift_xor (first second : BitVec w) :
    shift poly (first ^^^ second) = shift poly first ^^^ shift poly second := by
  rw [shift, shift, shift, BitVec.msb_xor, BitVec.shiftLeft_xor_distrib]
  cases first.msb <;> cases second.msb
  · rfl
  · exact BitVec.xor_assoc _ _ _
  · change first <<< 1 ^^^ second <<< 1 ^^^ poly = first <<< 1 ^^^ poly ^^^ second <<< 1
    rw [BitVec.xor_assoc, BitVec.xor_comm (second <<< 1), ← BitVec.xor_assoc]
  · change first <<< 1 ^^^ second <<< 1 = first <<< 1 ^^^ poly ^^^ (second <<< 1 ^^^ poly)
    rw [BitVec.xor_assoc, BitVec.xor_comm poly, BitVec.xor_assoc, BitVec.xor_self,
      BitVec.xor_zero]

theorem shifts_xor (count : ℕ) (first second : BitVec w) :
    shifts poly count (first ^^^ second) =
      shifts poly count first ^^^ shifts poly count second := by
  induction count with
  | zero => rfl
  | succ count inductionHypothesis => rw [shifts, inductionHypothesis, shift_xor]; rfl

/-- A register whose first bits are clear is only moved. -/
theorem shifts_of_clear {register : BitVec w} {count : ℕ}
    (clear : ∀ index < count, register.getMsbD index = false) :
    shifts poly count register = register <<< count := by
  induction count with
  | zero => rw [shifts, BitVec.shiftLeft_zero]
  | succ count inductionHypothesis =>
    have before := inductionHypothesis fun index below => clear index (Nat.lt_succ_of_lt below)
    have noMsb : (register <<< count).msb = false := by
      rw [BitVec.msb_shiftLeft]
      exact clear count (Nat.lt_succ_self count)
    rw [shifts, before, shift, if_neg (by rw [noMsb]; exact Bool.false_ne_true),
      BitVec.shiftLeft_add]

/-- The top byte of a register and the rest of it. -/
theorem eq_atTop_xor (wide : 8 ≤ w) (register : BitVec w) :
    register = atTop ((register >>> (w - 8)).setWidth 8) ^^^ (register <<< 8 >>> 8) := by
  ext index bound
  rw [atTop]
  simp only [BitVec.getElem_xor, BitVec.getElem_shiftLeft, BitVec.getElem_setWidth,
    BitVec.getElem_ushiftRight, BitVec.getLsbD_setWidth, BitVec.getLsbD_ushiftRight,
    BitVec.getLsbD_shiftLeft]
  by_cases low : index < w - 8
  · have next : 8 + index < w := by omega
    simp [low, next, BitVec.getLsbD_eq_getElem bound]
  · have here : w - 8 + (index - (w - 8)) = index := by omega
    have last : index - (w - 8) < 8 := by omega
    have beyond : ¬8 + index < w := by omega
    simp [low, here, last, beyond, BitVec.getLsbD_eq_getElem bound]

/-- Eight bits at once: the rest of the register moves up, and the top byte is looked up. -/
theorem enter_eq_word (wide : 8 ≤ w) (register : BitVec w) (byte : BitVec 8) :
    enter poly register byte =
      register <<< 8 ^^^ word poly ((register >>> (w - 8)).setWidth 8 ^^^ byte) := by
  have clear : ∀ index < 8, (register <<< 8 >>> 8).getMsbD index = false := by
    intro index below
    rw [BitVec.getMsbD_ushiftRight]
    simp [below]
  have moved : register <<< 8 >>> 8 <<< 8 = register <<< 8 := by
    ext index bound
    simp only [BitVec.getElem_shiftLeft, BitVec.getElem_ushiftRight, BitVec.getLsbD_shiftLeft]
    by_cases low : index < 8
    · simp [low]
    · have here : 8 + (index - 8) = index := by omega
      have lower : index - 8 < w := by omega
      simp [low, here, bound, BitVec.getLsbD_eq_getElem lower]
  have split : register ^^^ atTop byte =
      atTop ((register >>> (w - 8)).setWidth 8 ^^^ byte) ^^^ (register <<< 8 >>> 8) := by
    have whole : atTop ((register >>> (w - 8)).setWidth 8 ^^^ byte) =
        atTop ((register >>> (w - 8)).setWidth 8) ^^^ (atTop byte : BitVec w) := by
      rw [atTop, BitVec.setWidth_xor, BitVec.shiftLeft_xor_distrib]
      rfl
    rw [whole, BitVec.xor_assoc, BitVec.xor_comm (atTop byte), ← BitVec.xor_assoc,
      ← eq_atTop_xor wide]
  rw [enter, split, shifts_xor, shifts_of_clear poly clear, moved, BitVec.xor_comm]
  rfl

/-! ### A bit at a time -/

/-- One bit of a message enters: it is compared with the bit that leaves. -/
def feed (register : BitVec w) (bit : Bool) : BitVec w :=
  if register.msb ^^ bit then register <<< 1 ^^^ poly else register <<< 1

/-- The bits of a byte, the most significant one first. -/
def bits (byte : BitVec 8) : List Bool := (List.range 8).map byte.getMsbD

/-- The check of a message, bit by bit. -/
def serial (register : BitVec w) (message : List (BitVec 8)) : BitVec w :=
  (message.flatMap bits).foldl (feed poly) register

/-- A bit of the message can wait in the register until it gets to its top. -/
theorem shift_xor_eq_feed (register waiting : BitVec w) :
    shift poly (register ^^^ waiting) = feed poly register waiting.msb ^^^ waiting <<< 1 := by
  rw [shift, feed, BitVec.msb_xor, BitVec.shiftLeft_xor_distrib]
  split
  · rw [BitVec.xor_assoc, BitVec.xor_comm (waiting <<< 1), BitVec.xor_assoc]
  · rfl

theorem shifts_xor_eq_feed (count : ℕ) (register waiting : BitVec w) :
    shifts poly count (register ^^^ waiting) =
      ((List.range count).map waiting.getMsbD).foldl (feed poly) register ^^^
        waiting <<< count := by
  induction count with
  | zero => simp [shifts]
  | succ count inductionHypothesis =>
    have next : (waiting <<< count).msb = waiting.getMsbD count := by
      rw [BitVec.msb_shiftLeft]
    rw [shifts, inductionHypothesis, shift_xor_eq_feed, next, List.range_succ, List.map_append,
      List.foldl_append, ← BitVec.shiftLeft_add]
    rfl

/-- A byte at the top has its bits first. -/
theorem getMsbD_atTop (wide : 8 ≤ w) (byte : BitVec 8) {index : ℕ} (inside : index < 8) :
    (atTop byte : BitVec w).getMsbD index = byte.getMsbD index := by
  have position : index < w := by omega
  simp only [atTop, BitVec.getMsbD_eq_getLsbD, BitVec.getLsbD_shiftLeft, BitVec.getLsbD_setWidth]
  have low : ¬w - 1 - index < w - 8 := by omega
  have same : w - 1 - index - (w - 8) = 8 - 1 - index := by omega
  rw [same]
  have bound : w - 1 - index < w := by omega
  have bound' : 8 - 1 - index < w := by omega
  simp [inside, position, low, bound, bound']

theorem enter_eq_feed (wide : 8 ≤ w) (register : BitVec w) (byte : BitVec 8) :
    enter poly register byte = (bits byte).foldl (feed poly) register := by
  have gone : (atTop byte : BitVec w) <<< 8 = 0#w := by
    rw [atTop, ← BitVec.shiftLeft_add, Nat.sub_add_cancel wide]
    exact BitVec.shiftLeft_eq_zero (Nat.le_refl w)
  have same : (List.range 8).map (atTop byte : BitVec w).getMsbD = bits byte :=
    List.map_congr_left fun index inside => getMsbD_atTop wide byte (List.mem_range.mp inside)
  rw [enter, shifts_xor_eq_feed, gone, BitVec.xor_zero, same]

/-- A byte at a time is a bit at a time. -/
theorem crc_eq_serial (wide : 8 ≤ w) (register : BitVec w) (message : List (BitVec 8)) :
    crc poly register message = serial poly register message := by
  rw [crc, serial]
  induction message generalizing register with
  | nil => rfl
  | cons byte rest inductionHypothesis =>
    rw [List.foldl_cons, List.flatMap_cons, List.foldl_append, inductionHypothesis,
      enter_eq_feed poly wide]

theorem crc_append (register : BitVec w) (first second : List (BitVec 8)) :
    crc poly register (first ++ second) = crc poly (crc poly register first) second := by
  rw [crc, List.foldl_append]
  rfl

end Crc
