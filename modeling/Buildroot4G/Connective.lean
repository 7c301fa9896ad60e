/-
This file is a library about the two connectives of a bounded lattice. Each of them is
associative, commutative and idempotent, has a unit, and the unit of the other one is its zero;
an antitone map of a linear order exchanges the two.

Two values have a common factor when both are made of it. The rule of the library is that
common factors are collected one after the other: whatever is taken out of two values piece by
piece is one common factor of them.
-/

import Mathlib.Order.BoundedOrder.Lattice
import Mathlib.Order.MinMax

namespace Connective

/-- A connective of a lattice. -/
inductive Conn where
  | and
  | or
  deriving DecidableEq, Repr

/-- The other connective. -/
def Conn.dual : Conn → Conn
  | .and => .or
  | .or => .and

@[simp] theorem dual_dual (type : Conn) : type.dual.dual = type := by
  cases type <;> rfl

theorem eq_dual_of_ne {type other : Conn} (different : other ≠ type) : other = type.dual := by
  cases type <;> cases other <;> first | rfl | exact absurd rfl different

section Lattice

variable {α : Type} [Lattice α]

def Conn.apply : Conn → α → α → α
  | .and => (· ⊓ ·)
  | .or => (· ⊔ ·)

variable (type : Conn) (first second third : α)

theorem apply_comm : type.apply first second = type.apply second first := by
  cases type with
  | and => exact inf_comm first second
  | or => exact sup_comm first second

theorem apply_assoc :
    type.apply (type.apply first second) third = type.apply first (type.apply second third) := by
  cases type with
  | and => exact inf_assoc first second third
  | or => exact sup_assoc first second third

@[simp] theorem apply_self : type.apply first first = first := by
  cases type with
  | and => exact inf_idem first
  | or => exact sup_idem first

instance : Std.Associative (type.apply (α := α)) := ⟨apply_assoc type⟩

instance : Std.Commutative (type.apply (α := α)) := ⟨apply_comm type⟩

theorem apply_left_comm :
    type.apply first (type.apply second third) = type.apply second (type.apply first third) := by
  ac_rfl

variable [BoundedOrder α]

/-- What a connective leaves out. -/
def Conn.unit (α : Type) [LE α] [BoundedOrder α] : Conn → α
  | .and => ⊤
  | .or => ⊥

@[simp] theorem unit_apply : type.apply (type.unit α) first = first := by
  cases type with
  | and => exact top_inf_eq first
  | or => exact bot_sup_eq first

@[simp] theorem apply_unit : type.apply first (type.unit α) = first := by
  rw [apply_comm, unit_apply]

@[simp] theorem absorbing_apply : type.apply (type.dual.unit α) first = type.dual.unit α := by
  cases type with
  | and => exact bot_inf_eq first
  | or => exact top_sup_eq first

@[simp] theorem apply_absorbing : type.apply first (type.dual.unit α) = type.dual.unit α := by
  rw [apply_comm, absorbing_apply]

end Lattice

/-! ### Antitone maps -/

/-- De Morgan's rules. -/
theorem antitone_apply {α β : Type} [LinearOrder α] [BoundedOrder α] [LinearOrder β]
    [BoundedOrder β] {neg : α → β} (antitone : Antitone neg) (type : Conn) (first second : α) :
    neg (type.apply first second) = type.dual.apply (neg first) (neg second) := by
  cases type with
  | and => exact antitone.map_min
  | or => exact antitone.map_max

/-! ### Common factors -/

section Factor

variable {α : Type} [Lattice α]

/-- The values before have a factor in common, and are the values after without it. -/
def Factor (type : Conn) (factor before before' after after' : α) : Prop :=
  before = type.apply after factor ∧ before' = type.apply after' factor

variable {type : Conn} {first second left left' right right' other other' other'' : α}

theorem Factor.symm (factor : Factor type first left other left' other') :
    Factor type first other left other' left' :=
  ⟨factor.2, factor.1⟩

/-- Values that end equal were equal. -/
theorem Factor.eq (factor : Factor type first left other left' other') (same : left' = other') :
    left = other := by
  rw [factor.1, factor.2, same]

/-- A value of two parts, of which one after the other has a factor in common with the other
value. -/
theorem Factor.parts (ofLeft : Factor type first left other left' other')
    (ofRight : Factor type second right other' right' other'') :
    Factor type (type.apply first second) (type.apply left right) other
      (type.apply left' right') other'' := by
  obtain ⟨isLeft, isOther⟩ := ofLeft
  obtain ⟨isRight, isOther'⟩ := ofRight
  constructor
  · rw [isLeft, isRight]
    ac_rfl
  · rw [isOther, isOther']
    ac_rfl

variable [BoundedOrder α]

theorem Factor.refl (type : Conn) (first second : α) :
    Factor type (type.unit α) first second first second :=
  ⟨(apply_unit type first).symm, (apply_unit type second).symm⟩

/-- Values that are the same leave the unit. -/
theorem Factor.same (type : Conn) (first : α) :
    Factor type first first first (type.unit α) (type.unit α) :=
  ⟨(unit_apply type first).symm, (unit_apply type first).symm⟩

end Factor

end Connective
