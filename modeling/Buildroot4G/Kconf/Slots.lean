/-
This file has the places in an expression at which `expr_eliminate_dups` writes. The code keeps
pointers to pointers; here a place is the list of the sides on the way to it. The nodes of one
type at the top of an expression are its spine, and the operands of the spine are what the code
compares and writes. Writing an operand leaves the spine as it is, and the value of the
expression is made of the operand and of the rest.
-/

import Buildroot4G.Kconf.Equal

namespace Buildroot4G.Kconf

open Connective

inductive Side where
  | left
  | right
  deriving DecidableEq, Repr

abbrev Place := List Side

variable {ν : Type}

/-- The operand on a side. -/
def operandOf (left right : Expr ν) : Side → Expr ν
  | .left => left
  | .right => right

/-- The expression at a place. -/
def subExpr : Expr ν → Place → Option (Expr ν)
  | expr, [] => some expr
  | .node _ left _, .left :: rest => subExpr left rest
  | .node _ _ right, .right :: rest => subExpr right rest
  | _, _ => none

/-- The expression with another one at a place. -/
def put : Expr ν → Place → Expr ν → Expr ν
  | _, [], new => new
  | .node type left right, .left :: rest, new => .node type (put left rest new) right
  | .node type left right, .right :: rest, new => .node type left (put right rest new)
  | expr, _, _ => expr

/-! ### The spine -/

/-- The shape of the nodes of one type at the top of an expression. -/
inductive Spine where
  | operand
  | node (left right : Spine)

def spine (type : Conn) : Expr ν → Spine
  | .node other left right =>
    if other = type then .node (spine type left) (spine type right) else .operand
  | _ => .operand

def Spine.sub : Spine → Place → Option Spine
  | part, [] => some part
  | .node left _, .left :: rest => left.sub rest
  | .node _ right, .right :: rest => right.sub rest
  | .operand, _ :: _ => none

@[simp] theorem sub_nil (part : Spine) : part.sub [] = some part := by
  cases part <;> rfl

/-- The number of the nodes. -/
def Spine.size : Spine → ℕ
  | .operand => 0
  | .node left right => left.size + right.size + 1

variable {type : Conn} {root expr new : Expr ν} {place other : Place} {part : Spine}

/-- An operand has no places below it. -/
theorem place_of_operand (isOperand : spine type root = .operand)
    (isPart : (spine type root).sub place = some part) : place = [] := by
  cases place with
  | nil => rfl
  | cons side rest =>
    rw [isOperand, Spine.sub] at isPart
    exact absurd isPart nofun

theorem spine_node (type : Conn) (left right : Expr ν) :
    spine type (.node type left right) = .node (spine type left) (spine type right) := if_pos rfl

theorem eq_node_of_spine {left right : Spine} (isNode : spine type expr = .node left right) :
    ∃ left' right', expr = .node type left' right' ∧ spine type left' = left ∧
      spine type right' = right := by
  cases expr with
  | node other left' right' =>
    rw [spine] at isNode
    split at isNode
    · rename_i same
      cases isNode
      exact ⟨left', right', by rw [same], rfl, rfl⟩
    · cases isNode
  | _ => cases isNode

theorem spine_size_le (type : Conn) (expr : Expr ν) : (spine type expr).size ≤ size expr := by
  induction expr with
  | node other left right ofLeft ofRight =>
    rw [spine]
    split
    · simp only [Spine.size, size]
      omega
    · exact Nat.zero_le _
  | _ => exact Nat.zero_le _

/-- One step down the spine. -/
theorem sub_cons {side : Side} (isPart : (spine type root).sub (side :: place) = some part) :
    ∃ left right, root = .node type left right ∧
      (spine type (operandOf left right side)).sub place = some part := by
  cases isNode : spine type root with
  | operand =>
    rw [isNode, Spine.sub] at isPart
    cases isPart
  | node left right =>
    obtain ⟨left', right', rfl, rfl, rfl⟩ := eq_node_of_spine isNode
    refine ⟨left', right', rfl, ?_⟩
    rw [spine_node] at isPart
    cases side with
    | left => exact isPart
    | right => exact isPart

/-- There is an expression at a place of the spine, with its part of the spine. -/
theorem exists_subExpr (isPart : (spine type root).sub place = some part) :
    ∃ expr, subExpr root place = some expr ∧ spine type expr = part := by
  induction place generalizing root with
  | nil =>
    rw [sub_nil] at isPart
    exact ⟨root, by rw [subExpr], Option.some.inj isPart⟩
  | cons side rest inductionHypothesis =>
    obtain ⟨left, right, rfl, below⟩ := sub_cons isPart
    obtain ⟨expr, found, same⟩ := inductionHypothesis below
    refine ⟨expr, ?_, same⟩
    cases side with
    | left => exact found
    | right => exact found

/-- The places below a node of the spine. -/
theorem sub_append {left right : Spine}
    (isPart : (spine type root).sub place = some (.node left right)) :
    (spine type root).sub (place ++ [.left]) = some left ∧
      (spine type root).sub (place ++ [.right]) = some right := by
  induction place generalizing root with
  | nil =>
    rw [sub_nil] at isPart
    rw [Option.some.inj isPart]
    exact ⟨sub_nil left, sub_nil right⟩
  | cons side rest inductionHypothesis =>
    obtain ⟨left', right', rfl, below⟩ := sub_cons isPart
    rw [spine_node]
    cases side with
    | left => exact inductionHypothesis below
    | right => exact inductionHypothesis below

/-! ### Writing at a place -/

@[simp] theorem put_nil (root new : Expr ν) : put root [] new = new := by
  rw [put]

theorem put_self (isPart : (spine type root).sub place = some part)
    (found : subExpr root place = some expr) : put root place expr = root := by
  induction place generalizing root with
  | nil =>
    rw [subExpr] at found
    rw [put_nil, Option.some.inj found]
  | cons side rest inductionHypothesis =>
    obtain ⟨left, right, rfl, below⟩ := sub_cons isPart
    cases side with
    | left => exact congrArg (Expr.node type · right) (inductionHypothesis below found)
    | right => exact congrArg (Expr.node type left) (inductionHypothesis below found)

/-- Writing an operand leaves the spine. -/
theorem spine_put (isOperand : (spine type root).sub place = some .operand)
    (newOperand : spine type new = .operand) :
    spine type (put root place new) = spine type root := by
  induction place generalizing root with
  | nil =>
    rw [sub_nil] at isOperand
    rw [put_nil, newOperand, Option.some.inj isOperand]
  | cons side rest inductionHypothesis =>
    obtain ⟨left, right, rfl, below⟩ := sub_cons isOperand
    have same := inductionHypothesis below
    cases side with
    | left =>
      rw [put, spine_node, spine_node]
      exact congrArg (Spine.node · (spine type right)) same
    | right =>
      rw [put, spine_node, spine_node]
      exact congrArg (Spine.node (spine type left)) same

/-- Below the root an operand is smaller. -/
theorem size_subExpr_lt (found : subExpr root place = some expr) (notTop : place ≠ []) :
    size expr < size root := by
  have within : ∀ {root : Expr ν} {place : Place}, subExpr root place = some expr →
      size expr + place.length ≤ size root := by
    intro root place
    induction place generalizing root with
    | nil =>
      intro found
      rw [subExpr] at found
      exact (congrArg size (Option.some.inj found)).ge
    | cons side rest inductionHypothesis =>
      intro found
      cases root with
      | node other left right =>
        cases side with
        | left =>
          have below := @inductionHypothesis left found
          simp only [size, List.length_cons]
          omega
        | right =>
          have below := @inductionHypothesis right found
          simp only [size, List.length_cons]
          omega
      | _ => simp only [subExpr, reduceCtorEq] at found
  have below := within found
  have pos := List.length_pos_iff.mpr notTop
  omega

/-- Writing an operand leaves the others. -/
theorem subExpr_put (isOperand : (spine type root).sub place = some .operand)
    (isOperand' : (spine type root).sub other = some .operand) (different : place ≠ other)
    (new : Expr ν) : subExpr (put root other new) place = subExpr root place := by
  induction place generalizing root other with
  | nil =>
    rw [sub_nil] at isOperand
    exact absurd (place_of_operand (Option.some.inj isOperand) isOperand').symm different
  | cons side rest inductionHypothesis =>
    obtain ⟨left, right, rfl, below⟩ := sub_cons isOperand
    cases other with
    | nil =>
      rw [spine_node, sub_nil] at isOperand'
      cases isOperand'
    | cons side' rest' =>
      obtain ⟨left', right', same, below'⟩ := sub_cons isOperand'
      cases same
      cases side <;> cases side'
      · exact inductionHypothesis below below' fun same =>
          different (congrArg (Side.left :: ·) same)
      · rfl
      · rfl
      · exact inductionHypothesis below below' fun same =>
          different (congrArg (Side.right :: ·) same)

theorem size_put (isPart : (spine type root).sub place = some part)
    (found : subExpr root place = some expr) (new : Expr ν) :
    size (put root place new) + size expr = size root + size new := by
  induction place generalizing root with
  | nil =>
    rw [subExpr] at found
    rw [put_nil, Option.some.inj found]
    omega
  | cons side rest inductionHypothesis =>
    obtain ⟨left, right, rfl, below⟩ := sub_cons isPart
    cases side with
    | left =>
      have sizes := inductionHypothesis below found
      simp only [put, size, operandOf] at sizes ⊢
      omega
    | right =>
      have sizes := inductionHypothesis below found
      simp only [put, size, operandOf] at sizes ⊢
      omega

/-- The value of an expression is made of the one at a place of the spine, and of a rest. -/
theorem exists_rest {table : Table ν} (values : Values table)
    (isPart : (spine type root).sub place = some part) :
    ∃ rest, ∀ new,
      calcValue values (put root place new) = type.apply (calcValue values new) rest := by
  induction place generalizing root with
  | nil => exact ⟨type.unit Tristate, fun new => by rw [put_nil, apply_unit]⟩
  | cons side rest inductionHypothesis =>
    obtain ⟨left, right, rfl, below⟩ := sub_cons isPart
    obtain ⟨others, made⟩ := inductionHypothesis below
    cases side with
    | left =>
      refine ⟨type.apply others (calcValue values right), fun new => ?_⟩
      rw [put, calcValue_node]
      exact (congrArg (type.apply · _) (made new)).trans (apply_assoc type _ _ _)
    | right =>
      refine ⟨type.apply (calcValue values left) others, fun new => ?_⟩
      rw [put, calcValue_node]
      exact (congrArg (type.apply _) (made new)).trans (apply_left_comm type _ _ _)

/-- The value is made of the ones at two operands, and of a rest. -/
theorem exists_rest_of_two {table : Table ν} (values : Values table)
    (isOperand : (spine type root).sub place = some .operand)
    (isOperand' : (spine type root).sub other = some .operand) (different : place ≠ other) :
    ∃ rest, ∀ first second,
      calcValue values (put (put root other second) place first) =
        type.apply (type.apply (calcValue values first) (calcValue values second)) rest := by
  induction place generalizing root other with
  | nil =>
    rw [sub_nil] at isOperand
    exact absurd (place_of_operand (Option.some.inj isOperand) isOperand').symm different
  | cons side rest inductionHypothesis =>
    obtain ⟨left, right, rfl, below⟩ := sub_cons isOperand
    cases other with
    | nil =>
      rw [spine_node, sub_nil] at isOperand'
      cases isOperand'
    | cons side' rest' =>
      obtain ⟨left', right', same, below'⟩ := sub_cons isOperand'
      cases same
      cases side with
      | left =>
        cases side' with
        | left =>
          obtain ⟨others, made⟩ := inductionHypothesis below below' fun same =>
            different (congrArg (Side.left :: ·) same)
          refine ⟨type.apply others (calcValue values right), fun first second => ?_⟩
          rw [put, put, calcValue_node]
          exact (congrArg (type.apply · _) (made first second)).trans (apply_assoc type _ _ _)
        | right =>
          obtain ⟨others, made⟩ := exists_rest values below
          obtain ⟨others', made'⟩ := exists_rest values below'
          refine ⟨type.apply others others', fun first second => ?_⟩
          rw [put, put, calcValue_node]
          refine (congrArg₂ type.apply (made first) (made' second)).trans ?_
          ac_rfl
      | right =>
        cases side' with
        | left =>
          obtain ⟨others, made⟩ := exists_rest values below
          obtain ⟨others', made'⟩ := exists_rest values below'
          refine ⟨type.apply others others', fun first second => ?_⟩
          rw [put, put, calcValue_node]
          refine (congrArg₂ type.apply (made' second) (made first)).trans ?_
          ac_rfl
        | right =>
          obtain ⟨others, made⟩ := inductionHypothesis below below' fun same =>
            different (congrArg (Side.right :: ·) same)
          refine ⟨type.apply (calcValue values left) others, fun first second => ?_⟩
          rw [put, put, calcValue_node]
          exact (congrArg (type.apply _) (made first second)).trans (apply_left_comm type _ _ _)

/-- What can be left out at a place can be left out. -/
theorem reducible_put (isPart : (spine type root).sub place = some part)
    (reducible : Reducible new) : Reducible (put root place new) := by
  induction place generalizing root with
  | nil =>
    rw [put_nil]
    exact reducible
  | cons side rest inductionHypothesis =>
    obtain ⟨left, right, rfl, below⟩ := sub_cons isPart
    cases side with
    | left => exact Or.inr (Or.inr (Or.inl (inductionHypothesis below)))
    | right => exact Or.inr (Or.inr (Or.inr (inductionHypothesis below)))

/-- A constant that is put below a connective can be left out. -/
theorem reducible_put_isYn (isPart : (spine type root).sub place = some part)
    (notTop : place ≠ []) (isYn : new.IsYn) : Reducible (put root place new) := by
  induction place generalizing root with
  | nil => exact absurd rfl notTop
  | cons side rest inductionHypothesis =>
    obtain ⟨left, right, rfl, below⟩ := sub_cons isPart
    by_cases last : rest = []
    · subst last
      cases side with
      | left => exact Or.inl (by rwa [put_nil])
      | right => exact Or.inr (Or.inl (by rwa [put_nil]))
    · cases side with
      | left => exact Or.inr (Or.inr (Or.inl (inductionHypothesis below last)))
      | right => exact Or.inr (Or.inr (Or.inr (inductionHypothesis below last)))

end Buildroot4G.Kconf
