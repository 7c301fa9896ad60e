/-
This file models `expr_eq` and what it rests on: two expressions are equal when what is left of
copies of them, after the operands that they have in common were taken out, is one symbol. The
search for common operands is the one of `expr_extract_eq`, too. The main result is that the
search ends and that what it takes out is a common factor: expressions that `expr_eq` takes for
equal have the same value in every configuration.
-/

import Buildroot4G.Kconf.Expr

namespace Buildroot4G.Kconf

open Connective

variable {ν : Type} [DecidableEq ν]

/-! ### `expr_eq` -/

/-- The operands of an expression of a type. -/
def operands (type : Conn) : Expr ν → Option (Expr ν × Expr ν)
  | .node other left right => if other = type then some (left, right) else none
  | _ => none

/-- What two operands that have no operands of the type become, and what is kept of them. -/
abbrev Meet (σ ν : Type) := σ → Expr ν → Expr ν → Option (σ × Expr ν × Expr ν)

/-- The recursion of `__expr_eliminate_eq` and of `expr_extract_eq`: every operand of the first
expression meets every operand of the second one. -/
def searchOperands {σ : Type} (meet : Meet σ ν) :
    ℕ → Conn → σ → Expr ν → Expr ν → Option (σ × Expr ν × Expr ν)
  | 0, _, _, _, _ => none
  | fuel + 1, type, ep, e1, e2 =>
    match operands type e1 with
    | some (left, right) => do
      let (ep, left, e2) ← searchOperands meet fuel type ep left e2
      let (ep, right, e2) ← searchOperands meet fuel type ep right e2
      return (ep, .node type left right, e2)
    | none =>
      match operands type e2 with
      | some (left, right) => do
        let (ep, e1, left) ← searchOperands meet fuel type ep e1 left
        let (ep, e1, right) ← searchOperands meet fuel type ep e1 right
        return (ep, e1, .node type left right)
      | none => meet ep e1 e2

/-- Operands that are equal become constants. -/
def eliminateMeet (compare : Expr ν → Expr ν → Option Bool) (type : Conn) : Meet Unit ν :=
  fun _ e1 e2 =>
    if e1 = e2 ∧ (e1 = .symbol .yes ∨ e1 = .symbol .no) then some ((), e1, e2)
    else do
      if ← compare e1 e2 then
        return ((), .symbol (unitSymbol type), .symbol (unitSymbol type))
      else return ((), e1, e2)

/-- `__expr_eliminate_eq`. -/
def eliminateOperands (compare : Expr ν → Expr ν → Option Bool) (fuel : ℕ) (type : Conn)
    (e1 e2 : Expr ν) : Option (Unit × Expr ν × Expr ν) :=
  searchOperands (eliminateMeet compare type) fuel type () e1 e2

/-- The search for one type, if an expression is of it. -/
def eliminateOf (compare : Expr ν → Expr ν → Option Bool) (fuel : ℕ) (e1 e2 : Expr ν) :
    Expr ν → Option (Unit × Expr ν × Expr ν)
  | .node type _ _ => eliminateOperands compare fuel type e1 e2
  | _ => some ((), e1, e2)

/-- `e1->type != e2->type`, where the second one is a connective. -/
def differs (e1 : Expr ν) : Expr ν → Bool
  | .node type _ _ => (operands type e1).isNone
  | _ => false

/-- `expr_eliminate_eq`. -/
def eliminateEq (compare : Expr ν → Expr ν → Option Bool) (fuel : ℕ) (e1 e2 : Expr ν) :
    Option (Expr ν × Expr ν) := do
  let (_, e1, e2) ← eliminateOf compare fuel e1 e2 e1
  let (_, e1, e2) ← if differs e1 e2 then eliminateOf compare fuel e1 e2 e2 else some ((), e1, e2)
  return (eliminateYn e1, eliminateYn e2)

/-- What is left is the same symbol. -/
def sameSymbol : Expr ν → Expr ν → Bool
  | .symbol sym1, .symbol sym2 => decide (sym1 = sym2)
  | _, _ => false

def exprEq : ℕ → Expr ν → Expr ν → Option Bool
  | 0, _, _ => none
  | _ + 1, .equal left right, .equal left' right' =>
    some (decide (left = left' ∧ right = right'))
  | _ + 1, .unequal left right, .unequal left' right' =>
    some (decide (left = left' ∧ right = right'))
  | _ + 1, .symbol sym1, .symbol sym2 => some (decide (sym1 = sym2))
  | fuel + 1, .not e1, .not e2 => exprEq fuel e1 e2
  | fuel + 1, .node type left right, .node type' left' right' =>
    if type = type' then do
      let (e1, e2) ← eliminateEq (exprEq fuel) (fuel + 1) (.node type left right)
        (.node type' left' right')
      return sameSymbol e1 e2
    else some false
  | _ + 1, _, _ => some false

/-! ### What a comparison is good for -/

/-- The comparison answers for expressions up to a size, and those that it takes for equal have the
same values. -/
def Sound (compare : Expr ν → Expr ν → Option Bool) (bound : ℕ) : Prop :=
  ∀ e1 e2, size e1 + size e2 ≤ bound → ∃ answer, compare e1 e2 = some answer ∧
    (answer = true → ∀ {table : Table ν} (values : Values table),
      calcValue values e1 = calcValue values e2)

variable {σ : Type} {type : Conn} {e1 e2 e1' e2' left right : Expr ν}

/-- What a search leaves of two expressions: a common factor is gone. `gains` says how the factor
goes into what is kept. -/
structure Taken (gains : ∀ {table : Table ν}, Values table → σ → Tristate → σ → Prop) (type : Conn)
    (ep : σ) (e1 e2 : Expr ν) (ep' : σ) (e1' e2' : Expr ν) : Prop where
  size_le : size e1' ≤ size e1
  size_le' : size e2' ≤ size e2
  factor : ∀ {table : Table ν} (values : Values table), ∃ factor,
    Factor type factor (calcValue values e1) (calcValue values e2) (calcValue values e1')
      (calcValue values e2') ∧ gains values ep factor ep'

/-- How factors go into what is kept: one after the other. -/
structure Gain (type : Conn) (gains : ∀ {table : Table ν}, Values table → σ → Tristate → σ → Prop) :
    Prop where
  unit : ∀ {table : Table ν} (values : Values table) ep, gains values ep (type.unit Tristate) ep
  trans : ∀ {table : Table ν} (values : Values table) {ep ep' ep'' first second},
    gains values ep first ep' → gains values ep' second ep'' →
    gains values ep (type.apply first second) ep''

section Search

omit [DecidableEq ν]

variable {gains : ∀ {table : Table ν}, Values table → σ → Tristate → σ → Prop}
  {ep ep' ep'' : σ} {left' right' e2'' : Expr ν} {meet : Meet σ ν} {bound fuel : ℕ}

theorem Taken.refl (gain : Gain type gains) (ep : σ) (e1 e2 : Expr ν) :
    Taken gains type ep e1 e2 ep e1 e2 :=
  ⟨le_rfl, le_rfl, fun values => ⟨_, Factor.refl type _ _, gain.unit values ep⟩⟩

theorem Taken.symm (taken : Taken gains type ep e1 e2 ep' e1' e2') :
    Taken gains type ep e2 e1 ep' e2' e1' := by
  refine ⟨taken.size_le', taken.size_le, fun values => ?_⟩
  obtain ⟨factor, isFactor, isGain⟩ := taken.factor values
  exact ⟨factor, isFactor.symm, isGain⟩

/-- The operands of an expression, one after the other. -/
theorem Taken.node (gain : Gain type gains) (ofLeft : Taken gains type ep left e2 ep' left' e2')
    (ofRight : Taken gains type ep' right e2' ep'' right' e2'') :
    Taken gains type ep (.node type left right) e2 ep'' (.node type left' right') e2'' := by
  refine ⟨?_, ofRight.size_le'.trans ofLeft.size_le', fun values => ?_⟩
  · exact Nat.add_le_add_right (Nat.add_le_add ofLeft.size_le ofRight.size_le) 1
  · obtain ⟨first, isFirst, firstGain⟩ := ofLeft.factor values
    obtain ⟨second, isSecond, secondGain⟩ := ofRight.factor values
    rw [calcValue_node, calcValue_node]
    exact ⟨_, isFirst.parts isSecond, gain.trans values firstGain secondGain⟩

theorem operands_node (type : Conn) (left right : Expr ν) :
    operands type (.node type left right) = some (left, right) := if_pos rfl

theorem eq_node_of_operands (isNode : operands type e1 = some (left, right)) :
    e1 = .node type left right := by
  cases e1 with
  | node other left' right' =>
    rw [operands] at isNode
    split at isNode
    · rename_i same
      cases isNode
      rw [same]
    · cases isNode
  | _ => cases isNode

/-- The search does its work on expressions up to a size. -/
def Searches (gains : ∀ {table : Table ν}, Values table → σ → Tristate → σ → Prop) (type : Conn)
    (search : Meet σ ν) (bound : ℕ) : Prop :=
  ∀ ep e1 e2, size e1 + size e2 ≤ bound → ∃ ep' e1' e2',
    search ep e1 e2 = some (ep', e1', e2') ∧ Taken gains type ep e1 e2 ep' e1' e2'

/-- The search below an expression of the type, when it succeeds on smaller ones. -/
theorem searchOperands_node (gain : Gain type gains)
    (searches : Searches gains type (searchOperands meet fuel type) bound)
    (within : size left + size right + size e2 ≤ bound) :
    ∃ ep' e1' e2', searchOperands meet (fuel + 1) type ep (.node type left right) e2 =
      some (ep', e1', e2') ∧ Taken gains type ep (.node type left right) e2 ep' e1' e2' := by
  obtain ⟨ep', left', middle, isLeft, ofLeft⟩ := searches ep left e2 (by omega)
  have middleLe := ofLeft.size_le'
  obtain ⟨ep'', right', last, isRight, ofRight⟩ := searches ep' right middle (by omega)
  refine ⟨ep'', .node type left' right', last, ?_, ofLeft.node gain ofRight⟩
  rw [searchOperands, operands_node]
  simp only [isLeft, isRight, Option.bind_eq_bind, Option.bind_some]
  rfl

theorem searchOperands_node_right (gain : Gain type gains) (notNode : operands type e1 = none)
    (searches : Searches gains type (searchOperands meet fuel type) bound)
    (within : size e1 + size left + size right ≤ bound) :
    ∃ ep' e1' e2', searchOperands meet (fuel + 1) type ep e1 (.node type left right) =
      some (ep', e1', e2') ∧ Taken gains type ep e1 (.node type left right) ep' e1' e2' := by
  obtain ⟨ep', middle, left', isLeft, ofLeft⟩ := searches ep e1 left (by omega)
  have middleLe := ofLeft.size_le
  obtain ⟨ep'', last, right', isRight, ofRight⟩ := searches ep' middle right (by omega)
  refine ⟨ep'', last, .node type left' right', ?_, (ofLeft.symm.node gain ofRight.symm).symm⟩
  rw [searchOperands, notNode, operands_node]
  simp only [isLeft, isRight, Option.bind_eq_bind, Option.bind_some]
  rfl

/-- Enough fuel for a search is the size of the expressions. -/
theorem searchOperands_spec (gain : Gain type gains) (meets : Searches gains type meet bound) :
    Searches gains type (searchOperands meet fuel type) (min bound fuel) := by
  induction fuel with
  | zero =>
    intro ep e1 e2 within
    have pos := size_pos e1
    omega
  | succ fuel inductionHypothesis =>
    intro ep e1 e2 within
    cases isNode : operands type e1 with
    | some pair =>
      obtain ⟨left, right⟩ := pair
      rw [eq_node_of_operands isNode] at within ⊢
      simp only [size] at within
      exact searchOperands_node gain inductionHypothesis (by omega)
    | none =>
      cases isNode' : operands type e2 with
      | some pair =>
        obtain ⟨left, right⟩ := pair
        rw [eq_node_of_operands isNode'] at within ⊢
        simp only [size] at within
        exact searchOperands_node_right gain isNode inductionHypothesis (by omega)
      | none =>
        rw [searchOperands, isNode, isNode']
        exact meets ep e1 e2 (within.trans (min_le_left _ _))

/-- Expressions with the same value become constants. -/
theorem Taken.same (equal : ∀ {table : Table ν} (values : Values table),
      calcValue values e1 = calcValue values e2)
    (isGain : ∀ {table : Table ν} (values : Values table),
      gains values ep (calcValue values e1) ep') :
    Taken gains type ep e1 e2 ep' (.symbol (unitSymbol type)) (.symbol (unitSymbol type)) := by
  refine ⟨size_pos e1, size_pos e2, fun values => ⟨calcValue values e1, ?_, isGain values⟩⟩
  rw [calcValue_symbol, tri_unitSymbol, ← equal values]
  exact Factor.same type _

end Search

/-! ### Soundness -/

section Eliminate

variable {compare : Expr ν → Expr ν → Option Bool} {bound fuel : ℕ}

omit [DecidableEq ν] in
/-- Nothing is kept. -/
theorem gain_nothing (type : Conn) :
    Gain (ν := ν) type fun _ (_ : Unit) _ _ => True :=
  ⟨fun _ _ => trivial, fun _ _ _ _ _ _ _ _ => trivial⟩

theorem eliminateMeet_spec (type : Conn) (sound : Sound compare bound) :
    Searches (fun _ _ _ _ => True) type (eliminateMeet compare type) bound := by
  intro ep e1 e2 within
  rw [eliminateMeet]
  split
  · exact ⟨(), e1, e2, rfl, Taken.refl (gain_nothing type) () e1 e2⟩
  · obtain ⟨answer, answers, same⟩ := sound e1 e2 within
    rw [answers]
    cases answer with
    | true => exact ⟨(), _, _, rfl, Taken.same (same rfl) fun _ => trivial⟩
    | false => exact ⟨(), e1, e2, rfl, Taken.refl (gain_nothing type) () e1 e2⟩

/-- A search may be asked for expressions that are larger by the connective on their top. -/
theorem eliminateOf_spec (sound : Sound compare bound) {top : Expr ν}
    (isTop : top = e1 ∨ top = e2 ∧ differs e1 e2 = true)
    (within : size e1 + size e2 ≤ bound + 1) (enough : size e1 + size e2 ≤ fuel) :
    ∃ e1' e2', eliminateOf compare fuel e1 e2 top = some ((), e1', e2') ∧
      size e1' ≤ size e1 ∧ size e2' ≤ size e2 ∧
      ∀ {table : Table ν} (values : Values table),
        calcValue values e1' = calcValue values e2' →
          calcValue values e1 = calcValue values e2 := by
  cases top with
  | node type left right =>
    obtain ⟨fuel, rfl⟩ := Nat.exists_eq_add_one.mpr
      (Nat.lt_of_lt_of_le (Nat.add_pos_left (size_pos e1) _) enough)
    have gain := gain_nothing (ν := ν) type
    have searches := @searchOperands_spec _ _ type _ _ _ fuel gain
      (eliminateMeet_spec type sound)
    have found : ∃ ep' e1' e2', eliminateOperands compare (fuel + 1) type e1 e2 =
        some (ep', e1', e2') ∧ Taken (fun _ _ _ _ => True) type () e1 e2 ep' e1' e2' := by
      rcases isTop with rfl | ⟨rfl, differ⟩
      · simp only [size] at within enough
        exact searchOperands_node gain searches (by omega)
      · simp only [size] at within enough
        exact searchOperands_node_right gain (Option.isNone_iff_eq_none.mp differ) searches
          (by omega)
    obtain ⟨ep', e1', e2', search, taken⟩ := found
    refine ⟨e1', e2', search, taken.size_le, taken.size_le', fun values same => ?_⟩
    obtain ⟨factor, isFactor, -⟩ := taken.factor values
    exact isFactor.eq same
  | _ => exact ⟨e1, e2, rfl, le_rfl, le_rfl, fun _ => id⟩

/-- What `expr_eliminate_eq` leaves: where the two are equal, the expressions were. -/
theorem eliminateEq_spec (sound : Sound compare bound)
    (within : size e1 + size e2 ≤ bound + 1) (enough : size e1 + size e2 ≤ fuel) :
    ∃ e1' e2', eliminateEq compare fuel e1 e2 = some (e1', e2') ∧
      ∀ {table : Table ν} (values : Values table),
        calcValue values e1' = calcValue values e2' →
          calcValue values e1 = calcValue values e2 := by
  obtain ⟨middle1, middle2, first, le1, le2, equal⟩ :=
    @eliminateOf_spec _ _ e1 e2 _ bound fuel sound e1 (Or.inl rfl) within enough
  rw [eliminateEq, first]
  simp only [Option.bind_eq_bind, Option.bind_some]
  split
  · rename_i differ
    obtain ⟨last1, last2, second, -, -, equal'⟩ := @eliminateOf_spec _ _ middle1 middle2 _ bound
      fuel sound middle2 (Or.inr ⟨rfl, differ⟩) (by omega) (by omega)
    rw [second]
    refine ⟨_, _, rfl, fun values same => equal values (equal' values ?_)⟩
    rw [calcValue_eliminateYn, calcValue_eliminateYn] at same
    exact same
  · refine ⟨_, _, rfl, fun values same => equal values ?_⟩
    rw [calcValue_eliminateYn, calcValue_eliminateYn] at same
    exact same

end Eliminate

theorem eq_of_sameSymbol (same : sameSymbol e1 e2 = true) : e1 = e2 := by
  cases e1 <;> cases e2 <;> first | cases same | skip
  exact congrArg Expr.symbol (of_decide_eq_true same)

/-- `expr_eq` ends, and what it takes for equal has the same value. -/
theorem sound_exprEq (fuel : ℕ) : Sound (ν := ν) (exprEq fuel) fuel := by
  induction fuel with
  | zero =>
    intro e1 e2 within
    have pos := size_pos e1
    omega
  | succ fuel inductionHypothesis =>
    intro e1 e2 within
    cases e1 with
    | symbol sym1 =>
      cases e2 with
      | symbol sym2 =>
        exact ⟨_, rfl, fun same _ values => by rw [of_decide_eq_true same]⟩
      | _ => exact ⟨false, rfl, nofun⟩
    | equal left right =>
      cases e2 with
      | equal left' right' =>
        refine ⟨_, rfl, fun same _ values => ?_⟩
        obtain ⟨rfl, rfl⟩ := of_decide_eq_true same
        rfl
      | _ => exact ⟨false, rfl, nofun⟩
    | unequal left right =>
      cases e2 with
      | unequal left' right' =>
        refine ⟨_, rfl, fun same _ values => ?_⟩
        obtain ⟨rfl, rfl⟩ := of_decide_eq_true same
        rfl
      | _ => exact ⟨false, rfl, nofun⟩
    | not e1 =>
      cases e2 with
      | not e2 =>
        simp only [size] at within
        obtain ⟨answer, answers, same⟩ := inductionHypothesis e1 e2 (by omega)
        refine ⟨answer, answers, fun isTrue _ values => ?_⟩
        rw [calcValue_not, calcValue_not, same isTrue values]
      | _ => exact ⟨false, rfl, nofun⟩
    | node type left right =>
      cases e2 with
      | node type' left' right' =>
        by_cases sameType : type = type'
        · obtain ⟨e1', e2', eliminated, equal⟩ := eliminateEq_spec inductionHypothesis within within
          refine ⟨sameSymbol e1' e2', ?_, fun same _ values => ?_⟩
          · rw [exprEq, if_pos sameType, eliminated]
            rfl
          · exact equal values (congrArg (calcValue values) (eq_of_sameSymbol same))
        · refine ⟨false, ?_, nofun⟩
          rw [exprEq, if_neg sameType]
      | _ => exact ⟨false, rfl, nofun⟩

/-- Two expressions that `expr_eq` takes for equal have the same value, whatever the values of the
symbols are. It answers for all expressions. -/
theorem exprEq_agrees (e1 e2 : Expr ν) (fuel : ℕ) (enough : size e1 + size e2 ≤ fuel) :
    ∃ answer, exprEq fuel e1 e2 = some answer ∧
      (answer = true → ∀ {table : Table ν} (values : Values table),
        calcValue values e1 = calcValue values e2) :=
  sound_exprEq fuel e1 e2 enough

/-- `FOO || !BAR` and `!BAR || FOO` are equal. -/
theorem exprEq_agrees_foo :
    let foo : Expr Bool := .symbol (.entry true)
    let notBar : Expr Bool := .not (.symbol (.entry false))
    exprEq 10 (.node .or foo notBar) (.node .or notBar foo) = some true ∧
      ∀ {table : Table Bool} (values : Values table),
        calcValue values (.node .or foo notBar) = calcValue values (.node .or notBar foo) := by
  intro foo notBar
  have answers : exprEq 10 (.node .or foo notBar) (.node .or notBar foo) = some true := by decide
  obtain ⟨answer, same, equal⟩ :=
    exprEq_agrees (.node .or foo notBar) (.node .or notBar foo) 10 (by decide)
  exact ⟨answers, equal (Option.some.inj (same.symm.trans answers))⟩

/-! ### `expr_extract_eq` -/

/-- Operands that are equal become constants, and one of them is kept. -/
def extractMeet (compare : Expr ν → Expr ν → Option Bool) (type : Conn) :
    Meet (Option (Expr ν)) ν :=
  fun ep e1 e2 => do
    if ← compare e1 e2 then
      let ep := match ep with
        | some tmp => .node type tmp e1
        | none => e1
      return (some ep, .symbol (unitSymbol type), .symbol (unitSymbol type))
    else return (ep, e1, e2)

/-- `expr_extract_eq_and` and `expr_extract_eq_or`: what two expressions have in common, and what is
left of them. -/
def extractEq (fuel : ℕ) (type : Conn) (e1 e2 : Expr ν) :
    Option (Option (Expr ν) × Expr ν × Expr ν) := do
  let (tmp, e1, e2) ← searchOperands (extractMeet (exprEq fuel) type) fuel type none e1 e2
  if tmp.isSome then return (tmp, eliminateYn e1, eliminateYn e2)
  else return (tmp, e1, e2)

/-- The value of what is kept. -/
def commonValue {table : Table ν} (type : Conn) (values : Values table) :
    Option (Expr ν) → Tristate
  | none => type.unit Tristate
  | some tmp => calcValue values tmp

/-- Every factor goes into what is kept. -/
def Kept (type : Conn) {table : Table ν} (values : Values table) (ep : Option (Expr ν))
    (factor : Tristate) (ep' : Option (Expr ν)) : Prop :=
  commonValue type values ep' = type.apply (commonValue type values ep) factor

omit [DecidableEq ν] in
theorem gain_kept (type : Conn) : Gain (ν := ν) type (Kept type) := by
  refine ⟨fun values ep => (apply_unit type _).symm, ?_⟩
  intro table values ep ep' ep'' first second isFirst isSecond
  rw [Kept, isSecond, isFirst, apply_assoc]

omit [DecidableEq ν] in
theorem extractMeet_spec {compare : Expr ν → Expr ν → Option Bool} {bound : ℕ} (type : Conn)
    (sound : Sound compare bound) :
    Searches (Kept type) type (extractMeet compare type) bound := by
  intro ep e1 e2 within
  obtain ⟨answer, answers, same⟩ := sound e1 e2 within
  unfold extractMeet
  rw [answers]
  cases answer with
  | true =>
    refine ⟨_, _, _, rfl, Taken.same (same rfl) fun values => ?_⟩
    cases ep with
    | none => exact (unit_apply type _).symm
    | some tmp => exact calcValue_node values type tmp e1
  | false => exact ⟨ep, e1, e2, rfl, Taken.refl (gain_kept type) ep e1 e2⟩

/-- What two expressions have in common is found in one of them after the other, and is a factor of
both, in every configuration. -/
theorem extractEq_factor (type : Conn) (e1 e2 : Expr ν) (fuel : ℕ)
    (enough : size e1 + size e2 ≤ fuel) :
    ∃ tmp e1' e2', extractEq fuel type e1 e2 = some (tmp, e1', e2') ∧
      ∀ {table : Table ν} (values : Values table),
        calcValue values e1 = type.apply (calcValue values e1') (commonValue type values tmp) ∧
        calcValue values e2 = type.apply (calcValue values e2') (commonValue type values tmp) := by
  obtain ⟨tmp, e1', e2', search, taken⟩ := @searchOperands_spec _ _ type _ _ _ fuel
    (gain_kept type) (extractMeet_spec type (sound_exprEq fuel)) none e1 e2 (le_min enough enough)
  have factors : ∀ {table : Table ν} (values : Values table),
      calcValue values e1 = type.apply (calcValue values e1') (commonValue type values tmp) ∧
      calcValue values e2 = type.apply (calcValue values e2') (commonValue type values tmp) := by
    intro table values
    obtain ⟨factor, isFactor, isKept⟩ := taken.factor values
    have common : commonValue type values tmp = factor := isKept.trans (unit_apply type factor)
    rw [common]
    exact isFactor
  rw [extractEq, search]
  simp only [Option.bind_eq_bind, Option.bind_some]
  split
  · refine ⟨tmp, _, _, rfl, fun values => ?_⟩
    rw [calcValue_eliminateYn, calcValue_eliminateYn]
    exact factors values
  · exact ⟨tmp, e1', e2', rfl, factors⟩

end Buildroot4G.Kconf
