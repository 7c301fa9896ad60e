/-
This file models `expr_trans_compare`, which makes a condition of the comparison of a condition with
a symbol; the menus ask with it whether a dependency is not `n`. A negation turns the comparison
around. The main result is that the condition says what the comparison does, as long as no operand
of a negation is `m`, and that it never does when the operand of the outermost one is.
-/

import Buildroot4G.Kconf.Expr

namespace Buildroot4G.Kconf

open Connective

variable {ν : Type}

/-! ### `expr_trans_compare` -/

/-- A condition or its negation, for `E_EQUAL` and `E_UNEQUAL`. -/
def negatedUnless (isEqual : Bool) (expr : Expr ν) : Expr ν := if isEqual then expr else .not expr

/-- The comparison of a comparison; there is none with a symbol of the table. -/
def compareTest (sym : Symbol ν) (isEqual : Bool) (expr : Expr ν) : Option (Expr ν) :=
  match sym with
  | .yes => some (negatedUnless isEqual expr)
  | .mod => some (.symbol (if isEqual then .no else .yes))
  | .no => some (negatedUnless (!isEqual) expr)
  | .entry _ => none

def transCompare (sym : Symbol ν) : Bool → Expr ν → Option (Expr ν)
  | isEqual, .node type left right =>
    let e1 := transCompare sym true left
    let e2 := transCompare sym true right
    match sym with
    | .yes => do return negatedUnless isEqual (.node type (← e1) (← e2))
    | .no => do return negatedUnless isEqual (.node type.dual (← e1) (← e2))
    | _ => some (negatedUnless isEqual (.node type left right))
  | isEqual, .not expr => transCompare sym (!isEqual) expr
  | isEqual, .equal left right => compareTest sym isEqual (.equal left right)
  | isEqual, .unequal left right => compareTest sym isEqual (.unequal left right)
  | isEqual, .symbol left => some (if isEqual then .equal left sym else .unequal left sym)

/-! ### What it says -/

/-- What a comparison says of two values. -/
def compared (isEqual : Bool) (value other : Tristate) : Tristate :=
  if decide (value = other) = isEqual then .yes else .no

/-- The symbols of an expression have truth values, and no operand of a negation is `m`. -/
def Firm {table : Table ν} (values : Values table) : Expr ν → Prop
  | .symbol sym => sym.IsTri table
  | .not expr => Firm values expr ∧ calcValue values expr ≠ .mod
  | .node _ left right => Firm values left ∧ Firm values right
  | _ => True

section Compared

variable {table : Table ν} (values : Values table) (type : Conn)

theorem calcValue_negatedUnless (isEqual : Bool) (expr : Expr ν) :
    calcValue values (negatedUnless isEqual expr) =
      if isEqual then calcValue values expr else exprNot (calcValue values expr) := by
  cases isEqual <;> rfl

/-- The comparison of a value that is `y` or `n`. -/
theorem compared_unit (isEqual : Bool) {value : Tristate} (isYn : value ≠ .mod) :
    compared isEqual value (type.unit Tristate) =
      if isEqual = decide (type = .and) then value else exprNot value := by
  cases type <;> cases isEqual <;> cases value <;> first | rfl | exact absurd rfl isYn

theorem compared_true (value other : Tristate) :
    compared true value other = if value = other then .yes else .no := by
  by_cases same : value = other <;> simp [compared, same]

theorem compared_false (value other : Tristate) :
    compared false value other = exprNot (compared true value other) := by
  by_cases same : value = other <;> simp [compared, same, exprNot]

/-- A negation turns a comparison around exactly when its operand is not `m`. -/
theorem compared_not_iff (isEqual : Bool) (value : Tristate) :
    compared (!isEqual) value (type.unit Tristate) =
      compared isEqual (exprNot value) (type.unit Tristate) ↔ value ≠ .mod := by
  cases type <;> cases isEqual <;> cases value <;> decide

/-- Both operands of `&&` are `y`, or one of them is `n`. -/
theorem compared_apply (other : Conn) (first second : Tristate) :
    (if type = .and then other else other.dual).apply (compared true first (type.unit Tristate))
        (compared true second (type.unit Tristate)) =
      compared true (other.apply first second) (type.unit Tristate) := by
  cases type <;> cases other <;> cases first <;> cases second <;> decide

theorem exists_compareTest (isEqual : Bool) {expr : Expr ν}
    (isYn : calcValue values expr ≠ .mod) :
    ∃ result, compareTest (unitSymbol type) isEqual expr = some result ∧
      calcValue values result =
        compared isEqual (calcValue values expr) (type.unit Tristate) := by
  rw [compared_unit type isEqual isYn]
  cases type with
  | and => exact ⟨_, rfl, by cases isEqual <;> rfl⟩
  | or => exact ⟨_, rfl, by cases isEqual <;> rfl⟩

theorem calcValue_equal_ne_mod (left right : Symbol ν) :
    calcValue values (.equal left right) ≠ .mod := by
  rw [calcValue]
  split <;> decide

/-- A comparison with `y` or `n` is translated for what it says. -/
theorem exists_transCompare {expr : Expr ν} (firm : Firm values expr) (isEqual : Bool) :
    ∃ result, transCompare (unitSymbol type) isEqual expr = some result ∧
      calcValue values result =
        compared isEqual (calcValue values expr) (type.unit Tristate) := by
  induction expr generalizing isEqual with
  | symbol sym =>
    have isTri : (unitSymbol type : Symbol ν).IsTri table := by cases type <;> trivial
    have equal := calcValue_equal values firm isTri
    rw [tri_unitSymbol] at equal
    cases isEqual with
    | true =>
      refine ⟨_, rfl, equal.trans ?_⟩
      rw [compared_true, calcValue_symbol]
    | false =>
      refine ⟨_, rfl, ?_⟩
      change calcValue values (.unequal sym (unitSymbol type)) = _
      rw [calcValue_unequal, equal, compared_false, compared_true, calcValue_symbol]
  | not expr inductionHypothesis =>
    obtain ⟨result, isResult, value⟩ := inductionHypothesis firm.1 (!isEqual)
    exact ⟨result, isResult, value.trans ((compared_not_iff type isEqual _).mpr firm.2)⟩
  | equal left right =>
    exact exists_compareTest values type isEqual (calcValue_equal_ne_mod values left right)
  | unequal left right =>
    refine exists_compareTest values type isEqual ?_
    rw [calcValue_unequal]
    have isYn := calcValue_equal_ne_mod values left right
    cases value : calcValue values (.equal left right) <;> simp_all [exprNot]
  | node other left right leftHypothesis rightHypothesis =>
    obtain ⟨left', isLeft, leftValue⟩ := leftHypothesis firm.1 true
    obtain ⟨right', isRight, rightValue⟩ := rightHypothesis firm.2 true
    have translated : transCompare (unitSymbol type) isEqual (.node other left right) =
        some (negatedUnless isEqual
          (.node (if type = .and then other else other.dual) left' right')) := by
      cases type with
      | and =>
        rw [unitSymbol] at isLeft isRight
        simp [transCompare, unitSymbol, isLeft, isRight]
      | or =>
        rw [unitSymbol] at isLeft isRight
        simp [transCompare, unitSymbol, isLeft, isRight]
    refine ⟨_, translated, ?_⟩
    rw [calcValue_negatedUnless, calcValue_node, leftValue, rightValue, compared_apply,
      calcValue_node]
    cases isEqual with
    | true => rfl
    | false => exact (compared_false _ _).symm

/-- The translation of a comparison with `y` or `n` has its value where no operand of a negation is
`m`. The negation of such an expression is translated rightly exactly when the expression is not
`m`. -/
theorem transCompare_exact (expr : Expr ν) (firm : Firm values expr) (isEqual : Bool) :
    (∃ result, transCompare (unitSymbol type) isEqual expr = some result ∧
      calcValue values result =
        compared isEqual (calcValue values expr) (type.unit Tristate)) ∧
    ((∃ result, transCompare (unitSymbol type) isEqual (.not expr) = some result ∧
      calcValue values result =
        compared isEqual (calcValue values (.not expr)) (type.unit Tristate)) ↔
      calcValue values expr ≠ .mod) := by
  refine ⟨exists_transCompare values type firm isEqual, ?_⟩
  obtain ⟨result, isResult, value⟩ := exists_transCompare values type firm (!isEqual)
  rw [← compared_not_iff type isEqual, ← value, ← calcValue_not]
  constructor
  · rintro ⟨other, isOther, same⟩
    obtain rfl := Option.some.inj (isOther.symm.trans isResult)
    exact same
  · exact fun same => ⟨result, isResult, same⟩

end Compared

/-! ### A negation that is lost -/

def barMod (foo : Bool) : Tristate := if foo then .yes else .mod

theorem barMod_ne (foo : Bool) (isBoolean : fooBar.type foo = .boolean) : barMod foo ≠ .mod := by
  cases foo with
  | true => decide
  | false => cases isBoolean

theorem barMod_untyped (foo : Bool) (notBoolean : fooBar.type foo ≠ .boolean)
    (notTristate : fooBar.type foo ≠ .tristate) : barMod foo = .no := by
  cases foo with
  | true => exact absurd rfl notBoolean
  | false => exact absurd rfl notTristate

/-- `FOO` is `y` and `BAR` is `m`. -/
def barModule : Values fooBar where
  tri := barMod
  val _ := []
  modules := true
  boolean_ne := barMod_ne
  ne_of_modules impossible := absurd impossible Bool.false_ne_true.symm
  untyped := barMod_untyped
  const_inj _ _ impossible := absurd impossible Bool.false_ne_true
  const_ne _ impossible := absurd impossible Bool.false_ne_true

/-- That `FOO && BAR` is not `n` is translated, and that `!(FOO && BAR)` is not is lost. -/
theorem transCompare_exact_bar :
    let both : Expr Bool := .node .and (.symbol (.entry true)) (.symbol (.entry false))
    (∃ result, transCompare .no false both = some result ∧
      calcValue barModule result = .yes) ∧
    calcValue barModule (.not both) = .mod ∧
    ¬∃ result, transCompare .no false (.not both) = some result ∧
      calcValue barModule result = .yes := by
  intro both
  obtain ⟨exact_, lost⟩ := transCompare_exact barModule .or both ⟨Or.inl rfl, Or.inr rfl⟩ false
  exact ⟨exact_, rfl, fun right => lost.mp right rfl⟩

end Buildroot4G.Kconf
