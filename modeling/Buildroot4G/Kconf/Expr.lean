/-
This file models the expressions of `support/kconfig/expr.c` over the symbols of a
configuration: their values, `expr_eliminate_yn` and `expr_transform`. The main result is that
`expr_transform` ends, keeps the value of every expression in every configuration, and leaves
negations at symbols only, so that a second one changes nothing.

The symbols `y`, `m` and `n` are told from the others, as in the code. What
`sym_calc_value` made of the others is a parameter, with the properties that it gives: no
boolean symbol is `m`, and none at all without modules.
-/

import Buildroot4G.Connective
import Buildroot4G.Shell.Text

namespace Buildroot4G.Kconf

open Shell Connective

/-! ### Tristates -/

inductive Tristate where
  | no
  | mod
  | yes
  deriving DecidableEq, Repr

/-- The number of the enumerator. -/
def Tristate.toNat : Tristate → ℕ
  | .no => 0
  | .mod => 1
  | .yes => 2

theorem Tristate.toNat_injective : Function.Injective Tristate.toNat := by
  intro first second same
  cases first <;> cases second <;> first | rfl | cases same

instance : LinearOrder Tristate := LinearOrder.lift' Tristate.toNat Tristate.toNat_injective

theorem no_le (value : Tristate) : Tristate.no ≤ value := by
  cases value <;> decide

theorem le_yes (value : Tristate) : value ≤ Tristate.yes := by
  cases value <;> decide

instance : BoundedOrder Tristate where
  top := .yes
  le_top := le_yes
  bot := .no
  bot_le := no_le

/-- The text of a value. -/
def Tristate.text : Tristate → Text
  | .no => "n".toList
  | .mod => "m".toList
  | .yes => "y".toList

theorem Tristate.text_inj {first second : Tristate} :
    first.text = second.text ↔ first = second := by
  refine ⟨fun same => ?_, congrArg Tristate.text⟩
  cases first <;> cases second <;> first | rfl | exact absurd same (by decide)

/-- `EXPR_OR`. -/
def exprOr (dep1 dep2 : Tristate) : Tristate := if dep1 > dep2 then dep1 else dep2

/-- `EXPR_AND`. -/
def exprAnd (dep1 dep2 : Tristate) : Tristate := if dep1 < dep2 then dep1 else dep2

/-- `EXPR_NOT`. -/
def exprNot : Tristate → Tristate
  | .no => .yes
  | .mod => .mod
  | .yes => .no

theorem exprOr_eq (dep1 dep2 : Tristate) : exprOr dep1 dep2 = Conn.or.apply dep1 dep2 := by
  cases dep1 <;> cases dep2 <;> decide

theorem exprAnd_eq (dep1 dep2 : Tristate) : exprAnd dep1 dep2 = Conn.and.apply dep1 dep2 := by
  cases dep1 <;> cases dep2 <;> decide

theorem antitone_exprNot : Antitone exprNot := by
  intro first second le
  cases first <;> cases second <;> first | decide | exact absurd le (by decide)

@[simp] theorem exprNot_exprNot (value : Tristate) : exprNot (exprNot value) = value := by
  cases value <;> rfl

/-! ### Symbols and expressions -/

inductive SymbolType where
  | unknown
  | boolean
  | tristate
  | int
  | hex
  | string
  | other
  deriving DecidableEq, Repr

/-- What is known of the symbols: their types, and which of them are constants. A constant has no
type. -/
structure Table (ν : Type) where
  type : ν → SymbolType
  isConst : ν → Bool
  const_type : ∀ id, isConst id = true → type id = .unknown

/-- `symbol_yes`, `symbol_mod`, `symbol_no`, or an entry of the table. -/
inductive Symbol (ν : Type) where
  | yes
  | mod
  | no
  | entry (id : ν)
  deriving DecidableEq, Repr

variable {ν : Type}

def Symbol.type (table : Table ν) : Symbol ν → SymbolType
  | .entry id => table.type id
  | _ => .unknown

/-- `SYMBOL_CONST` is set. -/
def Symbol.isConst (table : Table ν) : Symbol ν → Bool
  | .entry id => table.isConst id
  | _ => true

/-- `struct expr`, but for lists and ranges, which are no conditions. -/
inductive Expr (ν : Type) where
  | symbol (sym : Symbol ν)
  | not (expr : Expr ν)
  | equal (left right : Symbol ν)
  | unequal (left right : Symbol ν)
  | node (type : Conn) (left right : Expr ν)
  deriving DecidableEq, Repr

/-- The symbol that a connective leaves out: `y` for `E_AND` and `n` for `E_OR`. -/
def unitSymbol : Conn → Symbol ν
  | .and => .yes
  | .or => .no

/-! ### Values -/

/-- What `sym_calc_value` left in the entries of the table. `modules` says whether the symbol for
modules is set. The value of a constant is its name, and there is one constant of a name. -/
structure Values (table : Table ν) where
  tri : ν → Tristate
  val : ν → Text
  modules : Bool
  boolean_ne : ∀ id, table.type id = .boolean → tri id ≠ .mod
  ne_of_modules : modules = false → ∀ id, tri id ≠ .mod
  untyped : ∀ id, table.type id ≠ .boolean → table.type id ≠ .tristate → tri id = .no
  const_inj : ∀ first second, table.isConst first = true → table.isConst second = true →
    val first = val second → first = second
  const_ne : ∀ id, table.isConst id = true → ∀ value : Tristate, val id ≠ value.text

variable {table : Table ν}

/-- `sym->curr.tri`. -/
def Symbol.tri (values : Values table) : Symbol ν → Tristate
  | .yes => .yes
  | .mod => .mod
  | .no => .no
  | .entry id => values.tri id

/-- `sym_get_string_value`. -/
def Symbol.stringValue (values : Values table) : Symbol ν → Text
  | .yes => Tristate.yes.text
  | .mod => Tristate.mod.text
  | .no => Tristate.no.text
  | .entry id =>
    if table.type id = .boolean ∨ table.type id = .tristate then
      match values.tri id with
      | .no => Tristate.no.text
      | .mod => if values.modules then Tristate.mod.text else Tristate.no.text
      | .yes => Tristate.yes.text
    else values.val id

/-- `expr_calc_value`. -/
def calcValue (values : Values table) : Expr ν → Tristate
  | .symbol sym => sym.tri values
  | .not expr => exprNot (calcValue values expr)
  | .equal left right =>
    if left.stringValue values = right.stringValue values then .yes else .no
  | .unequal left right =>
    if left.stringValue values = right.stringValue values then .no else .yes
  | .node .and left right => exprAnd (calcValue values left) (calcValue values right)
  | .node .or left right => exprOr (calcValue values left) (calcValue values right)

section Values

variable (values : Values table)

theorem calcValue_symbol (sym : Symbol ν) : calcValue values (.symbol sym) = sym.tri values := rfl

theorem calcValue_not (expr : Expr ν) :
    calcValue values (.not expr) = exprNot (calcValue values expr) := rfl

theorem calcValue_node (type : Conn) (left right : Expr ν) :
    calcValue values (.node type left right) =
      type.apply (calcValue values left) (calcValue values right) := by
  cases type with
  | and => exact exprAnd_eq _ _
  | or => exact exprOr_eq _ _

@[simp] theorem tri_unitSymbol (type : Conn) :
    (unitSymbol type : Symbol ν).tri values = type.unit Tristate := by
  cases type <;> rfl

theorem calcValue_unequal (left right : Symbol ν) :
    calcValue values (.unequal left right) = exprNot (calcValue values (.equal left right)) := by
  rw [calcValue, calcValue]
  split <;> rfl

/-- A symbol with a truth value: a constant of the three, or one of a type for it. -/
def Symbol.IsTri (table : Table ν) : Symbol ν → Prop
  | .entry id => table.type id = .boolean ∨ table.type id = .tristate
  | _ => True

theorem stringValue_eq {sym : Symbol ν} (isTri : sym.IsTri table) :
    sym.stringValue values = (sym.tri values).text := by
  cases sym with
  | entry id =>
    have isTri : table.type id = .boolean ∨ table.type id = .tristate := isTri
    rw [Symbol.stringValue, if_pos isTri, Symbol.tri]
    cases value : values.tri id with
    | no => rfl
    | yes => rfl
    | mod =>
      cases modules : values.modules with
      | true => rfl
      | false => exact absurd value (values.ne_of_modules modules id)
  | _ => rfl

/-- A comparison of symbols with truth values is one of the values. -/
theorem calcValue_equal {left right : Symbol ν} (isTri : left.IsTri table)
    (isTri' : right.IsTri table) :
    calcValue values (.equal left right) =
      if left.tri values = right.tri values then .yes else .no := by
  rw [calcValue, stringValue_eq values isTri, stringValue_eq values isTri']
  exact if_congr Tristate.text_inj rfl rfl

theorem tri_ne_mod {sym : Symbol ν} (isBoolean : sym.type table = .boolean) :
    sym.tri values ≠ .mod := by
  cases sym with
  | entry id => exact values.boolean_ne id isBoolean
  | _ => cases isBoolean

end Values

/-! ### `expr_eliminate_yn` -/

section EliminateYn

variable [DecidableEq ν]

/-- The constants `y` and `n` below connectives are left out. -/
def eliminateYn : Expr ν → Expr ν
  | .node type left right =>
    let left := eliminateYn left
    let right := eliminateYn right
    if left = .symbol (unitSymbol type.dual) then .symbol (unitSymbol type.dual)
    else if left = .symbol (unitSymbol type) then right
    else if right = .symbol (unitSymbol type.dual) then .symbol (unitSymbol type.dual)
    else if right = .symbol (unitSymbol type) then left
    else .node type left right
  | expr => expr

/-- A constant `y` or `n`. -/
def Expr.IsYn (expr : Expr ν) : Prop := ∃ type : Conn, expr = .symbol (unitSymbol type)

/-- What becomes of two operands without such constants below them. -/
theorem eliminateYn_cases (type : Conn) (left right : Expr ν) :
    (eliminateYn left = .symbol (unitSymbol type.dual) ∨
        eliminateYn right = .symbol (unitSymbol type.dual)) ∧
      eliminateYn (.node type left right) = .symbol (unitSymbol type.dual) ∨
    eliminateYn left = .symbol (unitSymbol type) ∧
      eliminateYn (.node type left right) = eliminateYn right ∨
    eliminateYn right = .symbol (unitSymbol type) ∧
      eliminateYn (.node type left right) = eliminateYn left ∨
    (¬(eliminateYn left).IsYn ∧ ¬(eliminateYn right).IsYn) ∧
      eliminateYn (.node type left right) = .node type (eliminateYn left) (eliminateYn right) := by
  have isYn : ∀ expr : Expr ν, expr.IsYn →
      expr = .symbol (unitSymbol type.dual) ∨ expr = .symbol (unitSymbol type) := by
    rintro expr ⟨other, rfl⟩
    by_cases same : other = type
    · rw [same]
      exact Or.inr rfl
    · rw [eq_dual_of_ne same]
      exact Or.inl rfl
  rw [eliminateYn]
  split_ifs with zeroLeft unitLeft zeroRight unitRight
  · exact Or.inl ⟨Or.inl zeroLeft, rfl⟩
  · exact Or.inr (Or.inl ⟨unitLeft, rfl⟩)
  · exact Or.inl ⟨Or.inr zeroRight, rfl⟩
  · exact Or.inr (Or.inr (Or.inl ⟨unitRight, rfl⟩))
  · exact Or.inr (Or.inr (Or.inr ⟨⟨fun ofLeft => (isYn _ ofLeft).elim zeroLeft unitLeft,
      fun ofRight => (isYn _ ofRight).elim zeroRight unitRight⟩, rfl⟩))

theorem calcValue_eliminateYn (values : Values table) (expr : Expr ν) :
    calcValue values (eliminateYn expr) = calcValue values expr := by
  induction expr with
  | node type left right ofLeft ofRight =>
    rw [calcValue_node, ← ofLeft, ← ofRight]
    rcases eliminateYn_cases type left right with ⟨zero | zero, result⟩ | ⟨unit, result⟩ |
      ⟨unit, result⟩ | ⟨-, result⟩
    · rw [result, zero, calcValue_symbol, tri_unitSymbol, absorbing_apply]
    · rw [result, zero, calcValue_symbol, tri_unitSymbol, apply_absorbing]
    · rw [result, unit, calcValue_symbol, tri_unitSymbol, unit_apply]
    · rw [result, unit, calcValue_symbol, tri_unitSymbol, apply_unit]
    · rw [result, calcValue_node]
  | _ => rfl

/-- The number of the nodes of an expression. -/
def size : Expr ν → ℕ
  | .not expr => size expr + 1
  | .node _ left right => size left + size right + 1
  | _ => 1

omit [DecidableEq ν] in
theorem size_pos (expr : Expr ν) : 0 < size expr := by
  cases expr <;> simp only [size] <;> omega

/-- There is a constant `y` or `n` below a connective. -/
def Reducible : Expr ν → Prop
  | .node _ left right => left.IsYn ∨ right.IsYn ∨ Reducible left ∨ Reducible right
  | _ => False

theorem size_eliminateYn_le (expr : Expr ν) : size (eliminateYn expr) ≤ size expr := by
  induction expr with
  | node type left right ofLeft ofRight =>
    rcases eliminateYn_cases type left right with ⟨-, result⟩ | ⟨-, result⟩ | ⟨-, result⟩ |
      ⟨-, result⟩ <;> rw [result] <;> simp only [size] <;> omega
  | _ => exact le_rfl

/-- Whatever can be left out makes the expression smaller. -/
theorem size_eliminateYn_lt {expr : Expr ν} (reducible : Reducible expr) :
    size (eliminateYn expr) < size expr := by
  induction expr with
  | node type left right ofLeft ofRight =>
    have leftLe := size_eliminateYn_le left
    have rightLe := size_eliminateYn_le right
    have leftPos := size_pos left
    have rightPos := size_pos right
    rcases eliminateYn_cases type left right with ⟨-, result⟩ | ⟨-, result⟩ | ⟨-, result⟩ |
      ⟨⟨notLeft, notRight⟩, result⟩ <;> rw [result] <;> simp only [size]
    · omega
    · omega
    · omega
    · rcases reducible with ⟨other, rfl⟩ | ⟨other, rfl⟩ | below | below
      · exact absurd ⟨other, rfl⟩ notLeft
      · exact absurd ⟨other, rfl⟩ notRight
      · have lt := ofLeft below
        omega
      · have lt := ofRight below
        omega
  | _ => exact reducible.elim

end EliminateYn

/-! ### `expr_transform` -/

/-- The comparison `left=right`, without one of a boolean symbol with `y`, `m` or `n`. -/
def transformEqual (table : Table ν) (left right : Symbol ν) : Expr ν :=
  if left.type table = .boolean then
    match right with
    | .no => .not (.symbol left)
    | .mod => .symbol .no
    | .yes => .symbol left
    | .entry id => .equal left (.entry id)
  else .equal left right

/-- The comparison `left!=right`, in the same way. -/
def transformUnequal (table : Table ν) (left right : Symbol ν) : Expr ν :=
  if left.type table = .boolean then
    match right with
    | .no => .symbol left
    | .mod => .symbol .yes
    | .yes => .not (.symbol left)
    | .entry id => .unequal left (.entry id)
  else .unequal left right

/-- The negation of a symbol. -/
def negateSymbol : Symbol ν → Expr ν
  | .yes => .symbol .no
  | .mod => .symbol .mod
  | .no => .symbol .yes
  | .entry id => .not (.symbol (.entry id))

/-- A transformation without fuel gives nothing; it is never without, when the fuel is the weight of
the expression. -/
def transform (table : Table ν) : ℕ → Expr ν → Option (Expr ν)
  | 0, _ => none
  | _ + 1, .symbol sym => some (.symbol sym)
  | _ + 1, .equal left right => some (transformEqual table left right)
  | _ + 1, .unequal left right => some (transformUnequal table left right)
  | fuel + 1, .node type left right => do
    let left ← transform table fuel left
    let right ← transform table fuel right
    return .node type left right
  | fuel + 1, .not expr => do
    match ← transform table fuel expr with
    | .not below => transform table fuel below
    | .equal left right => return .unequal left right
    | .unequal left right => return .equal left right
    | .node type left right => transform table fuel (.node type.dual (.not left) (.not right))
    | .symbol sym => return negateSymbol sym

def weight : Expr ν → ℕ
  | .symbol _ => 1
  | .not expr => 2 * weight expr + 1
  | .equal _ _ => 3
  | .unequal _ _ => 3
  | .node _ left right => weight left + weight right + 2

theorem weight_pos (expr : Expr ν) : 0 < weight expr := by
  cases expr <;> simp only [weight] <;> omega

/-- A comparison of a boolean symbol with one of the three constants. -/
def IsTest (table : Table ν) (left right : Symbol ν) : Prop :=
  left.type table = .boolean ∧ ∀ id, right ≠ .entry id

/-- An expression with negations at entries of the table only, and without such comparisons. -/
def Normal (table : Table ν) : Expr ν → Prop
  | .symbol _ => True
  | .not expr => ∃ id, expr = .symbol (.entry id)
  | .equal left right => ¬IsTest table left right
  | .unequal left right => ¬IsTest table left right
  | .node _ left right => Normal table left ∧ Normal table right

/-- What a transformation makes of an expression. -/
structure Transformed (table : Table ν) (expr result : Expr ν) : Prop where
  weight_le : weight result ≤ weight expr
  normal : Normal table result
  value : ∀ values : Values table, calcValue values result = calcValue values expr

section Transform

variable {table : Table ν}

theorem isTri_of_boolean {sym : Symbol ν} (isBoolean : sym.type table = .boolean) :
    sym.IsTri table := by
  cases sym with
  | entry id => exact Or.inl isBoolean
  | _ => trivial

theorem transformed_equal (left right : Symbol ν) :
    Transformed table (.equal left right) (transformEqual table left right) := by
  unfold transformEqual
  by_cases isBoolean : left.type table = .boolean
  · have isTri := isTri_of_boolean isBoolean
    rw [if_pos isBoolean]
    cases right with
    | entry id =>
      exact ⟨le_rfl, fun isTest => isTest.2 id rfl, fun _ => rfl⟩
    | no =>
      refine ⟨le_rfl, ?_, fun values => ?_⟩
      · cases left with
        | entry id => exact ⟨id, rfl⟩
        | _ => cases isBoolean
      · have definite := tri_ne_mod values isBoolean
        rw [@calcValue_equal _ _ values left .no isTri trivial, calcValue_not, calcValue_symbol]
        cases tri : left.tri values <;> first | rfl | exact absurd tri definite
    | mod =>
      refine ⟨Nat.le_add_left 1 2, trivial, fun values => ?_⟩
      rw [@calcValue_equal _ _ values left .mod isTri trivial]
      exact (if_neg (tri_ne_mod values isBoolean)).symm
    | yes =>
      refine ⟨Nat.le_add_left 1 2, trivial, fun values => ?_⟩
      have definite := tri_ne_mod values isBoolean
      rw [@calcValue_equal _ _ values left .yes isTri trivial, calcValue_symbol]
      cases tri : left.tri values <;> first | rfl | exact absurd tri definite
  · rw [if_neg isBoolean]
    exact ⟨le_rfl, fun isTest => isBoolean isTest.1, fun _ => rfl⟩

/-- The other comparison becomes the negation. -/
theorem calcValue_transformUnequal (values : Values table) (left right : Symbol ν) :
    calcValue values (transformUnequal table left right) =
      exprNot (calcValue values (transformEqual table left right)) := by
  unfold transformUnequal transformEqual
  by_cases isBoolean : left.type table = .boolean
  · rw [if_pos isBoolean, if_pos isBoolean]
    cases right with
    | entry id => exact calcValue_unequal values left _
    | yes => rfl
    | mod => rfl
    | no => exact (exprNot_exprNot _).symm
  · rw [if_neg isBoolean, if_neg isBoolean]
    exact calcValue_unequal values left right

theorem transformed_unequal (left right : Symbol ν) :
    Transformed table (.unequal left right) (transformUnequal table left right) := by
  have value : ∀ values : Values table,
      calcValue values (transformUnequal table left right) =
        calcValue values (.unequal left right) := by
    intro values
    rw [calcValue_transformUnequal, (transformed_equal left right).value, calcValue_unequal]
  unfold transformUnequal at value ⊢
  by_cases isBoolean : left.type table = .boolean
  · rw [if_pos isBoolean] at value ⊢
    cases right with
    | entry id => exact ⟨le_rfl, fun isTest => isTest.2 id rfl, value⟩
    | no => exact ⟨Nat.le_add_left 1 2, trivial, value⟩
    | mod => exact ⟨Nat.le_add_left 1 2, trivial, value⟩
    | yes =>
      refine ⟨le_rfl, ?_, value⟩
      cases left with
      | entry id => exact ⟨id, rfl⟩
      | _ => cases isBoolean
  · rw [if_neg isBoolean] at value ⊢
    exact ⟨le_rfl, fun isTest => isBoolean isTest.1, value⟩

theorem transformed_negateSymbol (sym : Symbol ν) :
    Transformed table (.not (.symbol sym)) (negateSymbol sym) := by
  cases sym with
  | entry id => exact ⟨le_rfl, ⟨id, rfl⟩, fun _ => rfl⟩
  | _ => exact ⟨Nat.le_add_left 1 2, trivial, fun _ => rfl⟩

/-- Enough fuel for an expression is its weight. -/
theorem transform_spec {fuel : ℕ} {expr : Expr ν} (enough : weight expr ≤ fuel) :
    ∃ result, transform table fuel expr = some result ∧ Transformed table expr result := by
  induction fuel generalizing expr with
  | zero => exact absurd enough (Nat.not_le_of_gt (weight_pos expr))
  | succ fuel inductionHypothesis =>
    cases expr with
    | symbol sym => exact ⟨_, rfl, le_rfl, trivial, fun _ => rfl⟩
    | equal left right => exact ⟨_, rfl, transformed_equal left right⟩
    | unequal left right => exact ⟨_, rfl, transformed_unequal left right⟩
    | node type left right =>
      simp only [weight] at enough
      obtain ⟨left', isLeft, ofLeft⟩ := @inductionHypothesis left (by omega)
      obtain ⟨right', isRight, ofRight⟩ := @inductionHypothesis right (by omega)
      refine ⟨.node type left' right', ?_, ?_, ⟨ofLeft.normal, ofRight.normal⟩, fun values => ?_⟩
      · rw [transform, isLeft, isRight]
        rfl
      · exact Nat.add_le_add_right (Nat.add_le_add ofLeft.weight_le ofRight.weight_le) 2
      · rw [calcValue_node, calcValue_node, ofLeft.value, ofRight.value]
    | not expr =>
      simp only [weight] at enough
      obtain ⟨inner, isInner, ofInner⟩ := @inductionHypothesis expr (by omega)
      have lighter := ofInner.weight_le
      have negated : ∀ values : Values table,
          calcValue values (.not expr) = exprNot (calcValue values inner) := by
        intro values
        rw [calcValue_not, ofInner.value]
      rw [transform, isInner]
      cases inner with
      | symbol sym =>
        have result := @transformed_negateSymbol _ table sym
        refine ⟨_, rfl, ?_, result.normal, fun values => ?_⟩
        · have pos := weight_pos expr
          have light := result.weight_le
          simp only [weight] at light ⊢
          omega
        · rw [result.value, negated, calcValue_not]
      | equal left right =>
        refine ⟨_, rfl, ?_, ofInner.normal, fun values => ?_⟩
        · simp only [weight] at lighter ⊢
          omega
        · rw [negated, calcValue_unequal]
      | unequal left right =>
        refine ⟨_, rfl, ?_, ofInner.normal, fun values => ?_⟩
        · simp only [weight] at lighter ⊢
          omega
        · rw [negated, calcValue_unequal, exprNot_exprNot]
      | not below =>
        simp only [weight] at lighter
        obtain ⟨result, isResult, ofResult⟩ := @inductionHypothesis below (by omega)
        refine ⟨result, isResult, ?_, ofResult.normal, fun values => ?_⟩
        · have last := ofResult.weight_le
          simp only [weight]
          omega
        · rw [negated, calcValue_not, exprNot_exprNot, ofResult.value]
      | node type left right =>
        simp only [weight] at lighter
        obtain ⟨result, isResult, ofResult⟩ :=
          @inductionHypothesis (.node type.dual (.not left) (.not right)) (by
            simp only [weight]
            omega)
        refine ⟨result, isResult, ?_, ofResult.normal, fun values => ?_⟩
        · have last := ofResult.weight_le
          simp only [weight] at last ⊢
          omega
        · rw [negated, ofResult.value, calcValue_node, calcValue_node, calcValue_not,
            calcValue_not, antitone_apply antitone_exprNot]

theorem transform_of_normal {fuel : ℕ} {expr : Expr ν} (normal : Normal table expr)
    (enough : weight expr ≤ fuel) : transform table fuel expr = some expr := by
  induction expr generalizing fuel with
  | symbol sym =>
    obtain ⟨fuel, rfl⟩ := Nat.exists_eq_add_one.mpr (Nat.lt_of_lt_of_le (weight_pos _) enough)
    rfl
  | equal left right =>
    obtain ⟨fuel, rfl⟩ := Nat.exists_eq_add_one.mpr (Nat.lt_of_lt_of_le (weight_pos _) enough)
    unfold transform transformEqual
    by_cases isBoolean : left.type table = .boolean
    · rw [if_pos isBoolean]
      cases right with
      | entry id => rfl
      | _ => exact absurd ⟨isBoolean, by rintro id ⟨⟩⟩ normal
    · rw [if_neg isBoolean]
  | unequal left right =>
    obtain ⟨fuel, rfl⟩ := Nat.exists_eq_add_one.mpr (Nat.lt_of_lt_of_le (weight_pos _) enough)
    unfold transform transformUnequal
    by_cases isBoolean : left.type table = .boolean
    · rw [if_pos isBoolean]
      cases right with
      | entry id => rfl
      | _ => exact absurd ⟨isBoolean, by rintro id ⟨⟩⟩ normal
    · rw [if_neg isBoolean]
  | not expr =>
    obtain ⟨id, rfl⟩ := normal
    obtain ⟨fuel, rfl⟩ := Nat.exists_eq_add_of_le' enough
    rfl
  | node type left right ofLeft ofRight =>
    simp only [weight] at enough
    obtain ⟨fuel, rfl⟩ := Nat.exists_eq_add_one.mpr (show 0 < fuel by omega)
    rw [transform, ofLeft normal.1 (by omega), ofRight normal.2 (by omega)]
    rfl

/-- A transformation ends, with enough fuel, keeps the value of the expression whatever the values
of its symbols are, leaves negations at symbols only, and a second one changes nothing. -/
theorem transform_normalises (table : Table ν) (expr : Expr ν) (fuel : ℕ)
    (enough : weight expr ≤ fuel) :
    ∃ result, transform table fuel expr = some result ∧ Normal table result ∧
      (∀ values : Values table, calcValue values result = calcValue values expr) ∧
      transform table fuel result = some result := by
  obtain ⟨result, isResult, transformed⟩ := @transform_spec _ table fuel expr enough
  exact ⟨result, isResult, transformed.normal, transformed.value,
    transform_of_normal transformed.normal (transformed.weight_le.trans enough)⟩

end Transform

/-- Two symbols, a boolean one and a tristate. -/
def fooBar : Table Bool where
  type foo := if foo then .boolean else .tristate
  isConst _ := false
  const_type _ impossible := absurd impossible Bool.false_ne_true

/-- `!(FOO=n && !!BAR)` is `FOO || !BAR`. -/
theorem transform_normalises_foo :
    ∃ result, transform fooBar 30
        (.not (.node .and (.equal (.entry true) .no) (.not (.not (.symbol (.entry false)))))) =
          some result ∧ Normal fooBar result ∧
      (∀ values : Values fooBar, calcValue values result = calcValue values
        (.not (.node .and (.equal (.entry true) .no) (.not (.not (.symbol (.entry false))))))) ∧
      transform fooBar 30 result = some result :=
  transform_normalises fooBar _ 30 (by decide)

end Buildroot4G.Kconf
