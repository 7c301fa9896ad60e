/-
This file models `expr_join_or` and `expr_join_and`: rules that make one condition of two on the
same symbol. Every rule is exact, for a boolean symbol and for a tristate one, in every
configuration; the third rule for negated comparisons, too, whose comment in the code names another
value than the rule gives.
-/

import Buildroot4G.Kconf.Slots

namespace Buildroot4G.Kconf

open Connective

variable {ν : Type} [DecidableEq ν]

/-- The symbol that the first condition is about. -/
def firstSymbol : Expr ν → Option (Symbol ν)
  | .equal left _ => some left
  | .unequal left _ => some left
  | .symbol sym => some sym
  | .not (.equal left _) => some left
  | .not (.unequal left _) => some left
  | .not (.symbol sym) => some sym
  | _ => none

/-- The symbol that the second one is about; of its negations only those of symbols count. -/
def secondSymbol : Expr ν → Option (Symbol ν)
  | .equal left _ => some left
  | .unequal left _ => some left
  | .symbol sym => some sym
  | .not (.symbol sym) => some sym
  | _ => none

/-- The constant with a value. -/
def Tristate.symbol : Tristate → Symbol ν
  | .no => .no
  | .mod => .mod
  | .yes => .yes

/-- The two conditions, in one order or the other. -/
def Either (e1 e2 first second : Expr ν) : Prop :=
  e1 = first ∧ e2 = second ∨ e2 = first ∧ e1 = second

instance (e1 e2 first second : Expr ν) : Decidable (Either e1 e2 first second) :=
  inferInstanceAs (Decidable (_ ∨ _))

/-- The rules of `expr_join_or` for a symbol. -/
def orRule (table : Table ν) (sym : Symbol ν) (e1 e2 : Expr ν) : Option (Expr ν) :=
  if sym.type table = .tristate ∧ Either e1 e2 (.equal sym .yes) (.equal sym .mod) then
    some (.unequal sym .no)
  else if sym.type table = .tristate ∧ Either e1 e2 (.equal sym .yes) (.equal sym .no) then
    some (.unequal sym .mod)
  else if sym.type table = .tristate ∧ Either e1 e2 (.equal sym .mod) (.equal sym .no) then
    some (.unequal sym .yes)
  else if sym.type table = .boolean ∧ Either e1 e2 (.not (.symbol sym)) (.symbol sym) then
    some (.symbol .yes)
  else none

/-- The comparison with one constant, where the one with another constant is denied. -/
def constRule (table : Table ν) (sym equal unequal : Symbol ν) : Option (Expr ν) :=
  if unequal.isConst table ∧ equal.isConst table then
    some (if equal ≠ unequal then .equal sym equal else .symbol .no)
  else none

/-- The rules of `expr_join_and` for a tristate symbol. -/
def tristateRule (table : Table ν) (sym : Symbol ν) (e1 e2 : Expr ν) : Option (Expr ν) :=
  match e1, e2 with
  | .equal _ right, .unequal _ right' => constRule table sym right right'
  | .unequal _ right, .equal _ right' => constRule table sym right' right
  | e1, e2 =>
    if Either e1 e2 (.unequal sym .yes) (.unequal sym .no) then some (.equal sym .mod)
    else if Either e1 e2 (.unequal sym .yes) (.unequal sym .mod) then some (.equal sym .no)
    else if Either e1 e2 (.unequal sym .mod) (.unequal sym .no) then some (.equal sym .yes)
    else none

/-- The rules of `expr_join_and` for a symbol. -/
def andRule (table : Table ν) (sym : Symbol ν) (e1 e2 : Expr ν) : Option (Expr ν) :=
  if Either e1 e2 (.symbol sym) (.equal sym .yes) then some (.equal sym .yes)
  else if Either e1 e2 (.symbol sym) (.unequal sym .no) then some (.symbol sym)
  else if Either e1 e2 (.symbol sym) (.unequal sym .mod) then some (.equal sym .yes)
  else if sym.type table = .tristate then tristateRule table sym e1 e2
  else none

/-- The rules of a connective. -/
def joinRule (table : Table ν) : Conn → Symbol ν → Expr ν → Expr ν → Option (Expr ν)
  | .or => orRule table
  | .and => andRule table

/-- `expr_join_or` and `expr_join_and`. -/
def join (table : Table ν) (type : Conn) (e1 e2 : Expr ν) : Option (Option (Expr ν)) := do
  if ← exprEq (size e1 + size e2) e1 e2 then return some e1
  else
    match firstSymbol e1, secondSymbol e2 with
    | some sym1, some sym2 =>
      if sym1 = sym2 ∧ (sym1.type table = .boolean ∨ sym1.type table = .tristate) then
        return joinRule table type sym1 e1 e2
      else return none
    | _, _ => return none

/-! ### The rules are exact -/

section Rules

omit [DecidableEq ν]

variable {table : Table ν} {sym equal unequal : Symbol ν} {e1 e2 first second : Expr ν}
  (values : Values table)

theorem Either.value (either : Either e1 e2 first second) (type : Conn) :
    type.apply (calcValue values e1) (calcValue values e2) =
      type.apply (calcValue values first) (calcValue values second) := by
  rcases either with ⟨rfl, rfl⟩ | ⟨rfl, rfl⟩
  · rfl
  · exact apply_comm type _ _

theorem isTri_of_type (isTri : sym.type table = .boolean ∨ sym.type table = .tristate) :
    sym.IsTri table := by
  cases sym with
  | entry id => exact isTri
  | _ => trivial

/-- The comparisons with the three constants. -/
theorem calcValue_equal_const (isTri : sym.IsTri table) :
    calcValue values (.equal sym .yes) = (if sym.tri values = .yes then .yes else .no) ∧
      calcValue values (.equal sym .mod) = (if sym.tri values = .mod then .yes else .no) ∧
      calcValue values (.equal sym .no) = (if sym.tri values = .no then .yes else .no) :=
  ⟨calcValue_equal values isTri trivial, calcValue_equal values isTri trivial,
    calcValue_equal values isTri trivial⟩

theorem calcValue_equal_cases :
    calcValue values (.equal equal unequal) = .yes ∨
      calcValue values (.equal equal unequal) = .no := by
  rw [calcValue]
  split
  · exact Or.inl rfl
  · exact Or.inr rfl

/-- A constant is one of the three, with the text of its value, or it has a name of its own. -/
theorem stringValue_const (isConst : sym.isConst table = true) :
    (∃ value : Tristate, sym = value.symbol ∧ sym.stringValue values = value.text) ∨
      ∃ id, sym = .entry id ∧ table.isConst id = true ∧ sym.stringValue values = values.val id := by
  cases sym with
  | yes => exact Or.inl ⟨.yes, rfl, rfl⟩
  | mod => exact Or.inl ⟨.mod, rfl, rfl⟩
  | no => exact Or.inl ⟨.no, rfl, rfl⟩
  | entry id =>
    refine Or.inr ⟨id, rfl, isConst, if_neg ?_⟩
    rw [table.const_type id isConst]
    rintro (untyped | untyped) <;> cases untyped

/-- Constants with the same text are the same. -/
theorem eq_of_stringValue (isConst : equal.isConst table = true)
    (isConst' : unequal.isConst table = true)
    (same : equal.stringValue values = unequal.stringValue values) : equal = unequal := by
  rcases stringValue_const values isConst with ⟨value, rfl, text⟩ | ⟨id, rfl, const, text⟩ <;>
    rcases stringValue_const values isConst' with
      ⟨value', rfl, text'⟩ | ⟨id', rfl, const', text'⟩ <;>
    rw [text, text'] at same
  · rw [Tristate.text_inj.mp same]
  · exact absurd same.symm (values.const_ne id' const' value)
  · exact absurd same (values.const_ne id const value')
  · rw [values.const_inj id id' const const' same]

end Rules

section Exact

variable {table : Table ν} {type : Conn} {sym equal unequal : Symbol ν} {e1 e2 tmp : Expr ν}
  (values : Values table)

theorem calcValue_orRule (isTri : sym.type table = .boolean ∨ sym.type table = .tristate)
    (found : orRule table sym e1 e2 = some tmp) :
    calcValue values tmp = Conn.or.apply (calcValue values e1) (calcValue values e2) := by
  obtain ⟨isYes, isMod, isNo⟩ := calcValue_equal_const values (isTri_of_type isTri)
  rw [orRule] at found
  split_ifs at found with yesMod yesNo modNo negated <;> cases found
  · rw [yesMod.2.value, calcValue_unequal, isYes, isMod, isNo]
    cases sym.tri values <;> rfl
  · rw [yesNo.2.value, calcValue_unequal, isYes, isMod, isNo]
    cases sym.tri values <;> rfl
  · rw [modNo.2.value, calcValue_unequal, isYes, isMod, isNo]
    cases sym.tri values <;> rfl
  · rw [negated.2.value, calcValue_not, calcValue_symbol, calcValue_symbol]
    have notMod := tri_ne_mod values negated.1
    cases value : sym.tri values with
    | mod => exact absurd value notMod
    | _ => rfl

theorem calcValue_constRule (found : constRule table sym equal unequal = some tmp) :
    calcValue values tmp =
      Conn.and.apply (calcValue values (.equal sym equal))
        (calcValue values (.unequal sym unequal)) := by
  rw [constRule] at found
  split_ifs at found with isConst same <;> cases found
  · rw [calcValue, calcValue]
    split_ifs with isEqual isUnequal
    · have equal := eq_of_stringValue values isConst.2 isConst.1 (isEqual.symm.trans isUnequal)
      exact absurd equal same
    · rfl
    · rfl
    · rfl
  · rw [not_not.mp same, calcValue_unequal]
    rcases @calcValue_equal_cases _ _ sym unequal values with value | value <;> rw [value] <;> rfl

theorem calcValue_tristateRule (isTristate : sym.type table = .tristate)
    (isFirst : firstSymbol e1 = some sym) (isSecond : secondSymbol e2 = some sym)
    (found : tristateRule table sym e1 e2 = some tmp) :
    calcValue values tmp = Conn.and.apply (calcValue values e1) (calcValue values e2) := by
  obtain ⟨isYes, isMod, isNo⟩ := calcValue_equal_const values (isTri_of_type (Or.inr isTristate))
  unfold tristateRule at found
  split at found
  · cases isFirst
    cases isSecond
    exact calcValue_constRule values found
  · cases isFirst
    cases isSecond
    rw [apply_comm]
    exact calcValue_constRule values found
  · split_ifs at found with yesNo yesMod modNo <;> cases found
    · rw [yesNo.value, calcValue_unequal, calcValue_unequal, isYes, isMod, isNo]
      cases sym.tri values <;> rfl
    · rw [yesMod.value, calcValue_unequal, calcValue_unequal, isYes, isMod, isNo]
      cases sym.tri values <;> rfl
    · rw [modNo.value, calcValue_unequal, calcValue_unequal, isYes, isMod, isNo]
      cases sym.tri values <;> rfl

theorem calcValue_andRule (isTri : sym.type table = .boolean ∨ sym.type table = .tristate)
    (isFirst : firstSymbol e1 = some sym) (isSecond : secondSymbol e2 = some sym)
    (found : andRule table sym e1 e2 = some tmp) :
    calcValue values tmp = Conn.and.apply (calcValue values e1) (calcValue values e2) := by
  obtain ⟨isYes, isMod, isNo⟩ := calcValue_equal_const values (isTri_of_type isTri)
  rw [andRule] at found
  split_ifs at found with isEqual notNo notMod isTristate
  · cases found
    rw [isEqual.value, calcValue_symbol, isYes]
    cases sym.tri values <;> rfl
  · cases found
    rw [notNo.value, calcValue_unequal, calcValue_symbol, isNo]
    cases sym.tri values <;> rfl
  · cases found
    rw [notMod.value, calcValue_unequal, calcValue_symbol, isMod, isYes]
    cases sym.tri values <;> rfl
  · exact calcValue_tristateRule values isTristate isFirst isSecond found

theorem calcValue_joinRule (isTri : sym.type table = .boolean ∨ sym.type table = .tristate)
    (isFirst : firstSymbol e1 = some sym) (isSecond : secondSymbol e2 = some sym)
    (found : joinRule table type sym e1 e2 = some tmp) :
    calcValue values tmp = type.apply (calcValue values e1) (calcValue values e2) := by
  cases type with
  | or => exact calcValue_orRule values isTri found
  | and => exact calcValue_andRule values isTri isFirst isSecond found

theorem size_constRule (found : constRule table sym equal unequal = some tmp) : size tmp = 1 := by
  rw [constRule] at found
  split_ifs at found <;> cases found <;> rfl

/-- The rules give no connectives and no negations. -/
theorem size_joinRule (found : joinRule table type sym e1 e2 = some tmp) : size tmp = 1 := by
  cases type with
  | or =>
    rw [joinRule, orRule] at found
    split_ifs at found <;> cases found <;> rfl
  | and =>
    rw [joinRule, andRule] at found
    split_ifs at found
    iterate 3 exact Option.some.inj found ▸ rfl
    unfold tristateRule at found
    split at found
    · exact size_constRule found
    · exact size_constRule found
    · split_ifs at found <;> cases found <;> rfl

/-- What a join makes of two conditions has the value of both, and is the first one or has no
connective. -/
theorem join_spec (table : Table ν) (type : Conn) (e1 e2 : Expr ν) :
    ∃ answer, join table type e1 e2 = some answer ∧ ∀ tmp, answer = some tmp →
      (tmp = e1 ∨ size tmp = 1) ∧ ∀ values : Values table,
        calcValue values tmp = type.apply (calcValue values e1) (calcValue values e2) := by
  obtain ⟨same, answers, equal⟩ := sound_exprEq (size e1 + size e2) e1 e2 le_rfl
  unfold join
  rw [answers]
  cases same with
  | true =>
    refine ⟨some e1, rfl, ?_⟩
    rintro tmp isSame
    cases isSame
    exact ⟨Or.inl rfl, fun values => by rw [← equal rfl values, apply_self]⟩
  | false =>
    simp only [Option.bind_eq_bind, Option.bind_some, Bool.false_eq_true, if_false]
    split
    · rename_i sym1 sym2 isFirst isSecond
      split_ifs with isTri
      · refine ⟨_, rfl, fun tmp found => ⟨Or.inr (size_joinRule found), fun values => ?_⟩⟩
        exact calcValue_joinRule values isTri.2 isFirst (isTri.1 ▸ isSecond) found
      · exact ⟨none, rfl, nofun⟩
    · exact ⟨none, rfl, nofun⟩

end Exact

end Buildroot4G.Kconf
