/-
This file models `expr_eliminate_dups`: the operands of an expression are compared two by two, in
one walk that joins them and in another one that looks for operands that deny each other, until a
round changes nothing. The main result is that the rounds end, and that in every configuration an
expression that was `y` or `n` keeps its value. An expression that was `m` may not: the second walk
takes `FOO && !FOO` for `n`.

Two things carry the proof. Only operands are written, so the places of the others stay what they
are; and every write leaves a constant below a connective, so that a round that counted one ends
with a smaller expression.
-/

import Buildroot4G.Kconf.Joins

namespace Buildroot4G.Kconf

open Connective

variable {ν : Type} [DecidableEq ν]

/-- The expression at the root, and `trans_count`. -/
abbrev Marked (ν : Type) := Expr ν × ℕ

/-- What is done with the operands at two places. -/
abbrev Visit (ν : Type) := Conn → Marked ν → Place → Place → Option (Marked ν)

/-- The visit of two operands, unless they are one. An operand that is a connective itself is
walked over first. -/
def visitOperands (walk visit : Visit ν) : Visit ν := fun type state place other =>
  if place = other then some state
  else do
    match ← subExpr state.1 place with
    | .node inner left right =>
      let (e1, count) ← walk inner (.node inner left right, state.2) [] []
      visit type (put state.1 place e1, count) place other
    | _ => visit type state place other

/-- The walk of `expr_eliminate_dups1` and of `expr_eliminate_dups2` over the operands at two
places. `returns` says whether it ends behind the operands of the second place. -/
def walk (returns : Bool) (visit : Visit ν) : ℕ → Visit ν
  | 0, _, _, _, _ => none
  | fuel + 1, type, state, place, other => do
    match operands type (← subExpr state.1 place) with
    | some _ =>
      let state ← walk returns visit fuel type state (place ++ [.left]) other
      walk returns visit fuel type state (place ++ [.right]) other
    | none =>
      match operands type (← subExpr state.1 other) with
      | some _ =>
        let state ← walk returns visit fuel type state place (other ++ [.left])
        let state ← walk returns visit fuel type state place (other ++ [.right])
        if returns then return state
        else visitOperands (walk returns visit fuel) visit type state place other
      | none => visitOperands (walk returns visit fuel) visit type state place other

/-- `expr_eliminate_dups1` at two operands: they are joined in the second place. -/
def visitJoin (table : Table ν) : Visit ν := fun type (root, count) place other => do
  let e1 ← subExpr root place
  let e2 ← subExpr root other
  match ← join table type e1 e2 with
  | some tmp => return (put (put root other tmp) place (.symbol (unitSymbol type)), count + 1)
  | none => return (root, count)

/-- `expr_eliminate_dups2` at two operands: the first one is denied by the second one when its
negation is left with nothing. -/
def visitDenied (table : Table ν) : Visit ν := fun _ (root, count) place other => do
  let e1 ← subExpr root place
  let e2 ← subExpr root other
  match e1 with
  | .node inner _ _ =>
    let negated ← transform table (weight (.not e1)) (.not e1)
    let (_, tmp1, _) ← extractEq (size negated + size e2) inner.dual negated e2
    if tmp1 = .symbol (unitSymbol inner.dual) then
      return (put root place (.symbol (unitSymbol inner)), count + 1)
    else return (root, count)
  | _ => return (root, count)

/-- Enough fuel for a walk. -/
def walkFuel (expr : Expr ν) : ℕ := (size expr + 1) * (size expr + 1)

/-- `expr_eliminate_dups1` and `expr_eliminate_dups2` of a whole expression. -/
def eliminateRound (table : Table ν) : Expr ν → Option (Marked ν)
  | .node type left right => do
    let (expr, count) ← walk true (visitJoin table) (walkFuel (.node type left right)) type
      (.node type left right, 0) [] []
    walk false (visitDenied table) (walkFuel expr) type (expr, count) [] []
  | expr => some (expr, 0)

/-- The rounds of `expr_eliminate_dups`. -/
def eliminateRounds (table : Table ν) : ℕ → Expr ν → Option (Expr ν)
  | 0, _ => none
  | fuel + 1, expr => do
    let (expr, count) ← eliminateRound table expr
    if count = 0 then return expr else eliminateRounds table fuel (eliminateYn expr)

/-- `expr_eliminate_dups`. -/
def eliminateDups (table : Table ν) (expr : Expr ν) : Option (Expr ν) :=
  eliminateRounds table (size expr + 1) expr

/-! ### What a walk leaves -/

/-- A value that is not `m` stays. -/
def Keeps (before after : Tristate) : Prop := before ≠ .mod → after = before

theorem Keeps.refl (value : Tristate) : Keeps value value := fun _ => rfl

theorem Keeps.trans {first second third : Tristate} (before : Keeps first second)
    (after : Keeps second third) : Keeps first third := by
  intro notMod
  rw [after (by rwa [before notMod]), before notMod]

/-- What one part keeps, the whole keeps. -/
theorem Keeps.apply {before after : Tristate} (keeps : Keeps before after) (type : Conn)
    (rest : Tristate) : Keeps (type.apply before rest) (type.apply after rest) := by
  by_cases isMod : before = .mod
  · subst isMod
    intro notMod
    cases type <;> cases rest <;> first | exact absurd rfl notMod | skip
    · cases after <;> rfl
    · cases after <;> rfl
  · rw [keeps isMod]
    exact Keeps.refl _

/-- A value and its negation leave no `y`, or no `n`. -/
theorem keeps_negated (type : Conn) (value rest : Tristate) :
    Keeps (type.apply (type.apply value (exprNot value)) rest) (type.dual.unit Tristate) := by
  intro notMod
  cases type <;> cases value <;> cases rest <;> first | rfl | exact absurd rfl notMod

/-- What a walk leaves of an expression: its operands are where they were, it is not larger, and it
was changed only when that was counted, and can be made smaller then. -/
structure Improved (table : Table ν) (type : Conn) (state state' : Marked ν) : Prop where
  spine_eq : spine type state'.1 = spine type state.1
  size_le : size state'.1 ≤ size state.1
  keeps : ∀ values : Values table,
    Keeps (calcValue values state.1) (calcValue values state'.1)
  progress : state' = state ∨ state.2 < state'.2 ∧ Reducible state'.1

variable {table : Table ν} {type : Conn} {state state' state'' : Marked ν} {root : Expr ν}
  {place other : Place} {part part' : Spine} {visit : Visit ν} {returns : Bool} {count : ℕ}

omit [DecidableEq ν] in
theorem Improved.refl (table : Table ν) (type : Conn) (state : Marked ν) :
    Improved table type state state :=
  ⟨rfl, le_rfl, fun _ => Keeps.refl _, Or.inl rfl⟩

omit [DecidableEq ν] in
theorem Improved.trans (first : Improved table type state state')
    (second : Improved table type state' state'') : Improved table type state state'' := by
  refine ⟨second.spine_eq.trans first.spine_eq, second.size_le.trans first.size_le,
    fun values => (first.keeps values).trans (second.keeps values), ?_⟩
  rcases second.progress with same | ⟨more, reducible⟩
  · rw [same]
    exact first.progress
  · rcases first.progress with same | ⟨more', -⟩
    · rw [same] at more
      exact Or.inr ⟨more, reducible⟩
    · exact Or.inr ⟨more'.trans more, reducible⟩

omit [DecidableEq ν] in
/-- The places below a connective are not the root. -/
theorem ne_nil_of_ne (isOperand : (spine type root).sub place = some .operand)
    (isPart : (spine type root).sub other = some part) (different : place ≠ other) :
    place ≠ [] := by
  rintro rfl
  rw [sub_nil] at isOperand
  exact different (place_of_operand (Option.some.inj isOperand) isPart).symm

omit [DecidableEq ν] in
/-- An operand that is a connective is one of the other type. -/
theorem ne_of_operand {inner : Conn} {left right : Expr ν}
    (isOperand : spine type (.node inner left right) = .operand) : inner ≠ type := by
  rintro rfl
  rw [spine_node] at isOperand
  cases isOperand

omit [DecidableEq ν] in
/-- What a walk over an operand makes of it goes for the whole expression. -/
theorem Improved.put {inner : Conn} {left right e1 : Expr ν} {count' : ℕ}
    (improved : Improved table inner (.node inner left right, count) (e1, count'))
    (isOperand : (spine type root).sub place = some .operand) (notTop : place ≠ [])
    (found : subExpr root place = some (.node inner left right))
    (operand : spine type (.node inner left right) = .operand) :
    Improved table type (root, count) (put root place e1, count') := by
  have different := ne_of_operand operand
  have newOperand : spine type e1 = .operand := by
    obtain ⟨left', right', rfl, -, -⟩ :=
      eq_node_of_spine (improved.spine_eq.trans (spine_node inner left right))
    exact if_neg different
  have sizes := size_put isOperand found e1
  have sizeLe : size e1 ≤ size (.node inner left right) := improved.size_le
  refine ⟨spine_put isOperand newOperand, ?_, fun values => ?_, ?_⟩
  · show size (Kconf.put root place e1) ≤ size root
    omega
  · obtain ⟨rest, made⟩ := exists_rest values isOperand
    have before := made (.node inner left right)
    rw [put_self isOperand found] at before
    show Keeps (calcValue values root) (calcValue values (Kconf.put root place e1))
    rw [before, made]
    exact (improved.keeps values).apply type rest
  · rcases improved.progress with same | ⟨more, reducible⟩
    · cases same
      rw [put_self isOperand found]
      exact Or.inl rfl
    · exact Or.inr ⟨more, reducible_put isOperand reducible⟩

/-! ### The visits -/

/-- A visit does its work at every operand and at another place, of an operand if the walk
`returns`. -/
def Improves (table : Table ν) (returns : Bool) (visit : Visit ν) : Prop :=
  ∀ ⦃type : Conn⦄ ⦃root : Expr ν⦄ ⦃count : ℕ⦄ ⦃place other : Place⦄ ⦃part : Spine⦄,
    (spine type root).sub place = some .operand → (spine type root).sub other = some part →
    (returns = true → part = .operand) → place ≠ other →
    ∃ state', visit type (root, count) place other = some state' ∧
      Improved table type (root, count) state'

omit [DecidableEq ν] in
theorem spine_of_size {expr : Expr ν} (isOne : size expr = 1) (type : Conn) :
    spine type expr = .operand := by
  cases expr with
  | node other left right =>
    have pos := size_pos left
    simp only [size] at isOne
    omega
  | _ => rfl

theorem visitJoin_spec (table : Table ν) : Improves table true (visitJoin table) := by
  intro type root count place other part isOperand isPart isEnd different
  rw [isEnd rfl] at isPart
  obtain ⟨e1, found, operand⟩ := exists_subExpr isOperand
  obtain ⟨e2, found', -⟩ := exists_subExpr isPart
  obtain ⟨answer, joined, exact⟩ := join_spec table type e1 e2
  rw [visitJoin, found, found']
  simp only [Option.bind_eq_bind, Option.bind_some, joined]
  cases answer with
  | none => exact ⟨_, rfl, Improved.refl table type _⟩
  | some tmp =>
    obtain ⟨isTmp, value⟩ := exact tmp rfl
    have tmpOperand : spine type tmp = .operand := by
      rcases isTmp with rfl | isOne
      · exact operand
      · exact spine_of_size isOne type
    have spineEq := spine_put isPart tmpOperand
    have isOperand' : (spine type (put root other tmp)).sub place = some .operand := by
      rw [spineEq]
      exact isOperand
    have kept := (subExpr_put isOperand isPart different tmp).trans found
    refine ⟨_, rfl, (spine_put isOperand' rfl).trans spineEq, ?_, fun values => ?_, ?_⟩
    · have sizes := size_put isPart found' tmp
      have sizes' := size_put isOperand' kept (.symbol (unitSymbol type))
      have pos := size_pos e1
      have pos' := size_pos e2
      have tmpLe : size tmp ≤ size e1 := by
        rcases isTmp with rfl | isOne
        · exact le_rfl
        · omega
      have symbolOne : size (.symbol (unitSymbol type) : Expr ν) = 1 := rfl
      show size (put (put root other tmp) place (.symbol (unitSymbol type))) ≤ size root
      omega
    · obtain ⟨rest, made⟩ := exists_rest_of_two values isOperand isPart different
      have before := made e1 e2
      rw [put_self isPart found', put_self isOperand found] at before
      show Keeps (calcValue values root)
        (calcValue values (put (put root other tmp) place (.symbol (unitSymbol type))))
      rw [before, made, value, calcValue_symbol, tri_unitSymbol, unit_apply]
      exact Keeps.refl _
    · exact Or.inr ⟨Nat.lt_succ_self count, reducible_put_isYn isOperand'
        (ne_nil_of_ne isOperand isPart different) ⟨type, rfl⟩⟩

omit [DecidableEq ν] in
/-- An operand that is denied at another place of the spine can be left out. -/
theorem keeps_denied {e1 e2 : Expr ν} {kept : Tristate} (values : Values table)
    (isOperand : (spine type root).sub place = some .operand)
    (isPart : (spine type root).sub other = some part) (found : subExpr root place = some e1)
    (found' : subExpr root other = some e2)
    (denied : calcValue values e2 = type.apply kept (exprNot (calcValue values e1))) :
    Keeps (calcValue values root)
      (calcValue values (put root place (.symbol (unitSymbol type.dual)))) := by
  obtain ⟨rest, made⟩ := exists_rest values isOperand
  obtain ⟨rest', made'⟩ := exists_rest values isPart
  have first := made e1
  have second := made' e2
  rw [put_self isOperand found] at first
  rw [put_self isPart found'] at second
  have both : calcValue values root =
      type.apply (type.apply (calcValue values e1) (exprNot (calcValue values e1)))
        (type.apply rest (type.apply kept rest')) := by
    calc calcValue values root
      _ = type.apply (calcValue values root) (calcValue values root) := (apply_self type _).symm
      _ = type.apply (type.apply (calcValue values e1) rest)
            (type.apply (type.apply kept (exprNot (calcValue values e1))) rest') := by
          rw [← first, ← denied, ← second]
      _ = _ := by ac_rfl
  rw [both, made, calcValue_symbol, tri_unitSymbol, absorbing_apply]
  exact keeps_negated type _ _

theorem visitDenied_spec (table : Table ν) : Improves table false (visitDenied table) := by
  intro type root count place other part isOperand isPart _ different
  obtain ⟨e1, found, operand⟩ := exists_subExpr isOperand
  obtain ⟨e2, found', -⟩ := exists_subExpr isPart
  rw [visitDenied, found, found']
  simp only [Option.bind_eq_bind, Option.bind_some]
  cases e1 with
  | node inner left right =>
    have isDual := eq_dual_of_ne (ne_of_operand operand)
    have innerDual : inner.dual = type := by rw [isDual, dual_dual]
    obtain ⟨negated, isNegated, transformed⟩ : ∃ result,
        transform table (weight (.not (.node inner left right))) (.not (.node inner left right)) =
          some result ∧ Transformed table (.not (.node inner left right)) result :=
      transform_spec le_rfl
    obtain ⟨tmp, tmp1, tmp2, extracted, factors⟩ := extractEq_factor inner.dual negated e2 _ le_rfl
    simp only [isNegated, extracted, Option.bind_some]
    split_ifs with isUnit
    · refine ⟨_, rfl, spine_put isOperand rfl, ?_, fun values => ?_, ?_⟩
      · have sizes := size_put isOperand found (.symbol (unitSymbol inner))
        have pos := size_pos (.node inner left right)
        have symbolOne : size (.symbol (unitSymbol inner) : Expr ν) = 1 := rfl
        show size (put root place (.symbol (unitSymbol inner))) ≤ size root
        omega
      · obtain ⟨ofNegated, ofSecond⟩ := factors values
        rw [isUnit, calcValue_symbol, tri_unitSymbol, unit_apply, transformed.value,
          calcValue_not] at ofNegated
        rw [← ofNegated, innerDual] at ofSecond
        have denied := keeps_denied values isOperand isPart found found' ofSecond
        rw [← isDual] at denied
        exact denied
      · exact Or.inr ⟨Nat.lt_succ_self count, reducible_put_isYn isOperand
          (ne_nil_of_ne isOperand isPart different) ⟨inner, rfl⟩⟩
    · exact ⟨_, rfl, Improved.refl table type _⟩
  | _ => exact ⟨_, rfl, Improved.refl table type _⟩

/-! ### The walk -/

/-- The walk does its work for expressions up to a size and at two places, with enough fuel. -/
def Walks (table : Table ν) (walk : Visit ν) (fuel : ℕ) : Prop :=
  ∀ ⦃type : Conn⦄ ⦃root : Expr ν⦄ ⦃count : ℕ⦄ ⦃place other : Place⦄ ⦃part part' : Spine⦄
    ⦃bound : ℕ⦄, size root ≤ bound → (spine type root).sub place = some part →
    (spine type root).sub other = some part' → part.size + part'.size + 1 + bound * bound ≤ fuel →
    ∃ state', walk type (root, count) place other = some state' ∧
      Improved table type (root, count) state'

omit [DecidableEq ν] in
theorem operands_of_spine {expr : Expr ν} {left right : Spine}
    (isNode : spine type expr = .node left right) : ∃ pair, operands type expr = some pair := by
  obtain ⟨left', right', rfl, -, -⟩ := eq_node_of_spine isNode
  exact ⟨(left', right'), operands_node type left' right'⟩

omit [DecidableEq ν] in
theorem operands_of_operand {expr : Expr ν} (isOperand : spine type expr = .operand) :
    operands type expr = none := by
  cases isNode : operands type expr with
  | none => rfl
  | some pair =>
    rw [eq_node_of_operands isNode, spine_node] at isOperand
    cases isOperand

theorem square_succ (bound : ℕ) : (bound + 1) * (bound + 1) = bound * bound + 2 * bound + 1 := by
  rw [Nat.add_mul, Nat.mul_add]
  omega

omit [DecidableEq ν] in
/-- A walk over a whole expression. -/
theorem Walks.whole {recursive : Visit ν} {fuel bound : ℕ} (walks : Walks table recursive fuel)
    (within : size root ≤ bound) (enough : (bound + 1) * (bound + 1) ≤ fuel) (type : Conn)
    (count : ℕ) :
    ∃ state', recursive type (root, count) [] [] = some state' ∧
      Improved table type (root, count) state' := by
  have spineLe := spine_size_le type root
  have square := square_succ bound
  exact walks within (sub_nil _) (sub_nil _) (by omega)

omit [DecidableEq ν] in
theorem visitOperands_spec {recursive : Visit ν} {fuel bound : ℕ}
    (improves : Improves table returns visit) (walks : Walks table recursive fuel) (count : ℕ)
    (within : size root ≤ bound) (enough : bound * bound ≤ fuel)
    (isOperand : (spine type root).sub place = some .operand)
    (isPart : (spine type root).sub other = some part) (isEnd : returns = true → part = .operand) :
    ∃ state', visitOperands recursive visit type (root, count) place other = some state' ∧
      Improved table type (root, count) state' := by
  rw [visitOperands]
  by_cases different : place = other
  · rw [if_pos different]
    exact ⟨_, rfl, Improved.refl table type _⟩
  · rw [if_neg different]
    obtain ⟨e1, found, operand⟩ := exists_subExpr isOperand
    have notTop := ne_nil_of_ne isOperand isPart different
    have smaller := size_subExpr_lt found notTop
    rw [found]
    simp only [Option.bind_eq_bind, Option.bind_some]
    cases e1 with
    | node inner left right =>
      obtain ⟨bound, rfl⟩ := Nat.exists_eq_add_one.mpr (show 0 < bound by omega)
      obtain ⟨⟨e1, count'⟩, walked, improved⟩ :=
        walks.whole (show size (.node inner left right) ≤ bound by omega) enough inner count
      have step := improved.put isOperand notTop found operand
      have spineEq : spine type (put root place e1) = spine type root := step.spine_eq
      rw [← spineEq] at isOperand isPart
      obtain ⟨state', visited, improved'⟩ := improves isOperand isPart isEnd different
      simp only [walked, Option.bind_some]
      exact ⟨state', visited, step.trans improved'⟩
    | _ => exact improves isOperand isPart isEnd different

omit [DecidableEq ν] in
/-- Two walks, one after the other. -/
theorem Walks.both {recursive : Visit ν} {fuel bound : ℕ} {place' other' : Place}
    {part₁ part₁' : Spine} (walks : Walks table recursive fuel) (count : ℕ)
    (within : size root ≤ bound) (isPart : (spine type root).sub place = some part)
    (isPart' : (spine type root).sub other = some part')
    (isPart₁ : (spine type root).sub place' = some part₁)
    (isPart₁' : (spine type root).sub other' = some part₁')
    (enough : part.size + part'.size + 1 + bound * bound ≤ fuel)
    (enough₁ : part₁.size + part₁'.size + 1 + bound * bound ≤ fuel) :
    ∃ root' count', (recursive type (root, count) place other >>= fun state =>
        recursive type state place' other') = some (root', count') ∧
      Improved table type (root, count) (root', count') := by
  obtain ⟨⟨root₁, count₁⟩, walked, improved⟩ :=
    @walks type root count _ _ _ _ _ within isPart isPart' enough
  have spineEq : spine type root₁ = spine type root := improved.spine_eq
  rw [← spineEq] at isPart₁ isPart₁'
  obtain ⟨⟨root', count'⟩, walked', improved'⟩ :=
    @walks type root₁ count₁ _ _ _ _ _ (improved.size_le.trans within) isPart₁ isPart₁' enough₁
  refine ⟨root', count', ?_, improved.trans improved'⟩
  rw [walked]
  exact walked'

omit [DecidableEq ν] in
theorem walk_spec (improves : Improves table returns visit) (fuel : ℕ) :
    Walks table (walk returns visit fuel) fuel := by
  induction fuel with
  | zero =>
    intro type root count place other part part' bound within isPart isPart' enough
    omega
  | succ fuel walks =>
    intro type root count place other part part' bound within isPart isPart' enough
    obtain ⟨e1, found, isSpine⟩ := exists_subExpr isPart
    obtain ⟨e2, found', isSpine'⟩ := exists_subExpr isPart'
    rw [walk, found, found']
    cases part with
    | node left right =>
      obtain ⟨pair, isNode⟩ := operands_of_spine isSpine
      obtain ⟨isLeft, isRight⟩ := sub_append isPart
      simp only [Spine.size] at enough
      obtain ⟨root', count', walked, improved⟩ := walks.both count within isLeft isPart'
        isRight isPart' (by omega) (by omega)
      simp only [Option.bind_eq_bind, Option.bind_some, isNode]
      exact ⟨_, walked, improved⟩
    | operand =>
      simp only [Option.bind_eq_bind, Option.bind_some, operands_of_operand isSpine]
      cases part' with
      | node left right =>
        obtain ⟨pair, isNode⟩ := operands_of_spine isSpine'
        obtain ⟨isLeft, isRight⟩ := sub_append isPart'
        simp only [Spine.size] at enough
        obtain ⟨root', count', walked, improved⟩ := walks.both count within isPart isLeft
          isPart isRight (by simp only [Spine.size]; omega) (by simp only [Spine.size]; omega)
        rw [Option.bind_eq_bind] at walked
        rw [isNode, ← Option.bind_assoc, walked]
        cases returns with
        | true => exact ⟨_, rfl, improved⟩
        | false =>
          have spineEq : spine type root' = spine type root := improved.spine_eq
          rw [← spineEq] at isPart isPart'
          obtain ⟨state', visited, improved'⟩ := visitOperands_spec improves walks count'
            (improved.size_le.trans within) (by omega) isPart isPart'
            fun isTrue => absurd isTrue Bool.false_ne_true
          exact ⟨state', visited, improved.trans improved'⟩
      | operand =>
        rw [operands_of_operand isSpine']
        exact visitOperands_spec improves walks count within (by omega) isPart isPart' fun _ => rfl

/-! ### The rounds -/

/-- A round keeps what is not `m`, and ends with the expression that it began with, or with one that
can be made smaller. -/
theorem eliminateRound_spec (table : Table ν) (expr : Expr ν) :
    ∃ expr' count, eliminateRound table expr = some (expr', count) ∧ size expr' ≤ size expr ∧
      (∀ values : Values table, Keeps (calcValue values expr) (calcValue values expr')) ∧
      ((expr', count) = (expr, 0) ∨ 0 < count ∧ Reducible expr') := by
  cases expr with
  | node type left right =>
    have joins := walk_spec (visitJoin_spec table) (walkFuel (.node type left right))
    obtain ⟨⟨expr₁, count₁⟩, walked, improved⟩ :=
      Walks.whole joins (le_refl (size (.node type left right))) le_rfl type 0
    have denies := walk_spec (visitDenied_spec table) (walkFuel expr₁)
    obtain ⟨⟨expr₂, count₂⟩, walked', improved'⟩ :=
      Walks.whole denies (le_refl (size expr₁)) le_rfl type count₁
    have both := improved.trans improved'
    refine ⟨expr₂, count₂, ?_, both.size_le, both.keeps, both.progress⟩
    rw [eliminateRound, walked]
    exact walked'
  | _ => exact ⟨_, 0, rfl, le_rfl, fun _ => Keeps.refl _, Or.inl rfl⟩

theorem eliminateRounds_spec (table : Table ν) (fuel : ℕ) (expr : Expr ν)
    (enough : size expr < fuel) :
    ∃ result, eliminateRounds table fuel expr = some result ∧
      eliminateRound table result = some (result, 0) ∧ size result ≤ size expr ∧
      ∀ values : Values table, Keeps (calcValue values expr) (calcValue values result) := by
  induction fuel generalizing expr with
  | zero => exact absurd enough (Nat.not_lt_zero _)
  | succ fuel inductionHypothesis =>
    obtain ⟨expr', count, round, sizeLe, keeps, progress⟩ := eliminateRound_spec table expr
    rw [eliminateRounds, round]
    simp only [Option.bind_eq_bind, Option.bind_some]
    rcases progress with same | ⟨counted, reducible⟩
    · cases same
      exact ⟨expr, rfl, round, le_rfl, fun _ => Keeps.refl _⟩
    · have smaller := size_eliminateYn_lt reducible
      obtain ⟨result, ends, last, sizeLe', keeps'⟩ :=
        inductionHypothesis (eliminateYn expr') (by omega)
      refine ⟨result, ?_, last, by omega, fun values => (keeps values).trans ?_⟩
      · rw [if_neg counted.ne']
        exact ends
      · rw [← calcValue_eliminateYn values expr']
        exact keeps' values

/-- `expr_eliminate_dups` ends, with an expression that another one leaves as it is and that is not
larger. An expression that is `y` or `n` in a configuration is so afterwards. -/
theorem eliminateDups_keeps (table : Table ν) (expr : Expr ν) :
    ∃ result, eliminateDups table expr = some result ∧
      eliminateDups table result = some result ∧ size result ≤ size expr ∧
      ∀ values : Values table, calcValue values expr ≠ .mod →
        calcValue values result = calcValue values expr := by
  obtain ⟨result, ends, last, sizeLe, keeps⟩ :=
    eliminateRounds_spec table (size expr + 1) expr (Nat.lt_succ_self _)
  refine ⟨result, ends, ?_, sizeLe, keeps⟩
  rw [eliminateDups, eliminateRounds, last]
  rfl

/-- `(FOO || BAR) && (!FOO && !BAR)` becomes `n`, although it is `m` when both symbols are. -/
example : eliminateDups fooBar (.node .and
    (.node .or (.symbol (.entry false)) (.symbol (.entry true)))
    (.node .and (.not (.symbol (.entry false))) (.not (.symbol (.entry true))))) =
      some (.symbol .no) := by
  decide

end Buildroot4G.Kconf
