/-
This file has the rules for acyclic relations with finitely many sources: such a
relation is well-founded in both directions, and dropping edges that another successor
covers does not change what it reaches. It also counts the edges of a path.
-/

import Mathlib.Data.Set.Card
import Mathlib.Logic.Relation
import Mathlib.Order.WellFounded

namespace Digraph

open Relation

variable {α : Type}

/-- The elements an edge starts at. -/
def sources (edge : α → α → Prop) : Set α := {a | ∃ b, edge a b}

/-- No path leads back to its start. -/
def Acyclic (edge : α → α → Prop) : Prop := ∀ a, ¬TransGen edge a a

section Acyclic

variable {edge : α → α → Prop}

theorem source_of_path {a b : α} (path : TransGen edge a b) : a ∈ sources edge := by
  obtain ⟨next, first, _⟩ := TransGen.head'_iff.mp path
  exact ⟨next, first⟩

/-- A relation with fewer edges is acyclic, too. -/
theorem Acyclic.mono {fewer : α → α → Prop} (acyclic : Acyclic edge)
    (sub : ∀ a b, fewer a b → edge a b) : Acyclic fewer :=
  fun a cycle => acyclic a (TransGen.mono sub a a cycle)

/-- A relation along which a rank decreases is acyclic. -/
theorem acyclic_of_rank {rank : α → ℕ} (decreases : ∀ a b, edge a b → rank b < rank a) :
    Acyclic edge := by
  have along : ∀ a b, TransGen edge a b → rank b < rank a := by
    intro a b path
    induction path with
    | single first => exact decreases _ _ first
    | tail _ last inductionHypothesis => exact (decreases _ _ last).trans inductionHypothesis
  exact fun a cycle => Nat.lt_irrefl _ (along a a cycle)

/-- The sources a path from `a` meets, `a` included. -/
def below (edge : α → α → Prop) (a : α) : Set α := {b ∈ sources edge | ReflTransGen edge a b}

/-- The sources of paths to `a`. -/
def above (edge : α → α → Prop) (a : α) : Set α := {b | TransGen edge b a}

theorem below_subset_sources (edge : α → α → Prop) (a : α) : below edge a ⊆ sources edge :=
  fun _ member => member.1

theorem above_subset_sources (edge : α → α → Prop) (a : α) : above edge a ⊆ sources edge :=
  fun _ path => source_of_path path

/-- The number of sources below decreases along a path. -/
theorem ncard_below_lt (acyclic : Acyclic edge) (finite : (sources edge).Finite) {a b : α}
    (path : TransGen edge a b) : (below edge b).ncard < (below edge a).ncard := by
  refine Set.ncard_lt_ncard ⟨?_, ?_⟩ (finite.subset (below_subset_sources edge a))
  · exact fun c ⟨isSource, later⟩ => ⟨isSource, path.to_reflTransGen.trans later⟩
  · intro included
    obtain ⟨_, back⟩ := included ⟨source_of_path path, ReflTransGen.refl⟩
    exact acyclic a (path.trans_left back)

/-- The number of sources above increases along a path. -/
theorem ncard_above_lt (acyclic : Acyclic edge) (finite : (sources edge).Finite) {a b : α}
    (path : TransGen edge a b) : (above edge a).ncard < (above edge b).ncard := by
  refine Set.ncard_lt_ncard ⟨?_, ?_⟩ (finite.subset (above_subset_sources edge b))
  · exact fun c earlier => TransGen.trans earlier path
  · exact fun included => acyclic a (included path)

/-- Induction along an acyclic relation, from its ends. -/
theorem Acyclic.induction_below (acyclic : Acyclic edge) (finite : (sources edge).Finite)
    {motive : α → Prop} (step : ∀ a, (∀ b, TransGen edge a b → motive b) → motive a) (a : α) :
    motive a := by
  induction size : (below edge a).ncard using Nat.strong_induction_on generalizing a with
  | _ bound inductionHypothesis =>
    subst size
    exact step a fun b path =>
      inductionHypothesis _ (ncard_below_lt acyclic finite path) b rfl

/-- Induction along an acyclic relation, from its starts. -/
theorem Acyclic.induction_above (acyclic : Acyclic edge) (finite : (sources edge).Finite)
    {motive : α → Prop} (step : ∀ a, (∀ b, TransGen edge b a → motive b) → motive a) (a : α) :
    motive a := by
  induction size : (above edge a).ncard using Nat.strong_induction_on generalizing a with
  | _ bound inductionHypothesis =>
    subst size
    exact step a fun b path =>
      inductionHypothesis _ (ncard_above_lt acyclic finite path) b rfl

/-! ### Dropping edges -/

variable {fewer : α → α → Prop}

/-- Of the successors that lead to `b` one keeps its edge. -/
theorem exists_kept (acyclic : Acyclic edge) (finite : (sources edge).Finite)
    (covered : ∀ a b, edge a b → ¬fewer a b → ∃ c, edge a c ∧ TransGen edge c b) {a b : α}
    (first : edge a b) : ∃ c, fewer a c ∧ ReflTransGen edge c b := by
  induction b using acyclic.induction_above finite with
  | step b inductionHypothesis =>
    by_cases kept : fewer a b
    · exact ⟨b, kept, ReflTransGen.refl⟩
    · obtain ⟨c, edgeC, path⟩ := covered a b first kept
      obtain ⟨d, keptD, pathD⟩ := inductionHypothesis c path edgeC
      exact ⟨d, keptD, pathD.trans path.to_reflTransGen⟩

/-- Dropping edges that lead to what another successor reaches keeps what is reached. -/
theorem transGen_iff_of_covered (acyclic : Acyclic edge) (finite : (sources edge).Finite)
    (sub : ∀ a b, fewer a b → edge a b)
    (covered : ∀ a b, edge a b → ¬fewer a b → ∃ c, edge a c ∧ TransGen edge c b) (a b : α) :
    TransGen fewer a b ↔ TransGen edge a b := by
  refine ⟨TransGen.mono sub a b, ?_⟩
  induction a using acyclic.induction_below finite with
  | step a inductionHypothesis =>
    intro path
    obtain ⟨next, first, rest⟩ := TransGen.head'_iff.mp path
    obtain ⟨c, kept, toNext⟩ := exists_kept acyclic finite covered first
    rcases reflTransGen_iff_eq_or_transGen.mp (toNext.trans rest) with rfl | later
    · exact TransGen.single kept
    · exact TransGen.head kept (inductionHypothesis c (TransGen.single (sub a c kept)) later)

end Acyclic

/-! ### Paths of a length -/

/-- A path with a number of edges. -/
inductive Steps (edge : α → α → Prop) : ℕ → α → α → Prop
  | refl (a : α) : Steps edge 0 a a
  | head {n : ℕ} {a b c : α} (first : edge a b) (rest : Steps edge n b c) :
    Steps edge (n + 1) a c

section Steps

variable {edge : α → α → Prop} {n : ℕ} {a b c : α}

theorem Steps.tail (path : Steps edge n a b) (last : edge b c) : Steps edge (n + 1) a c := by
  induction path with
  | refl a => exact .head last (.refl c)
  | head first _ inductionHypothesis => exact .head first (inductionHypothesis last)

theorem Steps.reflTransGen (path : Steps edge n a b) : ReflTransGen edge a b := by
  induction path with
  | refl a => exact ReflTransGen.refl
  | head first _ inductionHypothesis => exact ReflTransGen.head first inductionHypothesis

/-- A rank that decreases along edges decreases along a path with each of them. -/
theorem Steps.rank_le {rank : α → ℕ} (decreases : ∀ a b, edge a b → rank b < rank a)
    (path : Steps edge n a b) : rank b + n ≤ rank a := by
  induction path with
  | refl a => exact Nat.le_refl _
  | @head n a b c first _ inductionHypothesis =>
    have := decreases a b first
    omega

/-- A path is one of another relation that has the edges it may meet. -/
theorem Steps.of_edges {other : α → α → Prop} (path : Steps edge n a b)
    (has : ∀ c d, ReflTransGen edge a c → edge c d → other c d) : Steps other n a b := by
  induction path with
  | refl a => exact .refl a
  | head first _ inductionHypothesis =>
    exact .head (has _ _ ReflTransGen.refl first) (inductionHypothesis fun c d path =>
      has c d (ReflTransGen.head first path))

end Steps

end Digraph
