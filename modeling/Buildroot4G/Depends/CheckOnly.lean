/-
This file puts the parts of `support/scripts/graph-depends` together, as the script runs when it
only checks the dependencies of a package: it asks for what the package leads to, makes a
dictionary of the edges and looks for a cycle. The script fails exactly when a package that
the package leads to depends on itself.
-/

import Buildroot4G.Depends.Circular
import Buildroot4G.Depends.Closure

namespace Buildroot4G.Depends

open Relation Shell

/-- The script for a package and `--check-only`. -/
def checkOnly (run : Run) (order : List Package → List Package) (limit : ℕ) (rootpkg : Package) :
    Except Stop Unit := do
  let (dependencies, _) ← getAllDepends run order limit [rootpkg] ⟨[], []⟩
  checkCircularDeps limit (dictDeps dependencies)

variable {config : Configuration}

/-- What a package of the configuration leads to is in the configuration. -/
theorem mem_packages_of_path {root pkg : Package} (known : root ∈ config.packages)
    (path : ReflTransGen config.Needs root pkg) : pkg ∈ config.packages := by
  induction path with
  | refl => exact known
  | tail _ edge inductionHypothesis => exact config.closed _ inductionHypothesis _ edge

/-- A cycle of the edges that lead on from a root is a cycle that the root leads to. -/
theorem cycle_iff {root : Package} :
    (∃ pkg, TransGen (fun pkg dep => ReflTransGen config.Needs root pkg ∧ config.Needs pkg dep)
      pkg pkg) ↔
      ∃ pkg, ReflTransGen config.Needs root pkg ∧ TransGen config.Needs pkg pkg := by
  constructor
  · rintro ⟨pkg, cycle⟩
    obtain ⟨_, edge, _⟩ := TransGen.head'_iff.mp cycle
    exact ⟨pkg, edge.1, TransGen.mono (fun _ _ edge => edge.2) pkg pkg cycle⟩
  · rintro ⟨pkg, reached, cycle⟩
    have lifted : ∀ dep, TransGen config.Needs pkg dep →
        TransGen (fun pkg dep => ReflTransGen config.Needs root pkg ∧ config.Needs pkg dep)
          pkg dep := by
      intro dep path
      induction path with
      | single edge => exact TransGen.single ⟨reached, edge⟩
      | tail path edge inductionHypothesis =>
        exact inductionHypothesis.tail ⟨reached.trans path.to_reflTransGen, edge⟩
    exact ⟨pkg, lifted pkg cycle⟩

/-- The check fails exactly when the package leads to one that depends on itself, and returns
otherwise. -/
theorem checkOnly_fails_iff {run : Run} (shows : Shows config run)
    {order : List Package → List Package} (lists : Lists order) {limit : ℕ} {rootpkg : Package}
    (known : rootpkg ∈ config.packages) (above : config.packages.length < limit) :
    ((∃ stderr, checkOnly run order limit rootpkg = .error (.exit 1 stderr)) ↔
        ∃ pkg, ReflTransGen config.Needs rootpkg pkg ∧ TransGen config.Needs pkg pkg) ∧
      (checkOnly run order limit rootpkg = .ok () ↔
        ¬∃ pkg, ReflTransGen config.Needs rootpkg pkg ∧ TransGen config.Needs pkg pkg) := by
  have deep : config.unknown [] < limit :=
    Nat.lt_of_le_of_lt (List.length_filter_le _ _) above
  obtain ⟨dependencies, after, new, returns, closes⟩ :=
    @getAllDepends_closes config run shows order lists limit [rootpkg]
      (List.forall_mem_singleton.mpr known) ⟨[], []⟩ List.nodup_nil deep
  have edges : Edge (dictDeps dependencies) =
      fun pkg dep => ReflTransGen config.Needs rootpkg pkg ∧ config.Needs pkg dep := by
    funext pkg dep
    rw [eq_iff_iff, edge_dictDeps, closes.mem_dependencies]
    simp only [List.mem_singleton, exists_eq_left]
  have keys : (dictDeps dependencies).keys.length < limit := by
    refine Nat.lt_of_le_of_lt (List.subperm_of_subset (AList.nodupKeys _) ?_).length_le above
    intro pkg key
    obtain ⟨dep, edge⟩ := exists_edge_of_mem_keys key
    obtain ⟨⟨root, isRoot, path⟩, -⟩ := (closes.mem_dependencies pkg dep).mp edge
    rw [List.mem_singleton.mp isRoot] at path
    exact mem_packages_of_path known path
  have whole : checkOnly run order limit rootpkg =
      checkCircularDeps limit (dictDeps dependencies) := by
    rw [checkOnly, returns]
    rfl
  have outcome := checkCircularDeps_meets (dictDeps dependencies) limit
  rw [whole, ← cycle_iff, ← edges]
  cases result : checkCircularDeps limit (dictDeps dependencies) with
  | ok =>
    rw [result] at outcome
    have acyclic : ¬∃ pkg, TransGen (Edge (dictDeps dependencies)) pkg pkg :=
      fun ⟨pkg, cycle⟩ => outcome pkg cycle
    exact ⟨iff_of_false nofun acyclic, iff_of_true rfl acyclic⟩
  | error stop =>
    rw [result] at outcome
    rcases outcome with ⟨⟨stderr, rfl⟩, cycle⟩ | ⟨_, short⟩
    · exact ⟨iff_of_true ⟨stderr, rfl⟩ cycle, iff_of_false nofun (not_not_intro cycle)⟩
    · exact absurd keys (Nat.not_lt.mpr short)

/-- Two packages need each other. -/
theorem checkOnly_fails_iff_mutual :
    ((∃ stderr, checkOnly (makeOf mutualConfiguration) id 4 "a".toList = .error (.exit 1 stderr)) ↔
        ∃ pkg, ReflTransGen mutualConfiguration.Needs "a".toList pkg ∧
          TransGen mutualConfiguration.Needs pkg pkg) ∧
      (checkOnly (makeOf mutualConfiguration) id 4 "a".toList = .ok () ↔
        ¬∃ pkg, ReflTransGen mutualConfiguration.Needs "a".toList pkg ∧
          TransGen mutualConfiguration.Needs pkg pkg) :=
  checkOnly_fails_iff (shows_makeOf mutualConfiguration) (fun _ _ => Iff.rfl) (by decide)
    (by decide)

end Buildroot4G.Depends
