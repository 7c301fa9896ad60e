/-
This file has the data of `support/scripts/graph-depends`: the dictionary of
dependencies, the graph it stands for and the ways the script stops.

A dictionary is an association list whose keys are unique. The order in which the
script goes through the keys is the order of its entries, so that a statement about
all dictionaries is one about all orders.
-/

import Buildroot4G.Dict
import Buildroot4G.Digraph
import Buildroot4G.Shell.Text

namespace Buildroot4G.Depends

open Relation Shell

/-- The name of a package. -/
abbrev Package := Text

/-- The dictionary of dependencies: the packages each package depends on. -/
abbrev Deps := Dict Package (List Package)

/-- `dep` is listed for `pkg`. -/
def Edge (deps : Deps) (pkg dep : Package) : Prop :=
  ∃ list, deps.lookup pkg = some list ∧ dep ∈ list

/-- How the script stops: by `sys.exit`, by an exception it does not catch, or because a
recursion reaches its limit. -/
inductive Stop where
  | exit (status : Nat) (stderr : Text)
  | indexError
  | keyError
  | tooDeep
  deriving DecidableEq, Repr

theorem mem_keys_of_edge {deps : Deps} {pkg dep : Package} (edge : Edge deps pkg dep) :
    pkg ∈ deps.keys := by
  obtain ⟨list, found, _⟩ := edge
  exact AList.mem_keys.mp (AList.lookup_isSome.mp (Option.isSome_of_mem found))

theorem mem_keys_of_path {deps : Deps} {pkg dep : Package}
    (path : TransGen (Edge deps) pkg dep) : pkg ∈ deps.keys := by
  obtain ⟨_, edge⟩ := Digraph.source_of_path path
  exact mem_keys_of_edge edge

theorem mem_keys_of_lookup {deps : Deps} {pkg : Package} {list : List Package}
    (found : deps.lookup pkg = some list) : pkg ∈ deps.keys :=
  AList.mem_keys.mp (AList.lookup_isSome.mp (Option.isSome_of_mem found))

theorem not_mem_keys_of_lookup {deps : Deps} {pkg : Package} (missing : deps.lookup pkg = none) :
    pkg ∉ deps.keys :=
  fun member => AList.lookup_eq_none.mp missing (AList.mem_keys.mpr member)

theorem edge_iff_of_lookup {deps : Deps} {pkg dep : Package} {list : List Package}
    (found : deps.lookup pkg = some list) : Edge deps pkg dep ↔ dep ∈ list :=
  ⟨fun ⟨_, same, member⟩ => Option.some.inj (found.symm.trans same) ▸ member,
    fun member => ⟨list, found, member⟩⟩

/-- A key the script comes to is not one it has seen, and has a list. -/
theorem next_key {deps : Deps} {seen rest : List Package} {pkg : Package}
    (whole : deps.keys = seen ++ pkg :: rest) :
    pkg ∉ seen ∧ ∃ list, deps.lookup pkg = some list := by
  have unique : (seen ++ pkg :: rest).Nodup := whole ▸ AList.keys_nodup deps
  refine ⟨fun member => List.disjoint_of_nodup_append unique member List.mem_cons_self, ?_⟩
  refine Option.isSome_iff_exists.mp (AList.lookup_isSome.mpr (AList.mem_keys.mpr ?_))
  rw [whole]
  exact List.mem_append_right _ List.mem_cons_self

/-- A rank that decreases along the entries of the dictionary decreases along its edges. -/
theorem rank_lt_of_edge {deps : Deps} (rank : Package → ℕ)
    (decreases : ∀ entry ∈ deps.entries, ∀ dep ∈ entry.2, rank dep < rank entry.1) :
    ∀ pkg dep, Edge deps pkg dep → rank dep < rank pkg := by
  rintro pkg dep ⟨list, found, member⟩
  exact decreases ⟨pkg, list⟩ (List.of_mem_dlookup (Option.mem_def.mpr found)) dep member

/-- Dependencies along which a rank decreases are acyclic. -/
theorem acyclic_of_entries {deps : Deps} (rank : Package → ℕ)
    (decreases : ∀ entry ∈ deps.entries, ∀ dep ∈ entry.2, rank dep < rank entry.1) :
    Digraph.Acyclic (Edge deps) :=
  Digraph.acyclic_of_rank (rank_lt_of_edge rank decreases)

/-! ### The sources of the graph -/

theorem sources_subset_keys (deps : Deps) :
    Digraph.sources (Edge deps) ⊆ {pkg | pkg ∈ deps.keys} :=
  fun _ ⟨_, edge⟩ => mem_keys_of_edge edge

theorem finite_sources (deps : Deps) : (Digraph.sources (Edge deps)).Finite :=
  (List.finite_toSet deps.keys).subset (sources_subset_keys deps)

/-- Below a package there are at most as many packages as there are keys. -/
theorem ncard_below_le (deps : Deps) (pkg : Package) :
    (Digraph.below (Edge deps) pkg).ncard ≤ deps.keys.length := by
  have included : Digraph.below (Edge deps) pkg ⊆ (deps.keys.toFinset : Set Package) := by
    intro other member
    rw [List.coe_toFinset]
    exact sources_subset_keys deps (Digraph.below_subset_sources _ _ member)
  calc (Digraph.below (Edge deps) pkg).ncard
      ≤ (deps.keys.toFinset : Set Package).ncard := Set.ncard_le_ncard included
    _ = deps.keys.toFinset.card := Set.ncard_coe_finset _
    _ ≤ deps.keys.length := List.toFinset_card_le _

/-! ### The order of the lists -/

/-- Two dictionaries that list the same dependencies for the same packages, in any order. -/
def SameUpToOrder (first second : Deps) : Prop :=
  ∀ pkg, Option.Rel List.Perm (first.lookup pkg) (second.lookup pkg)

theorem SameUpToOrder.lookup {first second : Deps} (same : SameUpToOrder first second)
    (pkg : Package) :
    first.lookup pkg = none ∧ second.lookup pkg = none ∨
      ∃ list list', first.lookup pkg = some list ∧ second.lookup pkg = some list' ∧
        list.Perm list' := by
  have here := same pkg
  generalize first.lookup pkg = found at here ⊢
  generalize second.lookup pkg = found' at here ⊢
  cases here with
  | none => exact Or.inl ⟨rfl, rfl⟩
  | some perm => exact Or.inr ⟨_, _, rfl, rfl, perm⟩

theorem SameUpToOrder.exists_perm {first second : Deps} (same : SameUpToOrder first second)
    {pkg : Package} {list : List Package} (found : first.lookup pkg = some list) :
    ∃ list', second.lookup pkg = some list' ∧ list.Perm list' := by
  obtain ⟨missing, _⟩ | ⟨old, list', foundOld, found', perm⟩ := same.lookup pkg
  · cases found.symm.trans missing
  · obtain rfl := Option.some.inj (found.symm.trans foundOld)
    exact ⟨list', found', perm⟩

/-- The same dependencies give the same edges. -/
theorem SameUpToOrder.edge {first second : Deps} (same : SameUpToOrder first second) :
    Edge first = Edge second := by
  funext pkg dep
  rcases same.lookup pkg with ⟨none, none'⟩ | ⟨list, list', found, found', perm⟩
  · rw [Edge, Edge, none, none']
  · exact propext ((edge_iff_of_lookup found).trans
      (perm.mem_iff.trans (edge_iff_of_lookup found').symm))

/-- The same packages are as many. -/
theorem SameUpToOrder.length_keys {first second : Deps} (same : SameUpToOrder first second) :
    first.keys.length = second.keys.length := by
  have keys : first.keys.Perm second.keys := by
    refine (List.perm_ext_iff_of_nodup (AList.keys_nodup first) (AList.keys_nodup second)).mpr ?_
    intro pkg
    rw [← AList.mem_keys, ← AList.mem_keys, ← AList.lookup_isSome, ← AList.lookup_isSome]
    rcases same.lookup pkg with ⟨none, none'⟩ | ⟨list, list', found, found', _⟩
    · rw [none, none']
    · rw [found, found']
      exact iff_of_true rfl rfl
  exact keys.length_eq

/-! ### Replacing a list -/

/-- What a dictionary has once the list of a package is replaced. -/
theorem lookup_replace {deps : Deps} {pkg : Package} {list : List Package}
    (found : deps.lookup pkg = some list) (new : List Package) (other : Package) :
    (deps.replace pkg new).lookup other =
      if other = pkg then some new else deps.lookup other :=
  Dict.lookup_replace (AList.mem_keys.mpr (mem_keys_of_lookup found)) new other

theorem keys_replace (deps : Deps) (pkg : Package) (new : List Package) :
    (deps.replace pkg new).keys = deps.keys :=
  AList.keys_replace pkg new deps

theorem SameUpToOrder.refl (deps : Deps) : SameUpToOrder deps deps := by
  intro pkg
  cases deps.lookup pkg with
  | none => exact .none
  | some list => exact .some (List.Perm.refl list)

/-- A list is put in another order. -/
theorem SameUpToOrder.replace {first second : Deps} (same : SameUpToOrder first second)
    {pkg : Package} {list new : List Package} (found : second.lookup pkg = some list)
    (perm : new.Perm list) : SameUpToOrder first (second.replace pkg new) := by
  intro other
  rw [lookup_replace found]
  by_cases equal : other = pkg
  · obtain ⟨missing, missing'⟩ | ⟨old, old', foundOld, foundOld', permOld⟩ := same.lookup other
    · rw [equal, found] at missing'
      cases missing'
    · rw [if_pos equal, foundOld]
      rw [equal, found] at foundOld'
      obtain rfl := Option.some.inj foundOld'
      exact .some (permOld.trans perm.symm)
  · rw [if_neg equal]
    exact same other

/-! ### The dictionary of a list of edges -/

/-- The body of the loop that makes a dictionary of the edges. -/
def addDep (dict : Deps) (dep : Package × Package) : Deps :=
  let dict := if dep.1 ∈ dict then dict else dict.set dep.1 []
  match dict.lookup dep.1 with
  | none => dict
  | some list => dict.replace dep.1 (list ++ [dep.2])

/-- `dict_deps`. -/
def dictDeps (dependencies : List (Package × Package)) : Deps := dependencies.foldl addDep ∅

theorem edge_addDep (dict : Deps) (dep : Package × Package) (pkg other : Package) :
    Edge (addDep dict dep) pkg other ↔ Edge dict pkg other ∨ (pkg, other) = dep := by
  obtain ⟨source, target⟩ := dep
  have entered : ∃ list, (if source ∈ dict then dict else dict.set source []).lookup source =
      some list ∧ ∀ pkg other,
        Edge (if source ∈ dict then dict else dict.set source []) pkg other ↔
          Edge dict pkg other := by
    by_cases known : source ∈ dict
    · obtain ⟨list, found⟩ := Option.isSome_iff_exists.mp (AList.lookup_isSome.mpr known)
      rw [if_pos known]
      exact ⟨list, found, fun _ _ => Iff.rfl⟩
    · rw [if_neg known]
      refine ⟨[], dict.lookup_set_self source [], fun pkg other => ?_⟩
      by_cases same : pkg = source
      · rw [same, edge_iff_of_lookup (dict.lookup_set_self source [])]
        exact iff_of_false List.not_mem_nil fun edge =>
          known (AList.mem_keys.mpr (mem_keys_of_edge edge))
      · rw [Edge, Edge, Dict.lookup_set_of_ne dict [] same]
  obtain ⟨list, found, edges⟩ := entered
  rw [addDep]
  simp only [found]
  rw [← edges]
  by_cases same : pkg = source
  · rw [same, edge_iff_of_lookup found, edge_iff_of_lookup
      ((lookup_replace found _ source).trans (if_pos rfl)), List.mem_append, List.mem_singleton,
      Prod.mk.injEq, and_iff_right rfl]
  · rw [Edge, Edge, lookup_replace found, if_neg same, Prod.mk.injEq]
    exact (or_iff_left fun both => same both.1).symm

/-- The dictionary has the edges of the list. -/
theorem edge_dictDeps (dependencies : List (Package × Package)) (pkg dep : Package) :
    Edge (dictDeps dependencies) pkg dep ↔ (pkg, dep) ∈ dependencies := by
  have general : ∀ (rest : List (Package × Package)) dict,
      Edge (rest.foldl addDep dict) pkg dep ↔ Edge dict pkg dep ∨ (pkg, dep) ∈ rest := by
    intro rest
    induction rest with
    | nil => exact fun dict => (or_iff_left List.not_mem_nil).symm
    | cons head rest inductionHypothesis =>
      intro dict
      rw [List.foldl_cons, inductionHypothesis, edge_addDep, List.mem_cons, or_assoc]
  refine (general dependencies ∅).trans (or_iff_right ?_)
  rintro ⟨list, found, _⟩
  cases found

/-- The keys of the dictionary are the packages of the list that have dependencies. -/
theorem exists_edge_of_mem_keys {dependencies : List (Package × Package)} {pkg : Package}
    (key : pkg ∈ (dictDeps dependencies).keys) : ∃ dep, (pkg, dep) ∈ dependencies := by
  have general : ∀ (rest : List (Package × Package)) (dict : Deps),
      pkg ∈ (rest.foldl addDep dict).keys → pkg ∈ dict.keys ∨ ∃ dep, (pkg, dep) ∈ rest := by
    intro rest
    induction rest with
    | nil => exact fun dict => Or.inl
    | cons head rest inductionHypothesis =>
      intro dict member
      rcases inductionHypothesis (addDep dict head) member with inDict | ⟨dep, later⟩
      · have entered : ∀ new : Deps, pkg ∈ (if head.1 ∈ new then new
            else new.set head.1 []).keys → pkg = head.1 ∨ pkg ∈ new.keys := by
          intro new member
          split at member
          · exact Or.inr member
          · exact Dict.mem_keys_set.mp member
        have known : pkg = head.1 ∨ pkg ∈ dict.keys := by
          rw [addDep] at inDict
          split at inDict
          · exact entered dict inDict
          · rw [keys_replace] at inDict
            exact entered dict inDict
        rcases known with rfl | known
        · exact Or.inr ⟨head.2, List.mem_cons_self⟩
        · exact Or.inl known
      · exact Or.inr ⟨dep, List.mem_cons_of_mem head later⟩
  exact (general dependencies ∅ key).resolve_left List.not_mem_nil

end Buildroot4G.Depends
