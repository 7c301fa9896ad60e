/-
This file models the reduction of the graph in `support/scripts/graph-depends`: the
functions behind `remove_extra_deps`, which edit the dictionary in place while
`is_dep` answers from a cache that earlier questions filled. The main result is that
the reduction of an acyclic graph keeps what every package reaches, leaves no
dependency that another one covers, and does not depend on any order.
-/

import Buildroot4G.Depends.Deps
import Buildroot4G.Fold

namespace Buildroot4G.Depends

open Relation Shell

/-! ### `is_dep` -/

/-- `is_dep_cache`: whether the first package is known to be a dependency of the second. -/
abbrev Cache := Package → Package → Option Bool

/-- `is_dep_cache_insert`. -/
def isDepCacheInsert (pkg pkg2 : Package) (val : Bool) (cache : Cache) : Cache :=
  fun other other2 => if other = pkg ∧ other2 = pkg2 then some val else cache other other2

/-- The loop of `is_dep_uncached` over the dependencies of the second package. -/
def isDepLoop (isDep : Package → Cache → Except Stop (Bool × Cache)) (pkg : Package) :
    List Package → Cache → Except Stop (Bool × Cache)
  | [], cache => .ok (false, cache)
  | p :: rest, cache =>
    if pkg = p then .ok (true, cache)
    else do
      let (found, cache) ← isDep p cache
      if found then .ok (true, cache) else isDepLoop isDep pkg rest cache

/-- `is_dep_uncached`, where a package that is no key has no dependencies. -/
def isDepUncached (isDep : Package → Cache → Except Stop (Bool × Cache)) (deps : Deps)
    (pkg pkg2 : Package) (cache : Cache) : Except Stop (Bool × Cache) :=
  match deps.lookup pkg2 with
  | none => .ok (false, cache)
  | some list => isDepLoop isDep pkg list cache

/-- `is_dep`: whether `pkg` is a dependency of `pkg2`, direct or transitive. -/
def isDep (deps : Deps) (pkg : Package) : Nat → Package → Cache → Except Stop (Bool × Cache)
  | 0, _, _ => .error .tooDeep
  | limit + 1, pkg2, cache =>
    match cache pkg pkg2 with
    | some val => .ok (val, cache)
    | none => do
      let (val, cache) ← isDepUncached (isDep deps pkg limit) deps pkg pkg2 cache
      .ok (val, isDepCacheInsert pkg pkg2 val cache)

/-! ### `remove_extra_deps` -/

/-- The inner loop of `remove_transitive_deps`, which has no early exit. -/
def keepMe (limit : Nat) (deps : Deps) (d : List Package) (di : Package × Nat) (cache : Cache) :
    Except Stop (Bool × Cache) :=
  d.zipIdx.foldlM
    (fun (keep, cache) dj =>
      if dj.2 = di.2 then .ok (keep, cache)
      else do
        let (found, cache) ← isDep deps di.1 limit dj.1 cache
        .ok (if found then false else keep, cache))
    (true, cache)

/-- `remove_transitive_deps`. -/
def removeTransitiveDeps (limit : Nat) (pkg : Package) (deps : Deps) (cache : Cache) :
    Except Stop (List Package × Cache) :=
  match deps.lookup pkg with
  | none => .error .keyError
  | some d =>
    d.zipIdx.foldlM
      (fun (newD, cache) di => do
        let (keep, cache) ← keepMe limit deps d di cache
        .ok (if keep then newD ++ [di.1] else newD, cache))
      ([], cache)

/-- `remove_mandatory_deps`. -/
def removeMandatoryDeps (pkg : Package) (deps : Deps) : Except Stop (List Package) :=
  match deps.lookup pkg with
  | none => .error .keyError
  | some list => .ok (list.filter fun p => p ∉ ["toolchain".toList, "skeleton".toList])

/-- The first loop of `remove_extra_deps`. -/
def removeMandatory (deps : Deps) : Except Stop Deps :=
  deps.keys.foldlM
    (fun deps pkg =>
      if pkg ≠ "all".toList then do
        let list ← removeMandatoryDeps pkg deps
        .ok (deps.replace pkg list)
      else .ok deps)
    deps

/-- The second loop of `remove_extra_deps`. -/
def removeTransitive (limit : Nat) (transitive : Bool) (deps : Deps) :
    Except Stop (Deps × Cache) :=
  deps.keys.foldlM
    (fun (deps, cache) pkg =>
      if transitive = false ∨ pkg = "all".toList then do
        let (list, cache) ← removeTransitiveDeps limit pkg deps cache
        .ok (deps.replace pkg list, cache)
      else .ok (deps, cache))
    (deps, fun _ _ => none)

/-- `remove_extra_deps`. -/
def removeExtraDeps (limit : Nat) (transitive : Bool) (deps : Deps) : Except Stop Deps := do
  let deps ← removeMandatory deps
  let (deps, _) ← removeTransitive limit transitive deps
  .ok deps

/-! ### The answers of `is_dep` -/

/-- Every answer in the cache is right for the graph. -/
def Right (edge : Package → Package → Prop) (cache : Cache) : Prop :=
  ∀ pkg pkg2 val, cache pkg pkg2 = some val → (val = true ↔ TransGen edge pkg2 pkg)

/-- A right answer to whether `pkg` is a dependency of `pkg2`, and a cache that is right. -/
def Answers (edge : Package → Package → Prop) (pkg pkg2 : Package) (result : Bool × Cache) :
    Prop :=
  (result.1 = true ↔ TransGen edge pkg2 pkg) ∧ Right edge result.2

section Answers

variable {edge : Package → Package → Prop}

variable (edge) in
theorem right_none : Right edge fun _ _ => none := by
  rintro pkg pkg2 val ⟨⟩

theorem Right.insert {cache : Cache} (right : Right edge cache) {pkg pkg2 : Package} {val : Bool}
    (answer : val = true ↔ TransGen edge pkg2 pkg) :
    Right edge (isDepCacheInsert pkg pkg2 val cache) := by
  intro other other2 known found
  by_cases same : other = pkg ∧ other2 = pkg2
  · obtain ⟨rfl, rfl⟩ := same
    rw [isDepCacheInsert, if_pos ⟨rfl, rfl⟩] at found
    rw [← Option.some.inj found]
    exact answer
  · rw [isDepCacheInsert, if_neg same] at found
    exact right other other2 known found

/-- The loop answers whether one of the packages is the one asked for or leads to it. -/
theorem isDepLoop_meets {ask : Package → Cache → Except Stop (Bool × Cache)} {pkg : Package}
    {list : List Package} {cache : Cache} (right : Right edge cache)
    (asks : ∀ p ∈ list, ∀ cache, Right edge cache →
      Fold.Meets (Answers edge pkg p) (fun _ => False) (ask p cache)) :
    Fold.Meets (fun result => (result.1 = true ↔ ∃ p ∈ list, p = pkg ∨ TransGen edge p pkg) ∧
      Right edge result.2) (fun _ => False) (isDepLoop ask pkg list cache) := by
  induction list generalizing cache with
  | nil => exact ⟨by simp, right⟩
  | cons p rest inductionHypothesis =>
    rw [isDepLoop]
    by_cases same : pkg = p
    · rw [if_pos same]
      exact ⟨iff_of_true rfl ⟨p, List.mem_cons_self, Or.inl same.symm⟩, right⟩
    rw [if_neg same]
    refine (asks p List.mem_cons_self cache right).bind ?_
    rintro ⟨found, next⟩ ⟨answer, nextRight⟩
    change (found = true ↔ _) at answer
    cases found with
    | true => exact ⟨iff_of_true rfl ⟨p, List.mem_cons_self, Or.inr (answer.mp rfl)⟩, nextRight⟩
    | false =>
      have noPath : ¬TransGen edge p pkg := fun path => nomatch answer.mpr path
      refine (inductionHypothesis nextRight
        fun other member => asks other (List.mem_cons_of_mem p member)).mono ?_ fun _ fails => fails
      rintro ⟨later, last⟩ ⟨laterAnswer, lastRight⟩
      refine ⟨laterAnswer.trans ?_, lastRight⟩
      rw [List.exists_mem_cons_iff]
      exact (or_iff_right fun first => first.elim (fun equal => same equal.symm) noPath).symm

end Answers

/-- `is_dep` answers right on an acyclic graph, within a limit above the number of packages
below the second one. -/
theorem isDep_meets {deps : Deps} (acyclic : Digraph.Acyclic (Edge deps)) (pkg : Package)
    {limit : Nat} {pkg2 : Package} {cache : Cache} (right : Right (Edge deps) cache)
    (deep : (Digraph.below (Edge deps) pkg2).ncard < limit) :
    Fold.Meets (Answers (Edge deps) pkg pkg2) (fun _ => False)
      (isDep deps pkg limit pkg2 cache) := by
  induction limit generalizing pkg2 cache with
  | zero => exact absurd deep (Nat.not_lt_zero _)
  | succ limit inductionHypothesis =>
    rw [isDep]
    cases known : cache pkg pkg2 with
    | some val => exact ⟨right pkg pkg2 val known, right⟩
    | none =>
      have uncached : Fold.Meets (Answers (Edge deps) pkg pkg2) (fun _ => False)
          (isDepUncached (isDep deps pkg limit) deps pkg pkg2 cache) := by
        rw [isDepUncached]
        cases found : deps.lookup pkg2 with
        | none =>
          refine ⟨iff_of_false nofun fun path => ?_, right⟩
          exact not_mem_keys_of_lookup found (mem_keys_of_path path)
        | some list =>
          refine (isDepLoop_meets right fun p member cache cacheRight =>
            inductionHypothesis cacheRight ?_).mono ?_ fun _ fails => fails
          · have path : TransGen (Edge deps) pkg2 p :=
              TransGen.single ((edge_iff_of_lookup found).mpr member)
            exact Nat.lt_of_lt_of_le
              (Digraph.ncard_below_lt acyclic (finite_sources deps) path)
              (Nat.le_of_lt_succ deep)
          · rintro ⟨val, next⟩ ⟨answer, nextRight⟩
            refine ⟨answer.trans ?_, nextRight⟩
            rw [TransGen.head'_iff]
            refine exists_congr fun p => and_congr (edge_iff_of_lookup found).symm ?_
            rw [reflTransGen_iff_eq_or_transGen, eq_comm]
      refine uncached.bind ?_
      rintro ⟨val, next⟩ ⟨answer, nextRight⟩
      exact ⟨answer, nextRight.insert answer⟩

/-! ### The reduction of one package -/

open Classical in
/-- The packages of a list that none of its packages leads to. -/
noncomputable def uncovered (edge : Package → Package → Prop) (list : List Package) :
    List Package :=
  list.filter fun dep => decide (∀ other ∈ list, ¬TransGen edge other dep)

theorem mem_uncovered {edge : Package → Package → Prop} {list : List Package} {dep : Package} :
    dep ∈ uncovered edge list ↔ dep ∈ list ∧ ∀ other ∈ list, ¬TransGen edge other dep := by
  simp [uncovered]

section Reduce

variable {deps : Deps} {limit : Nat}

/-- The inner loop keeps a dependency that no other position of the list leads to. -/
theorem keepMe_meets (acyclic : Digraph.Acyclic (Edge deps)) (deep : deps.keys.length < limit)
    {d : List Package} {di : Package × Nat} (position : di ∈ d.zipIdx) {cache : Cache}
    (right : Right (Edge deps) cache) :
    Fold.Meets (fun result => (result.1 = true ↔ ∀ other ∈ d, ¬TransGen (Edge deps) other di.1) ∧
      Right (Edge deps) result.2) (fun _ => False) (keepMe limit deps d di cache) := by
  rw [keepMe]
  refine (Fold.meets_foldlM (fun seen result =>
    (result.1 = true ↔ ∀ dj ∈ seen, dj.2 ≠ di.2 → ¬TransGen (Edge deps) dj.1 di.1) ∧
      Right (Edge deps) result.2) ⟨by simp, right⟩ ?_).mono ?_ fun _ fails => fails
  · rintro seen dj rest ⟨keep, cache⟩ _ ⟨answer, cacheRight⟩
    change (keep = true ↔ _) at answer
    have split : (∀ other ∈ seen ++ [dj], other.2 ≠ di.2 → ¬TransGen (Edge deps) other.1 di.1) ↔
        (keep = true ∧ (dj.2 ≠ di.2 → ¬TransGen (Edge deps) dj.1 di.1)) := by
      rw [answer, List.forall_mem_append, List.forall_mem_singleton]
    change Fold.Meets _ _ (if dj.2 = di.2 then _ else _)
    by_cases same : dj.2 = di.2
    · rw [if_pos same]
      refine ⟨?_, cacheRight⟩
      rw [split]
      exact (and_iff_left fun different => absurd same different).symm
    · rw [if_neg same]
      refine (isDep_meets acyclic di.1 cacheRight
        (Nat.lt_of_le_of_lt (ncard_below_le deps dj.1) deep)).bind ?_
      rintro ⟨found, next⟩ ⟨foundAnswer, nextRight⟩
      change (found = true ↔ _) at foundAnswer
      refine ⟨?_, nextRight⟩
      rw [split, ← foundAnswer]
      cases found <;> simp [same]
  · rintro ⟨keep, last⟩ ⟨answer, lastRight⟩
    refine ⟨answer.trans ⟨fun noneLeads other member path => ?_, fun noneLeads dj inside _ =>
      noneLeads dj.1 (List.fst_mem_of_mem_zipIdx inside)⟩, lastRight⟩
    obtain ⟨index, bound, rfl⟩ := List.getElem_of_mem member
    by_cases same : index = di.2
    · -- the dependency itself, which the loop skips, leads to itself on no path
      have itself : di.1 = d[index] := by
        have here := List.mk_mem_zipIdx_iff_getElem?.mp position
        rw [← same, List.getElem?_eq_getElem bound] at here
        exact (Option.some.inj here).symm
      rw [itself] at path
      exact acyclic _ path
    · exact noneLeads (d[index], index) (List.mk_mem_zipIdx_iff_getElem?.mpr
        (List.getElem?_eq_getElem bound)) same path

/-- `remove_transitive_deps` keeps the dependencies that none of the list leads to. -/
theorem removeTransitiveDeps_meets (acyclic : Digraph.Acyclic (Edge deps))
    (deep : deps.keys.length < limit) {pkg : Package} {list : List Package}
    (found : deps.lookup pkg = some list) {cache : Cache} (right : Right (Edge deps) cache) :
    Fold.Meets (fun result => result.1 = uncovered (Edge deps) list ∧
      Right (Edge deps) result.2) (fun _ => False)
      (removeTransitiveDeps limit pkg deps cache) := by
  classical
  rw [removeTransitiveDeps, found]
  refine (Fold.meets_foldlM (fun seen result =>
    result.1 = ((seen.map Prod.fst).filter fun dep =>
      decide (∀ other ∈ list, ¬TransGen (Edge deps) other dep)) ∧
      Right (Edge deps) result.2) ⟨rfl, right⟩ ?_).mono ?_ fun _ fails => fails
  · rintro seen di rest ⟨newD, cache⟩ whole ⟨kept, cacheRight⟩
    have position : di ∈ list.zipIdx := by simp [whole]
    change newD = _ at kept
    refine (keepMe_meets acyclic deep position cacheRight).bind ?_
    rintro ⟨keep, next⟩ ⟨answer, nextRight⟩
    change (keep = true ↔ _) at answer
    refine ⟨?_, nextRight⟩
    rw [List.map_append, List.filter_append, ← kept, List.map_singleton, List.filter_cons,
      List.filter_nil]
    cases keep with
    | true => rw [if_pos rfl, if_pos (decide_eq_true (answer.mp rfl))]
    | false =>
      have covered : ¬∀ other ∈ list, ¬TransGen (Edge deps) other di.1 :=
        fun none => nomatch answer.mpr none
      rw [if_neg Bool.false_ne_true, if_neg fun isTrue => covered (of_decide_eq_true isTrue),
        List.append_nil]
  · rintro ⟨newD, last⟩ ⟨kept, lastRight⟩
    refine ⟨?_, lastRight⟩
    rw [kept, List.zipIdx_map_fst, uncovered]

end Reduce

/-! ### The two loops over the dictionary -/

/-- The lists of the packages that were seen are changed, the others are not. -/
structure Changed (change : Package → List Package → List Package) (seen : List Package)
    (before after : Deps) : Prop where
  keys : after.keys = before.keys
  lookup : ∀ pkg, after.lookup pkg =
    (before.lookup pkg).map fun list => if pkg ∈ seen then change pkg list else list

section Changed

variable {change : Package → List Package → List Package} {seen : List Package}
  {before after : Deps} {pkg : Package}

theorem Changed.start (change : Package → List Package → List Package) (deps : Deps) :
    Changed change [] deps deps := by
  refine ⟨rfl, fun pkg => ?_⟩
  cases deps.lookup pkg <;> simp

/-- A package not seen yet has its list. -/
theorem Changed.lookup_of_not_mem (changed : Changed change seen before after)
    (new : pkg ∉ seen) : after.lookup pkg = before.lookup pkg := by
  rw [changed.lookup]
  cases before.lookup pkg <;> simp [new]

theorem Changed.step (changed : Changed change seen before after) {list : List Package}
    (found : after.lookup pkg = some list) (new : pkg ∉ seen) :
    Changed change (seen ++ [pkg]) before (after.replace pkg (change pkg list)) := by
  refine ⟨(keys_replace after pkg _).trans changed.keys, fun other => ?_⟩
  rw [lookup_replace found]
  by_cases same : other = pkg
  · rw [if_pos same, same, ← changed.lookup_of_not_mem new, found]
    simp
  · rw [if_neg same, changed.lookup]
    cases before.lookup other <;> simp [same]

/-- A list that the change would not change need not be replaced. -/
theorem Changed.skip (changed : Changed change seen before after)
    (stays : ∀ list, change pkg list = list) : Changed change (seen ++ [pkg]) before after := by
  refine ⟨changed.keys, fun other => ?_⟩
  rw [changed.lookup]
  by_cases same : other = pkg
  · cases before.lookup other <;> simp [same, stays]
  · cases before.lookup other <;> simp [same]

/-- In the end all lists are changed. -/
theorem Changed.lookup_eq (changed : Changed change before.keys before after) (pkg : Package) :
    after.lookup pkg = (before.lookup pkg).map (change pkg) := by
  rw [changed.lookup]
  cases found : before.lookup pkg with
  | none => rfl
  | some list => simp [mem_keys_of_lookup found]

/-- A change that takes packages away takes edges away. -/
theorem Changed.edge_of_edge (changed : Changed change seen before after)
    (sub : ∀ pkg list, ∀ dep ∈ change pkg list, dep ∈ list) {dep : Package}
    (edge : Edge after pkg dep) : Edge before pkg dep := by
  obtain ⟨list, found, member⟩ := edge
  rw [changed.lookup] at found
  obtain ⟨old, oldFound, rfl⟩ := Option.map_eq_some_iff.mp found
  refine ⟨old, oldFound, ?_⟩
  split at member
  · exact sub pkg old dep member
  · exact member

end Changed

/-- What `remove_extra_deps` makes of the list of a package first. -/
def withoutMandatory (pkg : Package) (list : List Package) : List Package :=
  if pkg = "all".toList then list
  else list.filter fun p => p ∉ ["toolchain".toList, "skeleton".toList]

/-- The first loop takes the mandatory packages off all lists. -/
theorem removeMandatory_meets (deps : Deps) :
    Fold.Meets (Changed withoutMandatory deps.keys deps) (fun _ => False)
      (removeMandatory deps) := by
  rw [removeMandatory]
  refine Fold.meets_foldlM (fun seen after => Changed withoutMandatory seen deps after)
    (Changed.start withoutMandatory deps) ?_
  intro seen pkg rest after whole changed
  by_cases isAll : pkg = "all".toList
  · rw [if_neg (not_not_intro isAll)]
    exact changed.skip fun list => if_pos isAll
  · rw [if_pos isAll]
    obtain ⟨new, list, found⟩ := next_key whole
    have same := (changed.lookup_of_not_mem new).trans found
    rw [removeMandatoryDeps, same]
    have step := changed.step same new
    rw [withoutMandatory, if_neg isAll] at step
    exact step

/-- What `remove_extra_deps` makes of the list of a package then. -/
noncomputable def withoutCovered (transitive : Bool) (edge : Package → Package → Prop)
    (pkg : Package) (list : List Package) : List Package :=
  if transitive = false ∨ pkg = "all".toList then uncovered edge list else list

theorem withoutCovered_false (edge : Package → Package → Prop) :
    withoutCovered false edge = fun _ => uncovered edge := by
  funext pkg list
  exact if_pos (Or.inl rfl)

theorem withoutCovered_subset (transitive : Bool) (edge : Package → Package → Prop)
    (pkg : Package) (list : List Package) :
    ∀ dep ∈ withoutCovered transitive edge pkg list, dep ∈ list := by
  intro dep member
  rw [withoutCovered] at member
  split at member
  · exact (mem_uncovered.mp member).1
  · exact member

/-- What an edge was dropped for, while lists are replaced by their uncovered packages. -/
theorem covered_of_changed {transitive : Bool} {before after : Deps} {seen : List Package}
    (changed : Changed (withoutCovered transitive (Edge before)) seen before after)
    {pkg dep : Package} (edge : Edge before pkg dep) (dropped : ¬Edge after pkg dep) :
    ∃ other, Edge before pkg other ∧ TransGen (Edge before) other dep := by
  obtain ⟨list, found, member⟩ := edge
  by_contra uncoveredDep
  refine dropped ⟨_, by rw [changed.lookup, found]; rfl, ?_⟩
  split
  · change dep ∈ withoutCovered transitive (Edge before) pkg list
    rw [withoutCovered]
    split
    · refine mem_uncovered.mpr ⟨member, fun other otherMember path => ?_⟩
      exact uncoveredDep ⟨other, ⟨list, found, otherMember⟩, path⟩
    · exact member
  · exact member

/-- While lists are replaced by their uncovered packages, the paths stay. -/
theorem transGen_of_changed {transitive : Bool} {before after : Deps} {seen : List Package}
    (acyclic : Digraph.Acyclic (Edge before))
    (changed : Changed (withoutCovered transitive (Edge before)) seen before after) :
    TransGen (Edge after) = TransGen (Edge before) := by
  funext pkg dep
  refine propext (Digraph.transGen_iff_of_covered acyclic (finite_sources before) ?_ ?_ pkg dep)
  · exact fun _ _ => changed.edge_of_edge (withoutCovered_subset transitive _)
  · exact fun _ _ edge dropped => covered_of_changed changed edge dropped

/-- The second loop replaces the lists by their uncovered packages, the dictionary being edited and
the cache being filled as it goes. -/
theorem removeTransitive_meets (transitive : Bool) {deps : Deps}
    (acyclic : Digraph.Acyclic (Edge deps)) {limit : Nat} (above : deps.keys.length < limit) :
    Fold.Meets (fun result =>
        Changed (withoutCovered transitive (Edge deps)) deps.keys deps result.1)
      (fun _ => False) (removeTransitive limit transitive deps) := by
  rw [removeTransitive]
  have start := And.intro (Changed.start (withoutCovered transitive (Edge deps)) deps)
    (right_none (Edge deps))
  refine (Fold.meets_foldlM (fun seen result =>
    Changed (withoutCovered transitive (Edge deps)) seen deps result.1 ∧
      Right (Edge deps) result.2) start ?_).mono (fun _ result => result.1) fun _ fails => fails
  rintro seen pkg rest ⟨after, cache⟩ whole ⟨changed, right⟩
  change Changed _ seen deps after at changed
  change Right (Edge deps) cache at right
  obtain ⟨new, list, found⟩ := next_key whole
  have same := (changed.lookup_of_not_mem new).trans found
  -- the dictionary as it is now has the paths of the dictionary before the loop
  have paths := transGen_of_changed acyclic changed
  have nowAcyclic : Digraph.Acyclic (Edge after) := fun other cycle =>
    acyclic other (paths ▸ cycle)
  have nowRight : Right (Edge after) cache := by rw [Right, paths]; exact right
  have nowUncovered : uncovered (Edge after) list = uncovered (Edge deps) list := by
    rw [uncovered, uncovered, paths]
  change Fold.Meets _ _ (if transitive = false ∨ pkg = "all".toList then _ else _)
  by_cases reduces : transitive = false ∨ pkg = "all".toList
  · rw [if_pos reduces]
    refine (removeTransitiveDeps_meets nowAcyclic (by rw [changed.keys]; exact above) same
      nowRight).bind ?_
    rintro ⟨newD, next⟩ ⟨kept, nextRight⟩
    change newD = _ at kept
    have change : newD = withoutCovered transitive (Edge deps) pkg list := by
      rw [kept, nowUncovered, withoutCovered, if_pos reduces]
    rw [change]
    refine ⟨changed.step same new, ?_⟩
    change Right (Edge deps) next
    rw [Right, ← paths]
    exact nextRight
  · rw [if_neg reduces]
    exact ⟨changed.skip fun list => if_neg reduces, right⟩

/-! ### The reduction of the graph -/

/-- Changing the lists in a way that respects their order up to permutation. -/
theorem SameUpToOrder.changed {change change' : Package → List Package → List Package}
    {first second first' second' : Deps} (same : SameUpToOrder first second)
    (changed : Changed change first.keys first first')
    (changed' : Changed change' second.keys second second')
    (respects : ∀ pkg list list', list.Perm list' → (change pkg list).Perm (change' pkg list')) :
    SameUpToOrder first' second' := by
  intro pkg
  rw [changed.lookup_eq, changed'.lookup_eq]
  rcases same.lookup pkg with ⟨none, none'⟩ | ⟨list, list', found, found', perm⟩
  · rw [none, none']
    exact .none
  · rw [found, found']
    exact .some (respects pkg list list' perm)

theorem withoutMandatory_perm {pkg : Package} {list list' : List Package}
    (perm : list.Perm list') : (withoutMandatory pkg list).Perm (withoutMandatory pkg list') := by
  rw [withoutMandatory, withoutMandatory]
  split
  · exact perm
  · exact perm.filter _

theorem uncovered_perm {edge : Package → Package → Prop} {list list' : List Package}
    (perm : list.Perm list') : (uncovered edge list).Perm (uncovered edge list') := by
  classical
  have same : uncovered edge list' =
      list'.filter fun dep => decide (∀ other ∈ list, ¬TransGen edge other dep) := by
    refine List.filter_congr fun dep _ => decide_eq_decide.mpr ?_
    exact forall_congr' fun other => imp_congr_left perm.mem_iff.symm
  rw [same]
  exact perm.filter _

theorem withoutMandatory_subset (pkg : Package) (list : List Package) :
    ∀ dep ∈ withoutMandatory pkg list, dep ∈ list := by
  intro dep member
  rw [withoutMandatory] at member
  split at member
  · exact member
  · exact List.mem_of_mem_filter member

/-- What the two loops make of an acyclic dictionary. -/
theorem removeExtraDeps_changed (transitive : Bool) {deps : Deps}
    (acyclic : Digraph.Acyclic (Edge deps)) {limit : Nat} (above : deps.keys.length < limit) :
    ∃ mandatory result, removeMandatory deps = .ok mandatory ∧
      removeExtraDeps limit transitive deps = .ok result ∧
      Changed withoutMandatory deps.keys deps mandatory ∧
      Changed (withoutCovered transitive (Edge mandatory)) mandatory.keys mandatory result ∧
      Digraph.Acyclic (Edge mandatory) := by
  obtain ⟨mandatory, first, changed⟩ := Fold.exists_of_meets (removeMandatory_meets deps)
  have nowAcyclic : Digraph.Acyclic (Edge mandatory) :=
    acyclic.mono fun pkg dep edge => changed.edge_of_edge withoutMandatory_subset edge
  have aboveNow : mandatory.keys.length < limit := changed.keys ▸ above
  obtain ⟨⟨result, cache⟩, second, reduced⟩ :=
    Fold.exists_of_meets (removeTransitive_meets transitive nowAcyclic aboveNow)
  refine ⟨mandatory, result, first, ?_, changed, reduced, nowAcyclic⟩
  rw [removeExtraDeps, first]
  change (removeTransitive limit transitive mandatory >>= _) = _
  rw [second]
  rfl

/-- A dictionary in which the packages reach what they do in another one, but no dependency of a
package is reached from another dependency of it. -/
structure IsReduction (before after : Deps) : Prop where
  reaches : ∀ pkg dep, TransGen (Edge after) pkg dep ↔ TransGen (Edge before) pkg dep
  minimal : ∀ pkg dep other, Edge after pkg dep → Edge after pkg other → other ≠ dep →
    ¬TransGen (Edge after) other dep

/-- The reduction of an acyclic dictionary keeps what its packages reach once the mandatory
dependencies are removed, leaves no dependency that another one of the package reaches, and is
the same in whatever order the keys and the dependencies are listed. -/
theorem removeExtraDeps_reduces (deps : Deps) (acyclic : Digraph.Acyclic (Edge deps)) (limit : Nat)
    (above : deps.keys.length < limit) :
    ∃ mandatory result, removeMandatory deps = .ok mandatory ∧
      removeExtraDeps limit false deps = .ok result ∧ IsReduction mandatory result ∧
      ∀ ordered, SameUpToOrder deps ordered →
        ∃ orderedResult, removeExtraDeps limit false ordered = .ok orderedResult ∧
          SameUpToOrder result orderedResult := by
  obtain ⟨mandatory, result, first, whole, changed, reduced, nowAcyclic⟩ :=
    removeExtraDeps_changed false acyclic above
  have paths := transGen_of_changed nowAcyclic reduced
  refine ⟨mandatory, result, first, whole, ⟨fun pkg dep => by rw [paths], ?_⟩, ?_⟩
  · intro pkg dep other edge otherEdge _
    obtain ⟨list, found, member⟩ := edge
    rw [edge_iff_of_lookup found] at otherEdge
    rw [reduced.lookup_eq, withoutCovered_false] at found
    obtain ⟨old, _, rfl⟩ := Option.map_eq_some_iff.mp found
    rw [paths]
    exact (mem_uncovered.mp member).2 other (mem_uncovered.mp otherEdge).1
  · intro ordered same
    have orderedAcyclic : Digraph.Acyclic (Edge ordered) := same.edge ▸ acyclic
    obtain ⟨mandatory', result', _, whole', changed', reduced', _⟩ :=
      removeExtraDeps_changed false orderedAcyclic (same.length_keys ▸ above)
    refine ⟨result', whole', ?_⟩
    have sameMandatory := same.changed changed changed' fun _ _ _ => withoutMandatory_perm
    refine sameMandatory.changed reduced reduced' fun _ _ _ perm => ?_
    rw [← sameMandatory.edge, withoutCovered_false]
    exact uncovered_perm perm

/-- A package that depends on `b` directly and through `a`, and on the toolchain. -/
def diamondDeps : Deps :=
  ⟨[⟨"all".toList, ["b".toList, "a".toList]⟩,
    ⟨"a".toList, ["toolchain".toList, "b".toList]⟩, ⟨"b".toList, ["toolchain".toList]⟩],
    show (List.keys _).Nodup by decide⟩

theorem acyclic_diamondDeps : Digraph.Acyclic (Edge diamondDeps) :=
  acyclic_of_entries
    (fun pkg => if pkg = "all".toList then 3 else if pkg = "a".toList then 2
      else if pkg = "b".toList then 1 else 0)
    (by decide)

theorem removeExtraDeps_reduces_diamond :
    ∃ mandatory result, removeMandatory diamondDeps = .ok mandatory ∧
      removeExtraDeps 4 false diamondDeps = .ok result ∧ IsReduction mandatory result ∧
      ∀ ordered, SameUpToOrder diamondDeps ordered →
        ∃ orderedResult, removeExtraDeps 4 false ordered = .ok orderedResult ∧
          SameUpToOrder result orderedResult :=
  removeExtraDeps_reduces diamondDeps acyclic_diamondDeps 4 (by decide)

example : (removeExtraDeps 4 false diamondDeps).map AList.entries =
    .ok [⟨"all".toList, ["a".toList]⟩, ⟨"a".toList, ["b".toList]⟩, ⟨"b".toList, []⟩] := by
  rfl

end Buildroot4G.Depends
