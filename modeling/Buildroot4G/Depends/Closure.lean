/-
This file models `get_depends` and `get_all_depends` of `support/scripts/graph-depends`:
batches of packages whose dependencies `make` prints, a list of the packages that were
asked for, and a recursion on the set of the dependencies found. The main result is that
every package reachable from the roots is asked for once and that the edges returned are
those of the reachable packages.

What a command prints and the order in which a set is gone through are parameters.
-/

import Buildroot4G.Depends.Deps
import Buildroot4G.Fold
import Buildroot4G.Shell.Awk
import Mathlib.Data.List.Nodup

namespace Buildroot4G.Depends

open Relation Shell

/-! ### `get_depends` -/

/-- What running a command gives: its exit status and its output. -/
abbrev Run := List Text → ℕ × Text

/-- The command `get_depends` runs. -/
def showDepends (pkgs : List Package) : List Text :=
  ["make".toList, "-s".toList, "--no-print-directory".toList] ++
    pkgs.map fun pkg => pkg ++ "-show-depends".toList

/-- Python's text of a list of names that need no escapes. -/
def reprList (pkgs : List Package) : Text :=
  '[' :: [',', ' '].intercalate (pkgs.map fun pkg => '\'' :: pkg ++ ['\'']) ++ [']']

/-- The dependencies a line of the output lists. -/
def lineDepends (line : Text) : List Package :=
  if line.splitOn ' ' = [[]] then [] else line.splitOn ' '

/-- `get_depends`. -/
def getDepends (run : Run) (pkgs : List Package) : Except Stop Deps :=
  let (returncode, output) := run (showDepends pkgs)
  if returncode ≠ 0 then
    .error (.exit 1 ("Error getting dependencies ".toList ++ reprList pkgs ++ ['\n']))
  else if (output.splitOn '\n').length ≠ pkgs.length + 1 then
    .error (.exit 1 "Error getting dependencies\n".toList)
  else
    .ok ((pkgs.zip (output.splitOn '\n')).foldl
      (fun deps item => deps.set item.1 (lineDepends item.2)) ∅)

/-! ### `get_all_depends` -/

/-- The global list of known packages, and the packages each call of `get_depends` was made
for. -/
structure Visited where
  allpkgs : List Package
  queries : List (List Package)
  deriving DecidableEq, Repr

/-- The loop that filters out the packages that are known and enters the others. -/
def filterPkgs (pkgs allpkgs : List Package) : List Package × List Package :=
  pkgs.foldl
    (fun (filtered, allpkgs) pkg =>
      if pkg ∈ allpkgs then (filtered, allpkgs) else (filtered ++ [pkg], allpkgs ++ [pkg]))
    ([], allpkgs)

/-- The loop over the answers: the edges it appends and the packages it adds to the set. -/
def collect (depends : Deps) (filtered : List Package) :
    Except Stop (List (Package × Package) × List Package) :=
  filtered.foldlM
    (fun (dependencies, deps) pkg =>
      match depends.lookup pkg with
      | none => .error .keyError
      | some list => .ok (dependencies ++ list.map (fun dep => (pkg, dep)), deps ++ list))
    ([], [])

/-- `get_all_depends`, where `order` lists a set from what was added to it. -/
def getAllDepends (run : Run) (order : List Package → List Package) :
    ℕ → List Package → Visited → Except Stop (List (Package × Package) × Visited)
  | 0, _, _ => .error .tooDeep
  | limit + 1, pkgs, visited =>
    let (filtered, allpkgs) := filterPkgs pkgs visited.allpkgs
    if filtered.length = 0 then .ok ([], { visited with allpkgs })
    else do
      let depends ← getDepends run filtered
      let (dependencies, deps) ← collect depends filtered
      let visited := ⟨allpkgs, visited.queries ++ [filtered]⟩
      if deps.length ≠ 0 then do
        let (newdeps, visited) ← getAllDepends run order limit (order deps) visited
        .ok (dependencies ++ newdeps, visited)
      else .ok (dependencies, visited)

/-- The packages of a configuration as `make` knows them: finitely many, with their
dependencies among them and names that are single words. -/
structure Configuration where
  packages : List Package
  depends : Package → List Package
  closed : ∀ pkg ∈ packages, ∀ dep ∈ depends pkg, dep ∈ packages
  word : ∀ pkg ∈ packages, pkg ≠ [] ∧ ' ' ∉ pkg ∧ '\n' ∉ pkg

/-- `dep` is a dependency of `pkg` in the configuration. -/
def Configuration.Needs (config : Configuration) (pkg dep : Package) : Prop :=
  dep ∈ config.depends pkg

/-- The line that `make` prints for a package: `echo` of its dependencies. -/
def Configuration.line (config : Configuration) (pkg : Package) : Text :=
  [' '].intercalate (config.depends pkg)

/-- `make` makes every goal of packages of the configuration, in the order of the goals. -/
def Shows (config : Configuration) (run : Run) : Prop :=
  ∀ pkgs : List Package, pkgs.Nodup → (∀ pkg ∈ pkgs, pkg ∈ config.packages) →
    run (showDepends pkgs) = (0, pkgs.flatMap fun pkg => config.line pkg ++ ['\n'])

/-- The listing of a set has what was added to it. -/
def Lists (order : List Package → List Package) : Prop :=
  ∀ added pkg, pkg ∈ order added ↔ pkg ∈ added

/-! ### The output of make -/

section Output

variable {config : Configuration}

/-- The line of a package has no newline. -/
theorem Configuration.newline_not_mem_line {pkg : Package} (known : pkg ∈ config.packages) :
    '\n' ∉ config.line pkg := by
  have general : ∀ names : List Package, (∀ name ∈ names, '\n' ∉ name) →
      '\n' ∉ [' '].intercalate names := by
    intro names
    induction names with
    | nil => exact fun _ => List.not_mem_nil
    | cons name rest inductionHypothesis =>
      intro plain
      have later := inductionHypothesis fun other member =>
        plain other (List.mem_cons_of_mem name member)
      have here := plain name List.mem_cons_self
      cases rest with
      | nil => rwa [List.intercalate_singleton]
      | cons next tail =>
        rw [List.intercalate_cons_cons]
        simp [here, later]
  exact general _ fun dep member => (config.word dep (config.closed pkg known dep member)).2.2

/-- The line of a package lists its dependencies. -/
theorem lineDepends_line {pkg : Package} (known : pkg ∈ config.packages) :
    lineDepends (config.line pkg) = config.depends pkg := by
  rw [lineDepends, Configuration.line]
  by_cases none : config.depends pkg = []
  · rw [none]
    rfl
  have words : ([' '].intercalate (config.depends pkg)).splitOn ' ' = config.depends pkg :=
    List.splitOn_intercalate ' '
      (fun dep member => (config.word dep (config.closed pkg known dep member)).2.1) none
  rw [words, if_neg]
  intro empty
  have member : [] ∈ config.depends pkg := empty ▸ List.mem_singleton_self []
  exact (config.word [] (config.closed pkg known [] member)).1 rfl

/-- A dictionary filled from pairs with different keys has the values of the pairs. -/
theorem lookup_foldl_set {items : List (Package × Text)} (unique : (items.map Prod.fst).Nodup)
    (first : Deps) {item : Package × Text} (member : item ∈ items) :
    (items.foldl (fun deps item => deps.set item.1 (lineDepends item.2)) first).lookup item.1 =
      some (lineDepends item.2) := by
  have other : ∀ (items : List (Package × Text)) (first : Deps) pkg,
      pkg ∉ items.map Prod.fst →
      (items.foldl (fun deps item => deps.set item.1 (lineDepends item.2)) first).lookup pkg =
        first.lookup pkg := by
    intro items
    induction items with
    | nil => exact fun _ _ _ => rfl
    | cons head rest inductionHypothesis =>
      intro first pkg outside
      obtain ⟨different, later⟩ := List.ne_and_not_mem_of_not_mem_cons outside
      rw [List.foldl_cons, inductionHypothesis _ pkg later, Dict.lookup_set_of_ne _ _ different]
  induction items generalizing first with
  | nil => cases member
  | cons head rest inductionHypothesis =>
    obtain ⟨outside, uniqueRest⟩ := List.nodup_cons.mp unique
    rw [List.foldl_cons]
    rcases List.mem_cons.mp member with rfl | later
    · rw [other rest _ item.1 outside, Dict.lookup_set_self]
    · exact inductionHypothesis uniqueRest _ later

/-- `get_depends` gets the dependencies of packages of the configuration. -/
theorem getDepends_eq_ok {run : Run} (shows : Shows config run) {pkgs : List Package}
    (unique : pkgs.Nodup) (known : ∀ pkg ∈ pkgs, pkg ∈ config.packages) :
    ∃ depends, getDepends run pkgs = .ok depends ∧
      ∀ pkg ∈ pkgs, depends.lookup pkg = some (config.depends pkg) := by
  have lines := splitOn_flatMap_lines config.line fun pkg member =>
    Configuration.newline_not_mem_line (known pkg member)
  have unzipped : ∀ names : List Package, names.zip (names.map config.line ++ [[]]) =
      names.map fun pkg => (pkg, config.line pkg) := by
    intro names
    induction names with
    | nil => rfl
    | cons name rest inductionHypothesis =>
      rw [List.map_cons, List.cons_append, List.zip_cons_cons, inductionHypothesis, List.map_cons]
  refine ⟨(pkgs.map fun pkg => (pkg, config.line pkg)).foldl
    (fun deps item => deps.set item.1 (lineDepends item.2)) ∅, ?_, fun pkg member => ?_⟩
  · rw [getDepends, shows pkgs unique known]
    change (if (0 : ℕ) ≠ 0 then _ else if _ then _ else _) = _
    rw [if_neg (not_not_intro rfl), lines, if_neg (not_not_intro (by simp)), unzipped]
  · have uniqueKeys : ((pkgs.map fun pkg => (pkg, config.line pkg)).map Prod.fst).Nodup := by
      rw [List.map_map]
      change (pkgs.map id).Nodup
      rwa [List.map_id]
    rw [lookup_foldl_set uniqueKeys ∅ (List.mem_map_of_mem member),
      lineDepends_line (known pkg member)]

end Output

/-! ### The loops of a batch -/

/-- What the filter leaves: the packages that were not known, once each, and the known ones with
these behind them. -/
theorem filterPkgs_spec (pkgs allpkgs : List Package) :
    ∃ filtered, filterPkgs pkgs allpkgs = (filtered, allpkgs ++ filtered) ∧
      (allpkgs.Nodup → (allpkgs ++ filtered).Nodup) ∧ (∀ pkg ∈ filtered, pkg ∈ pkgs) ∧
      ∀ pkg ∈ pkgs, pkg ∈ allpkgs ++ filtered := by
  have general : ∀ rest seen : List Package, ∃ more,
      rest.foldl (fun (filtered, allpkgs) pkg =>
        if pkg ∈ allpkgs then (filtered, allpkgs) else (filtered ++ [pkg], allpkgs ++ [pkg]))
        (seen, allpkgs ++ seen) = (seen ++ more, allpkgs ++ (seen ++ more)) ∧
      ((allpkgs ++ seen).Nodup → (allpkgs ++ (seen ++ more)).Nodup) ∧
      (∀ pkg ∈ more, pkg ∈ rest) ∧ ∀ pkg ∈ rest, pkg ∈ allpkgs ++ (seen ++ more) := by
    intro rest
    induction rest with
    | nil => exact fun seen => ⟨[], by simp, by simp, nofun, nofun⟩
    | cons pkg rest inductionHypothesis =>
      intro seen
      by_cases known : pkg ∈ allpkgs ++ seen
      · obtain ⟨more, folds, unique, sub, covers⟩ := inductionHypothesis seen
        refine ⟨more, ?_, unique, fun other member => List.mem_cons_of_mem pkg (sub other member),
          List.forall_mem_cons.mpr ⟨?_, covers⟩⟩
        · rw [List.foldl_cons]
          simp only [if_pos known]
          exact folds
        · rw [← List.append_assoc]
          exact List.mem_append_left more known
      · obtain ⟨more, folds, unique, sub, covers⟩ := inductionHypothesis (seen ++ [pkg])
        refine ⟨pkg :: more, ?_, fun uniqueSeen => ?_, ?_, ?_⟩
        · rw [List.foldl_cons]
          simp only [if_neg known]
          rw [List.append_assoc allpkgs, folds, List.append_assoc, List.singleton_append]
        · have grown : (allpkgs ++ (seen ++ [pkg])).Nodup := by
            rw [← List.append_assoc]
            exact List.nodup_append_comm.mp (List.nodup_cons.mpr ⟨known, uniqueSeen⟩)
          have whole := unique grown
          rwa [List.append_assoc seen, List.singleton_append] at whole
        · exact List.forall_mem_cons.mpr
            ⟨List.mem_cons_self, fun other member => List.mem_cons_of_mem pkg (sub other member)⟩
        · rw [List.append_assoc, List.singleton_append] at covers
          exact List.forall_mem_cons.mpr ⟨by simp, covers⟩
  obtain ⟨filtered, folds, unique, sub, covers⟩ := general pkgs []
  rw [List.append_nil] at folds unique
  exact ⟨filtered, folds, unique, sub, covers⟩

/-- The edges of a package. -/
def Configuration.edges (config : Configuration) (pkg : Package) : List (Package × Package) :=
  (config.depends pkg).map fun dep => (pkg, dep)

/-- The loop over the answers collects the edges of the packages and their dependencies. -/
theorem collect_eq_ok {config : Configuration} {depends : Deps} {filtered : List Package}
    (answers : ∀ pkg ∈ filtered, depends.lookup pkg = some (config.depends pkg)) :
    collect depends filtered =
      .ok (filtered.flatMap config.edges, filtered.flatMap config.depends) := by
  have general : ∀ (rest : List Package) dependencies deps,
      (∀ pkg ∈ rest, depends.lookup pkg = some (config.depends pkg)) →
      rest.foldlM
        (fun (result : List (Package × Package) × List Package) pkg =>
          match depends.lookup pkg with
          | none => .error .keyError
          | some list =>
            .ok (result.1 ++ list.map (fun dep => (pkg, dep)), result.2 ++ list))
        (dependencies, deps) =
      (.ok (dependencies ++ rest.flatMap config.edges, deps ++ rest.flatMap config.depends) :
        Except Stop _) := by
    intro rest
    induction rest with
    | nil => simp [pure, Except.pure]
    | cons pkg rest inductionHypothesis =>
      intro dependencies deps answers
      rw [List.foldlM_cons, answers pkg List.mem_cons_self]
      have later := inductionHypothesis (dependencies ++ config.edges pkg)
        (deps ++ config.depends pkg) fun other member =>
          answers other (List.mem_cons_of_mem pkg member)
      refine later.trans ?_
      rw [List.flatMap_cons, List.flatMap_cons, List.append_assoc, List.append_assoc]
  exact general filtered [] [] answers

/-! ### The recursion -/

/-- What a call leaves: packages that were not known, once each and in the order they were asked
for, which the packages asked for lead to and whose dependencies are all known. -/
structure Closes (config : Configuration) (pkgs : List Package) (before after : Visited)
    (dependencies : List (Package × Package)) (new : List Package) : Prop where
  allpkgs : after.allpkgs = before.allpkgs ++ new
  queries : after.queries.flatten = before.queries.flatten ++ new
  dependencies : dependencies = new.flatMap config.edges
  unique : before.allpkgs.Nodup → (before.allpkgs ++ new).Nodup
  covers : ∀ pkg ∈ pkgs, pkg ∈ before.allpkgs ++ new
  closed : ∀ pkg ∈ new, ∀ dep ∈ config.depends pkg, dep ∈ before.allpkgs ++ new
  reached : ∀ pkg ∈ new, ∃ root ∈ pkgs, ReflTransGen config.Needs root pkg

/-- How many packages of the configuration are not known. -/
def Configuration.unknown (config : Configuration) (allpkgs : List Package) : ℕ :=
  (config.packages.filter fun pkg => pkg ∉ allpkgs).length

/-- A new package makes the number of unknown ones smaller. -/
theorem Configuration.unknown_lt {config : Configuration} {allpkgs filtered : List Package}
    {pkg : Package} (member : pkg ∈ filtered) (known : pkg ∈ config.packages)
    (unique : (allpkgs ++ filtered).Nodup) :
    config.unknown (allpkgs ++ filtered) < config.unknown allpkgs := by
  have outside : pkg ∉ allpkgs :=
    fun inside => List.disjoint_of_nodup_append unique inside member
  have fewer : config.packages.filter (fun other => other ∉ allpkgs ++ filtered) =
      (config.packages.filter fun other => other ∉ allpkgs).filter
        fun other => other ∉ filtered := by
    rw [List.filter_filter]
    refine List.filter_congr fun other _ => ?_
    simp [Bool.and_comm]
  rw [Configuration.unknown, Configuration.unknown, fewer]
  refine List.length_filter_lt_length_iff_exists.mpr ⟨pkg, ?_, by simpa using member⟩
  exact List.mem_filter.mpr ⟨known, by simpa using outside⟩

/-- A call within the limit asks for what its packages lead to. -/
theorem getAllDepends_closes {config : Configuration} {run : Run} (shows : Shows config run)
    {order : List Package → List Package} (lists : Lists order) (limit : ℕ) {pkgs : List Package}
    (known : ∀ pkg ∈ pkgs, pkg ∈ config.packages) {visited : Visited}
    (unique : visited.allpkgs.Nodup) (deep : config.unknown visited.allpkgs < limit) :
    ∃ dependencies after new,
      getAllDepends run order limit pkgs visited = .ok (dependencies, after) ∧
        Closes config pkgs visited after dependencies new := by
  induction limit generalizing pkgs visited with
  | zero => exact absurd deep (Nat.not_lt_zero _)
  | succ limit inductionHypothesis =>
    obtain ⟨filtered, filters, uniqueAfter, sub, covers⟩ := filterPkgs_spec pkgs visited.allpkgs
    have wholeUnique := uniqueAfter unique
    rw [getAllDepends, filters]
    by_cases none : filtered.length = 0
    · have nil : filtered = [] := List.length_eq_zero_iff.mp none
      subst nil
      refine ⟨[], { visited with allpkgs := visited.allpkgs ++ [] }, [], rfl, ?_⟩
      exact ⟨rfl, by simp, rfl, uniqueAfter, covers, nofun, nofun⟩
    have knownFiltered : ∀ pkg ∈ filtered, pkg ∈ config.packages :=
      fun pkg member => known pkg (sub pkg member)
    have uniqueFiltered : filtered.Nodup := (List.nodup_append.mp wholeUnique).2.1
    obtain ⟨depends, answered, answers⟩ := getDepends_eq_ok shows uniqueFiltered knownFiltered
    have collected := collect_eq_ok answers
    change ∃ dependencies after new,
      (if filtered.length = 0 then _ else getDepends run filtered >>= _) = _ ∧ _
    rw [if_neg none, answered]
    change ∃ dependencies after new, (collect depends filtered >>= _) = _ ∧ _
    rw [collected]
    change ∃ dependencies after new,
      (if (filtered.flatMap config.depends).length ≠ 0 then
        getAllDepends run order limit _ ⟨visited.allpkgs ++ filtered, _⟩ >>= _ else _) = _ ∧ _
    by_cases leaf : (filtered.flatMap config.depends).length = 0
    · rw [if_neg (not_not_intro leaf)]
      have noDeps : ∀ pkg ∈ filtered, config.depends pkg = [] :=
        List.flatMap_eq_nil_iff.mp (List.length_eq_zero_iff.mp leaf)
      refine ⟨_, _, filtered, rfl, rfl, by simp, rfl, uniqueAfter, covers, ?_, ?_⟩
      · intro pkg member dep isDep
        rw [noDeps pkg member] at isDep
        cases isDep
      · exact fun pkg member => ⟨pkg, sub pkg member, ReflTransGen.refl⟩
    rw [if_pos leaf]
    obtain ⟨first, firstMember⟩ := List.exists_mem_of_length_pos (Nat.pos_of_ne_zero none)
    have fewer := Configuration.unknown_lt firstMember (knownFiltered first firstMember) wholeUnique
    have added : ∀ dep, dep ∈ order (filtered.flatMap config.depends) ↔
        ∃ pkg ∈ filtered, dep ∈ config.depends pkg :=
      fun dep => (lists _ dep).trans List.mem_flatMap
    have knownDeps : ∀ dep ∈ order (filtered.flatMap config.depends), dep ∈ config.packages := by
      intro dep member
      obtain ⟨pkg, inFiltered, isDep⟩ := (added dep).mp member
      exact config.closed pkg (knownFiltered pkg inFiltered) dep isDep
    obtain ⟨dependencies, after, new, recursed, closes⟩ :=
      @inductionHypothesis _ knownDeps
        ⟨visited.allpkgs ++ filtered, visited.queries ++ [filtered]⟩ wholeUnique
        (Nat.lt_of_lt_of_le fewer (Nat.le_of_lt_succ deep))
    rw [recursed]
    refine ⟨_, after, filtered ++ new, rfl, ?_, ?_, ?_, ?_, ?_, ?_, ?_⟩
    · rw [closes.allpkgs, List.append_assoc]
    · rw [closes.queries, List.flatten_append, List.append_assoc]
      simp
    · rw [closes.dependencies, List.flatMap_append]
    · rw [← List.append_assoc]
      exact fun _ => closes.unique wholeUnique
    · intro pkg member
      rw [← List.append_assoc]
      exact List.mem_append_left new (covers pkg member)
    · intro pkg member dep isDep
      rw [← List.append_assoc]
      rcases List.mem_append.mp member with inFiltered | later
      · exact closes.covers dep ((added dep).mpr ⟨pkg, inFiltered, isDep⟩)
      · exact closes.closed pkg later dep isDep
    · intro pkg member
      rcases List.mem_append.mp member with inFiltered | later
      · exact ⟨pkg, sub pkg inFiltered, ReflTransGen.refl⟩
      · obtain ⟨root, isRoot, path⟩ := closes.reached pkg later
        obtain ⟨parent, inFiltered, isDep⟩ := (added root).mp isRoot
        exact ⟨parent, sub parent inFiltered, path.head isDep⟩

/-- From an empty list of known packages, the new ones are those that the roots lead to. -/
theorem Closes.mem_iff {config : Configuration} {roots : List Package} {after : Visited}
    {dependencies : List (Package × Package)} {new : List Package}
    (closes : Closes config roots ⟨[], []⟩ after dependencies new) (pkg : Package) :
    pkg ∈ new ↔ ∃ root ∈ roots, ReflTransGen config.Needs root pkg := by
  refine ⟨closes.reached pkg, ?_⟩
  rintro ⟨root, isRoot, path⟩
  induction path with
  | refl => exact closes.covers root isRoot
  | tail _ edge inductionHypothesis => exact closes.closed _ inductionHypothesis _ edge

theorem Closes.mem_dependencies {config : Configuration} {roots : List Package} {after : Visited}
    {dependencies : List (Package × Package)} {new : List Package}
    (closes : Closes config roots ⟨[], []⟩ after dependencies new) (pkg dep : Package) :
    (pkg, dep) ∈ dependencies ↔
      (∃ root ∈ roots, ReflTransGen config.Needs root pkg) ∧ config.Needs pkg dep := by
  rw [closes.dependencies, ← closes.mem_iff]
  simp [Configuration.edges, Configuration.Needs]

/-- From an empty list of known packages `get_all_depends` returns; it has asked once for every
package that the roots lead to, and returns the edges of these packages. -/
theorem getAllDepends_closure (config : Configuration) (run : Run) (shows : Shows config run)
    (order : List Package → List Package) (lists : Lists order) (roots : List Package)
    (known : ∀ root ∈ roots, root ∈ config.packages) (limit : ℕ)
    (above : config.packages.length < limit) :
    ∃ dependencies after,
      getAllDepends run order limit roots ⟨[], []⟩ = .ok (dependencies, after) ∧
      after.queries.flatten.Nodup ∧
      (∀ pkg, pkg ∈ after.queries.flatten ↔
        ∃ root ∈ roots, ReflTransGen config.Needs root pkg) ∧
      ∀ pkg dep, (pkg, dep) ∈ dependencies ↔
        (∃ root ∈ roots, ReflTransGen config.Needs root pkg) ∧ config.Needs pkg dep := by
  have deep : config.unknown [] < limit :=
    Nat.lt_of_le_of_lt (List.length_filter_le _ _) above
  obtain ⟨dependencies, after, new, returns, closes⟩ :=
    @getAllDepends_closes config run shows order lists limit roots known ⟨[], []⟩
      List.nodup_nil deep
  have queries : after.queries.flatten = new := closes.queries
  refine ⟨dependencies, after, returns, ?_, ?_, closes.mem_dependencies⟩
  · rw [queries]
    exact closes.unique List.nodup_nil
  · rw [queries]
    exact closes.mem_iff

/-- A `make` that prints the dependencies of its goals. -/
def makeOf (config : Configuration) : Run := fun command =>
  (0, (command.drop 3).flatMap fun goal =>
    config.line (goal.take (goal.length - "-show-depends".toList.length)) ++ ['\n'])

theorem shows_makeOf (config : Configuration) : Shows config (makeOf config) := by
  intro pkgs _ _
  have goals : (showDepends pkgs).drop 3 = pkgs.map fun pkg => pkg ++ "-show-depends".toList := rfl
  rw [makeOf, goals, List.flatMap_map]
  have goal : ∀ pkg : Package, (pkg ++ "-show-depends".toList).take
      ((pkg ++ "-show-depends".toList).length - "-show-depends".toList.length) = pkg := by
    intro pkg
    rw [List.length_append, Nat.add_sub_cancel, List.take_left]
  simp only [goal]

/-- Two packages that need each other, and one that one of them needs. -/
def mutualConfiguration : Configuration where
  packages := ["a".toList, "b".toList, "c".toList]
  depends pkg :=
    if pkg = "a".toList then ["b".toList]
    else if pkg = "b".toList then ["a".toList, "c".toList] else []
  closed := by decide
  word := by decide

theorem getAllDepends_closure_mutual :
    ∃ dependencies after,
      getAllDepends (makeOf mutualConfiguration) id 4 ["a".toList] ⟨[], []⟩ =
        .ok (dependencies, after) ∧
      after.queries.flatten.Nodup ∧
      (∀ pkg, pkg ∈ after.queries.flatten ↔
        ∃ root ∈ ["a".toList], ReflTransGen mutualConfiguration.Needs root pkg) ∧
      ∀ pkg dep, (pkg, dep) ∈ dependencies ↔
        (∃ root ∈ ["a".toList], ReflTransGen mutualConfiguration.Needs root pkg) ∧
          mutualConfiguration.Needs pkg dep :=
  getAllDepends_closure mutualConfiguration (makeOf mutualConfiguration)
    (shows_makeOf mutualConfiguration) id (fun _ _ => Iff.rfl) ["a".toList] (by decide) 4
    (by decide)

end Buildroot4G.Depends
