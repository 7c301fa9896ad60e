/-
This file follows the edges of `support/scripts/graph-depends` from what make prints to the lines
of the graph. The main result says exactly when the graph is faithful: the names of the nodes
are the names of the packages without their dashes, so that two packages may become one node,
and a package that is listed twice among the targets or the dependencies is drawn twice.
-/

import Buildroot4G.Depends.Circular
import Buildroot4G.Depends.Closure
import Buildroot4G.Depends.Depth
import Buildroot4G.Depends.Reduction
import Buildroot4G.Shell.Python

namespace Buildroot4G.Depends

open Relation Shell

/-! ### The lines of a drawing -/

/-- The packages whose names are in what is written. -/
def Written.packages : Written → List Package
  | .attrs pkg => [pkg]
  | .edge pkg dep => [pkg, dep]

/-- The dependencies of a package in a dictionary. -/
def listOf (deps : Deps) (pkg : Package) : List Package := (deps.lookup pkg).getD []

theorem edge_iff_mem_listOf {deps : Deps} {pkg dep : Package} :
    Edge deps pkg dep ↔ dep ∈ listOf deps pkg := by
  rw [listOf]
  cases found : deps.lookup pkg with
  | none => exact iff_of_false (fun edge => by
      obtain ⟨list, same, -⟩ := edge
      cases found.symm.trans same) List.not_mem_nil
  | some list => exact edge_iff_of_lookup found

/-- A package was met by a part of the drawing. -/
def New (before after : Drawing) (pkg : Package) : Prop :=
  pkg ∈ after.doneDeps ∧ pkg ∉ before.doneDeps

instance (before after : Drawing) (pkg : Package) : Decidable (New before after pkg) :=
  inferInstanceAs (Decidable (_ ∧ _))

/-- What drawing from some packages adds: what they lead to, with all edges of each package that
was not met before. -/
structure Draws (deps : Deps) (roots : List Package) (before after : Drawing) : Prop where
  kept : ∀ pkg ∈ before.doneDeps, pkg ∈ after.doneDeps
  met : ∀ root ∈ roots, root ∈ after.doneDeps
  nodes : ∀ pkg, .attrs pkg ∈ after.outfile ↔ .attrs pkg ∈ before.outfile ∨ New before after pkg
  edges : ∀ pkg dep, after.outfile.count (.edge pkg dep) =
    before.outfile.count (.edge pkg dep) +
      if New before after pkg then (listOf deps pkg).count dep else 0
  closed : ∀ pkg, New before after pkg → ∀ dep ∈ listOf deps pkg, dep ∈ after.doneDeps
  reached : ∀ pkg, New before after pkg → ∃ root ∈ roots, ReflTransGen (Edge deps) root pkg

section Draws

variable {deps : Deps} {roots : List Package} {pkg : Package} {before middle after : Drawing}

theorem not_new_self (drawing : Drawing) (pkg : Package) : ¬ New drawing drawing pkg :=
  fun new => new.2 new.1

/-- A package that was met before is not drawn again. -/
theorem Draws.refl {drawing : Drawing} (met : ∀ root ∈ roots, root ∈ drawing.doneDeps) :
    Draws deps roots drawing drawing where
  kept _ member := member
  met := met
  nodes pkg := (or_iff_left (not_new_self drawing pkg)).symm
  edges pkg dep := by rw [if_neg (not_new_self drawing pkg), Nat.add_zero]
  closed pkg new := absurd new (not_new_self drawing pkg)
  reached pkg new := absurd new (not_new_self drawing pkg)

theorem New.cases (new : New before after pkg) (middle : Drawing) :
    New before middle pkg ∨ New middle after pkg := by
  by_cases early : pkg ∈ middle.doneDeps
  · exact Or.inl ⟨early, new.2⟩
  · exact Or.inr ⟨new.1, early⟩

/-- A package is met once. -/
theorem ite_new_add (kept : ∀ pkg ∈ before.doneDeps, pkg ∈ middle.doneDeps)
    (later : ∀ pkg ∈ middle.doneDeps, pkg ∈ after.doneDeps) (pkg : Package) (count : ℕ) :
    (if New before middle pkg then count else 0) + (if New middle after pkg then count else 0) =
      if New before after pkg then count else 0 := by
  by_cases early : pkg ∈ before.doneDeps
  · have inMiddle := kept pkg early
    simp [New, early, inMiddle]
  · by_cases inMiddle : pkg ∈ middle.doneDeps
    · simp [New, early, inMiddle, later pkg inMiddle]
    · simp [New, early, inMiddle]

theorem new_iff_or (kept : ∀ pkg ∈ before.doneDeps, pkg ∈ middle.doneDeps)
    (later : ∀ pkg ∈ middle.doneDeps, pkg ∈ after.doneDeps) (pkg : Package) :
    New before after pkg ↔ New before middle pkg ∨ New middle after pkg :=
  ⟨fun new => new.cases middle, fun either => either.elim
    (fun early => ⟨later pkg early.1, early.2⟩)
    fun late => ⟨late.1, fun early => late.2 (kept pkg early)⟩⟩

/-- In the middle of the loop over the dependencies of a package that was entered. -/
structure Drawing.InLoop (deps : Deps) (pkg : Package) (processed : List Package)
    (before after : Drawing) : Prop where
  kept : ∀ other ∈ before.doneDeps, other ∈ after.doneDeps
  met : ∀ dep ∈ processed, dep ∈ after.doneDeps
  nodes : ∀ other,
    .attrs other ∈ after.outfile ↔ .attrs other ∈ before.outfile ∨ New before after other
  own : ∀ dep, after.outfile.count (.edge pkg dep) =
    before.outfile.count (.edge pkg dep) + processed.count dep
  edges : ∀ other, other ≠ pkg → ∀ dep, after.outfile.count (.edge other dep) =
    before.outfile.count (.edge other dep) +
      if New before after other then (listOf deps other).count dep else 0
  closed : ∀ other, New before after other → ∀ dep ∈ listOf deps other, dep ∈ after.doneDeps
  reached : ∀ other, New before after other →
    ∃ root ∈ processed, ReflTransGen (Edge deps) root other

theorem Drawing.InLoop.start (deps : Deps) (pkg : Package) (drawing : Drawing) :
    Drawing.InLoop deps pkg [] drawing drawing where
  kept _ member := member
  met _ member := absurd member List.not_mem_nil
  nodes other := (or_iff_left (not_new_self drawing other)).symm
  own dep := by rw [List.count_nil, Nat.add_zero]
  edges other _ dep := by rw [if_neg (not_new_self drawing other), Nat.add_zero]
  closed other new := absurd new (not_new_self drawing other)
  reached other new := absurd new (not_new_self drawing other)

/-- The body of the loop. -/
theorem Drawing.InLoop.step {processed : List Package} {dep : Package}
    (loop : Drawing.InLoop deps pkg processed before middle) (here : pkg ∈ before.doneDeps)
    (draws : Draws deps [dep] ⟨middle.doneDeps, middle.outfile ++ [.edge pkg dep]⟩ after) :
    Drawing.InLoop deps pkg (processed ++ [dep]) before after := by
  have later : ∀ other ∈ middle.doneDeps, other ∈ after.doneDeps := draws.kept
  have newAfter : ∀ other, New middle after other →
      New ⟨middle.doneDeps, middle.outfile ++ [.edge pkg dep]⟩ after other := fun _ new => new
  refine ⟨fun other member => later other (loop.kept other member), ?_, ?_, ?_, ?_, ?_, ?_⟩
  · intro other member
    rcases List.mem_append.mp member with early | last
    · exact later other (loop.met other early)
    · exact draws.met other last
  · intro other
    have unwritten : .attrs other ∈ middle.outfile ++ [Written.edge pkg dep] ↔
        .attrs other ∈ middle.outfile := by
      simp
    rw [draws.nodes, unwritten, loop.nodes, new_iff_or loop.kept later other, or_assoc]
    rfl
  · intro other
    have notNew : ¬ New ⟨middle.doneDeps, middle.outfile ++ [.edge pkg dep]⟩ after pkg :=
      fun new => new.2 (loop.kept pkg here)
    rw [draws.edges, if_neg notNew, Nat.add_zero, List.count_append, loop.own, List.count_append,
      Nat.add_assoc]
    congr 2
    rw [List.count_singleton, List.count_singleton]
    simp
  · intro other different other'
    have unwritten : (middle.outfile ++ [Written.edge pkg dep]).count (.edge other other') =
        middle.outfile.count (.edge other other') := by
      rw [List.count_append, List.count_singleton]
      simp [Ne.symm different]
    rw [draws.edges, unwritten, loop.edges other different, Nat.add_assoc,
      ← ite_new_add loop.kept later other]
    rfl
  · intro other new next member
    rcases new.cases middle with early | late
    · exact later next (loop.closed other early next member)
    · exact draws.closed other (newAfter other late) next member
  · intro other new
    rcases new.cases middle with early | late
    · obtain ⟨root, isRoot, path⟩ := loop.reached other early
      exact ⟨root, List.mem_append_left _ isRoot, path⟩
    · obtain ⟨root, isRoot, path⟩ := draws.reached other (newAfter other late)
      exact ⟨root, List.mem_append_right _ isRoot, path⟩

/-- The end of the loop. -/
theorem Drawing.InLoop.close {drawing : Drawing} (unmet : pkg ∉ drawing.doneDeps)
    (loop : Drawing.InLoop deps pkg (listOf deps pkg)
      ⟨drawing.doneDeps ++ [pkg], drawing.outfile ++ [.attrs pkg]⟩ after) :
    Draws deps [pkg] drawing after := by
  have here : pkg ∈ after.doneDeps :=
    loop.kept pkg (List.mem_append_right _ (List.mem_singleton_self pkg))
  have newOther : ∀ other, other ≠ pkg →
      (New ⟨drawing.doneDeps ++ [pkg], drawing.outfile ++ [.attrs pkg]⟩ after other ↔
        New drawing after other) := by
    intro other different
    simp [New, different]
  have unwritten : ∀ other dep, (drawing.outfile ++ [Written.attrs pkg]).count (.edge other dep) =
      drawing.outfile.count (.edge other dep) := by
    intro other dep
    rw [List.count_append, List.count_singleton]
    simp
  refine ⟨fun other member => loop.kept other (List.mem_append_left _ member), ?_, ?_, ?_, ?_, ?_⟩
  · intro root isRoot
    rw [List.mem_singleton.mp isRoot]
    exact here
  · intro other
    rw [loop.nodes]
    by_cases same : other = pkg
    · subst same
      exact iff_of_true (Or.inl (List.mem_append_right _ (List.mem_singleton_self _)))
        (Or.inr ⟨here, unmet⟩)
    · rw [newOther other same]
      simp [same]
  · intro other dep
    by_cases same : other = pkg
    · rw [same, loop.own, unwritten, if_pos ⟨here, unmet⟩]
    · rw [loop.edges other same, unwritten]
      simp only [newOther other same]
  · intro other new dep member
    by_cases same : other = pkg
    · exact loop.met dep (same ▸ member)
    · exact loop.closed other ((newOther other same).mpr new) dep member
  · intro other new
    refine ⟨pkg, List.mem_singleton_self pkg, ?_⟩
    by_cases same : other = pkg
    · rw [same]
    · obtain ⟨root, isRoot, path⟩ := loop.reached other ((newOther other same).mpr new)
      exact path.head (edge_iff_mem_listOf.mpr isRoot)

end Draws

/-- Options that draw the whole graph: no package to stop at or to exclude, and no limit. -/
structure Options.DrawsAll (options : Options) : Prop where
  stopList : options.stopList = []
  excludeList : options.excludeList = []
  maxDepth : options.maxDepth = 0

theorem Options.applies_nil {options : Options} (pkg : Package) :
    options.applies [] pkg = false := by
  simp [Options.applies]

/-- Drawing from a package, with the recursion limit above the number of packages that are left. -/
theorem printPkgDeps_draws {options : Options} (all : options.DrawsAll) {deps : Deps}
    {limit : ℕ} (depth : ℕ) (pkg : Package) {drawing : Drawing}
    (enough : undone deps drawing < limit) :
    Fold.Meets (Draws deps [pkg] drawing) (fun _ => False)
      (printPkgDeps options deps limit depth pkg drawing) := by
  have stops : ∀ pkg, options.stops pkg = false := fun pkg => by
    rw [Options.stops, all.stopList, Options.applies_nil]
  have excludes : ∀ pkg, options.excludes pkg = false := fun pkg => by
    rw [Options.excludes, all.excludeList, Options.applies_nil]
  induction limit generalizing depth pkg drawing with
  | zero => exact absurd enough (Nat.not_lt_zero _)
  | succ limit inductionHypothesis =>
    rw [printPkgDeps]
    by_cases met : pkg ∈ drawing.doneDeps
    · rw [if_pos met]
      exact Draws.refl (List.forall_mem_singleton.mpr met)
    · rw [if_neg met]
      let entering : Drawing := ⟨drawing.doneDeps ++ [pkg], drawing.outfile ++ [.attrs pkg]⟩
      have here : pkg ∈ entering.doneDeps :=
        List.mem_append_right _ (List.mem_singleton_self pkg)
      have start := Drawing.InLoop.start deps pkg entering
      cases found : deps.lookup pkg with
      | none =>
        have none : listOf deps pkg = [] := by rw [listOf, found, Option.getD_none]
        refine Drawing.InLoop.close met ?_
        rw [none]
        exact start
      | some list =>
        have same : listOf deps pkg = list := by rw [listOf, found, Option.getD_some]
        simp only [stops, excludes, all.maxDepth, true_or, if_true, Bool.false_eq_true, if_false]
        have key : pkg ∈ deps.keys := mem_keys_of_lookup found
        refine (Fold.meets_foldlM (fun processed state =>
          Drawing.InLoop deps pkg processed entering state) start ?_).mono ?_ fun _ => id
        · intro processed dep rest state _ loop
          have fewer : undone deps ⟨state.doneDeps, state.outfile ++ [.edge pkg dep]⟩ < limit := by
            have entered : undone deps entering < undone deps drawing :=
              undone_lt (fun other => List.mem_append_left _) key met here
            exact (undone_le loop.kept).trans_lt
              (Nat.lt_of_lt_of_le entered (Nat.le_of_lt_succ enough))
          exact (inductionHypothesis (depth + 1) dep fewer).mono
            (fun _ draws => loop.step here draws) fun _ => id
        · intro state loop
          exact Drawing.InLoop.close met (same.symm ▸ loop)

/-- The drawing has what the root leads to, with all edges as often as they are listed. -/
theorem drawGraph_draws {options : Options} (all : options.DrawsAll) {deps : Deps} {limit : ℕ}
    (above : deps.keys.length < limit) :
    ∃ drawing, drawGraph options limit deps = .ok drawing ∧
      (∀ pkg, .attrs pkg ∈ drawing.outfile ↔ ReflTransGen (Edge deps) options.rootpkg pkg) ∧
      (∀ record ∈ drawing.outfile, ∀ pkg ∈ record.packages, .attrs pkg ∈ drawing.outfile) ∧
      ∀ pkg dep, drawing.outfile.count (.edge pkg dep) =
        if .attrs pkg ∈ drawing.outfile then (listOf deps pkg).count dep else 0 := by
  have enough : undone deps ⟨[], []⟩ < limit := List.countP_le_length.trans_lt above
  obtain ⟨drawing, isDrawn, draws⟩ := Fold.exists_of_meets
    (printPkgDeps_draws all 0 options.rootpkg enough)
  have new : ∀ pkg, New ⟨[], []⟩ drawing pkg ↔ pkg ∈ drawing.doneDeps := fun pkg =>
    and_iff_left List.not_mem_nil
  have node : ∀ pkg, .attrs pkg ∈ drawing.outfile ↔ pkg ∈ drawing.doneDeps := fun pkg =>
    (draws.nodes pkg).trans ((or_iff_right List.not_mem_nil).trans (new pkg))
  have edges : ∀ pkg dep, drawing.outfile.count (.edge pkg dep) =
      if .attrs pkg ∈ drawing.outfile then (listOf deps pkg).count dep else 0 := by
    intro pkg dep
    have written := draws.edges pkg dep
    rw [List.count_nil, Nat.zero_add] at written
    rw [written]
    simp only [node, new]
  refine ⟨drawing, isDrawn, fun pkg => ?_, fun record written => ?_, edges⟩
  · rw [node]
    refine ⟨fun member => ?_, fun path => ?_⟩
    · obtain ⟨root, isRoot, path⟩ := draws.reached pkg ((new pkg).mpr member)
      rwa [List.mem_singleton.mp isRoot] at path
    · induction path with
      | refl => exact draws.met _ (List.mem_singleton_self _)
      | tail _ edge inductionHypothesis =>
        exact draws.closed _ ((new _).mpr inductionHypothesis) _ (edge_iff_mem_listOf.mp edge)
  · cases record with
    | attrs pkg => exact List.forall_mem_singleton.mpr written
    | edge pkg dep =>
      have often := List.count_pos_iff.mpr written
      rw [edges] at often
      by_cases drawn : .attrs pkg ∈ drawing.outfile
      · rw [if_pos drawn] at often
        refine List.forall_mem_cons.mpr ⟨drawn, List.forall_mem_singleton.mpr ((node dep).mpr ?_)⟩
        exact draws.closed pkg ((new pkg).mpr ((node pkg).mp drawn)) dep
          (List.count_pos_iff.mp often)
      · rw [if_neg drawn] at often
        exact absurd often (Nat.lt_irrefl 0)

/-! ### The lists of a dictionary -/

theorem listOf_addDep (dict : Deps) (dep : Package × Package) (pkg : Package) :
    listOf (addDep dict dep) pkg = listOf dict pkg ++ if dep.1 = pkg then [dep.2] else [] := by
  obtain ⟨source, target⟩ := dep
  have entered : ∃ list, (if source ∈ dict then dict else dict.set source []).lookup source =
      some list ∧ ∀ pkg, listOf (if source ∈ dict then dict else dict.set source []) pkg =
        listOf dict pkg := by
    by_cases known : source ∈ dict
    · obtain ⟨list, found⟩ := Option.isSome_iff_exists.mp (AList.lookup_isSome.mpr known)
      rw [if_pos known]
      exact ⟨list, found, fun _ => rfl⟩
    · rw [if_neg known]
      refine ⟨[], dict.lookup_set_self source [], fun pkg => ?_⟩
      rw [listOf, listOf]
      by_cases same : pkg = source
      · rw [same, Dict.lookup_set_self, AList.lookup_eq_none.mpr known]
        rfl
      · rw [Dict.lookup_set_of_ne dict [] same]
  obtain ⟨list, found, lists⟩ := entered
  rw [addDep]
  simp only [found]
  rw [← lists pkg, listOf, lookup_replace found]
  by_cases same : source = pkg
  · subst same
    rw [if_pos rfl, if_pos rfl, listOf, found]
    rfl
  · rw [if_neg (Ne.symm same), if_neg same, List.append_nil]
    rfl

/-- A dictionary has the dependencies of a package in the order of the list, as often as they are
on it. -/
theorem listOf_dictDeps (dependencies : List (Package × Package)) (pkg : Package) :
    listOf (dictDeps dependencies) pkg =
      (dependencies.filter fun dep => dep.1 = pkg).map Prod.snd := by
  have general : ∀ (rest : List (Package × Package)) dict, listOf (rest.foldl addDep dict) pkg =
      listOf dict pkg ++ (rest.filter fun dep => dep.1 = pkg).map Prod.snd := by
    intro rest
    induction rest with
    | nil => exact fun dict => (List.append_nil _).symm
    | cons head rest inductionHypothesis =>
      intro dict
      rw [List.foldl_cons, inductionHypothesis, listOf_addDep, List.append_assoc,
        List.filter_cons]
      by_cases same : head.1 = pkg <;> simp [same]
  exact general dependencies ∅

theorem listOf_changed {change : Package → List Package → List Package} {before after : Deps}
    (changed : Changed change before.keys before after) (pkg : Package)
    (stays : change pkg [] = []) : listOf after pkg = change pkg (listOf before pkg) := by
  rw [listOf, listOf, changed.lookup_eq]
  cases before.lookup pkg with
  | none => exact stays.symm
  | some list => rfl

/-- The edges of one package. -/
theorem filter_edgesFrom (source pkg : Package) (list : List Package) :
    ((list.map fun dep => (source, dep)).filter fun dep => dep.1 = pkg).map Prod.snd =
      if source = pkg then list else [] := by
  rw [List.filter_map, List.map_map]
  by_cases same : source = pkg <;> simp [same, Function.comp_def]

/-- The edges of some packages, in a list without repetitions. -/
theorem filter_edges {config : Configuration} {new : List Package} (unique : new.Nodup)
    (pkg : Package) :
    ((new.flatMap config.edges).filter fun dep => dep.1 = pkg).map Prod.snd =
      if pkg ∈ new then config.depends pkg else [] := by
  induction new with
  | nil => rfl
  | cons first rest inductionHypothesis =>
    obtain ⟨outside, uniqueRest⟩ := List.nodup_cons.mp unique
    rw [List.flatMap_cons, List.filter_append, List.map_append, Configuration.edges,
      filter_edgesFrom, inductionHypothesis uniqueRest]
    by_cases same : first = pkg
    · subst same
      simp [outside]
    · simp [same, Ne.symm same]

/-! ### The script -/

/-- What is drawn: the graph of all targets, or of a package. -/
inductive Mode where
  | full (targets : List Package)
  | package (rootpkg : Package)
  deriving DecidableEq, Repr

def targetExceptions : List Package := ["target-finalize".toList, "target-post-image".toList]

/-- `filtered_targets`. -/
def filteredTargets (targets : List Package) : List Package :=
  targets.filter fun tg => tg ∉ targetExceptions

def Mode.rootpkg : Mode → Package
  | .full _ => "all".toList
  | .package rootpkg => rootpkg

/-- The edges that the script collects. -/
def Mode.dependencies (run : Run) (order : List Package → List Package) (limit : ℕ) :
    Mode → Except Stop (List (Package × Package))
  | .full targets => do
    let filtered := filteredTargets targets
    let (deps, _) ← getAllDepends run order limit filtered ⟨["all".toList], []⟩
    .ok (filtered.map (fun tg => ("all".toList, tg)) ++ deps)
  | .package rootpkg => do
    let (deps, _) ← getAllDepends run order limit [rootpkg] ⟨[], []⟩
    .ok deps

def Options.withMode (options : Options) (mode : Mode) : Options :=
  { options with
    modePkg := match mode with
      | .full _ => false
      | .package _ => true
    rootpkg := mode.rootpkg }

/-- The script, with the versions that make prints as part of the options. -/
def graphDepends (run : Run) (order : List Package → List Package) (limit : ℕ) (transitive : Bool)
    (mode : Mode) (options : Options) : Except Stop Drawing := do
  let dependencies ← mode.dependencies run order limit
  let deps := dictDeps dependencies
  checkCircularDeps limit deps
  let deps ← removeExtraDeps limit transitive deps
  drawGraph (options.withMode mode) limit deps

/-! ### The dependencies that remain -/

section Remains

variable (config : Configuration) (mode : Mode)

/-- The packages the script asks make about, and the node of all targets. -/
def Mode.Asked (pkg : Package) : Prop :=
  match mode with
  | .full targets =>
    pkg = "all".toList ∨ ∃ tg ∈ filteredTargets targets, ReflTransGen config.Needs tg pkg
  | .package rootpkg => ReflTransGen config.Needs rootpkg pkg

/-- What is listed for a package: the targets, or what make prints. -/
def Mode.list (pkg : Package) : List Package :=
  match mode with
  | .full targets => if pkg = "all".toList then filteredTargets targets else config.depends pkg
  | .package _ => config.depends pkg

/-- The dependencies the script knows. -/
def Mode.Knows (pkg dep : Package) : Prop := mode.Asked config pkg ∧ dep ∈ mode.list config pkg

/-- The dependencies that are not on a mandatory package. -/
def Mode.Kept (pkg dep : Package) : Prop :=
  mode.Knows config pkg dep ∧
    (pkg = "all".toList ∨ dep ∉ ["toolchain".toList, "skeleton".toList])

/-- The dependencies that remain after the reductions. -/
def Mode.Remains (transitive : Bool) (pkg dep : Package) : Prop :=
  mode.Kept config pkg dep ∧ (transitive = true ∧ pkg ≠ "all".toList ∨
    ∀ other, mode.Kept config pkg other → ¬TransGen (mode.Kept config) other dep)

/-- The targets and what they lead to are packages, and `all` is not one. -/
def Mode.Known : Prop :=
  match mode with
  | .full targets => (∀ tg ∈ filteredTargets targets, tg ∈ config.packages) ∧
    "all".toList ∉ config.packages
  | .package rootpkg => rootpkg ∈ config.packages

end Remains

/-! ### The collected edges -/

section Collected

variable {config : Configuration} {run : Run} {order : List Package → List Package}

/-- What packages of the configuration lead to are packages of it. -/
theorem Configuration.known_of_path {root pkg : Package} (known : root ∈ config.packages)
    (path : ReflTransGen config.Needs root pkg) : pkg ∈ config.packages := by
  induction path with
  | refl => exact known
  | tail _ edge inductionHypothesis => exact config.closed _ inductionHypothesis _ edge

/-- The new packages are those that the roots lead to, when what was known before is no package of
the configuration. -/
theorem Closes.mem_iff_of_known {roots new : List Package} {before after : Visited}
    {dependencies : List (Package × Package)}
    (closes : Closes config roots before after dependencies new)
    (known : ∀ root ∈ roots, root ∈ config.packages)
    (outside : ∀ pkg ∈ before.allpkgs, pkg ∉ config.packages) (pkg : Package) :
    pkg ∈ new ↔ ∃ root ∈ roots, ReflTransGen config.Needs root pkg := by
  refine ⟨closes.reached pkg, ?_⟩
  have later : ∀ other, other ∈ config.packages → other ∈ before.allpkgs ++ new → other ∈ new :=
    fun other isKnown member => (List.mem_append.mp member).resolve_left
      fun early => outside other early isKnown
  rintro ⟨root, isRoot, path⟩
  induction path with
  | refl => exact later root (known root isRoot) (closes.covers root isRoot)
  | tail path edge inductionHypothesis =>
    have isKnown := config.closed _ (Configuration.known_of_path (known root isRoot) path) _ edge
    exact later _ isKnown (closes.closed _ inductionHypothesis _ edge)

/-- What the script collects: what is listed for the packages it asks about. -/
structure Collects (config : Configuration) (mode : Mode)
    (dependencies : List (Package × Package)) : Prop where
  asked : ∀ pkg, mode.Asked config pkg →
    listOf (dictDeps dependencies) pkg = mode.list config pkg
  others : ∀ pkg, ¬ mode.Asked config pkg → listOf (dictDeps dependencies) pkg = []
  length : (dictDeps dependencies).keys.length ≤ config.packages.length + 1

/-- The number of keys, when they are `all` and packages of the configuration. -/
theorem length_keys_dictDeps_le {dependencies : List (Package × Package)}
    (known : ∀ edge ∈ dependencies, edge.1 ∈ "all".toList :: config.packages) :
    (dictDeps dependencies).keys.length ≤ config.packages.length + 1 := by
  have sub : ∀ pkg ∈ (dictDeps dependencies).keys, pkg ∈ "all".toList :: config.packages := by
    intro pkg key
    obtain ⟨dep, member⟩ := exists_edge_of_mem_keys key
    exact known (pkg, dep) member
  exact ((AList.keys_nodup (dictDeps dependencies)).subperm sub).length_le

/-- Asking for packages of the configuration, from packages that are none of it. -/
theorem getAllDepends_known (shows : Shows config run) (lists : Lists order) {limit : ℕ}
    {roots : List Package} (known : ∀ root ∈ roots, root ∈ config.packages) {allpkgs : List Package}
    (unique : allpkgs.Nodup) (outside : ∀ pkg ∈ allpkgs, pkg ∉ config.packages)
    (above : config.packages.length < limit) :
    ∃ (after : Visited) (new : List Package), getAllDepends run order limit roots ⟨allpkgs, []⟩ =
        .ok (new.flatMap config.edges, after) ∧
      new.Nodup ∧ (∀ pkg ∈ allpkgs, pkg ∉ new) ∧
      ∀ pkg, pkg ∈ new ↔ ∃ root ∈ roots, ReflTransGen config.Needs root pkg := by
  have deep : config.unknown allpkgs < limit :=
    Nat.lt_of_le_of_lt (List.length_filter_le _ _) above
  obtain ⟨dependencies, after, new, returns, closes⟩ :=
    @getAllDepends_closes config run shows order lists limit roots known ⟨allpkgs, []⟩ unique deep
  obtain ⟨_, uniqueNew, apart⟩ := List.nodup_append.mp (closes.unique unique)
  refine ⟨after, new, ?_, uniqueNew, fun pkg early late => apart pkg early pkg late rfl,
    closes.mem_iff_of_known known outside⟩
  rw [returns, closes.dependencies]

/-- The edges of packages that packages of the configuration lead to start at packages of it. -/
theorem source_mem_of_edges {roots new : List Package}
    (known : ∀ root ∈ roots, root ∈ config.packages)
    (reached : ∀ pkg, pkg ∈ new ↔ ∃ root ∈ roots, ReflTransGen config.Needs root pkg) :
    ∀ edge ∈ new.flatMap config.edges, edge.1 ∈ "all".toList :: config.packages := by
  intro edge member
  obtain ⟨pkg, isNew, isEdge⟩ := List.mem_flatMap.mp member
  obtain ⟨dep, _, rfl⟩ := List.mem_map.mp isEdge
  obtain ⟨root, isRoot, path⟩ := (reached pkg).mp isNew
  exact List.mem_cons_of_mem _ (Configuration.known_of_path (known root isRoot) path)

/-- The script collects the edges. -/
theorem Mode.dependencies_collects (shows : Shows config run) (lists : Lists order) {limit : ℕ}
    (above : config.packages.length < limit) {mode : Mode} (known : mode.Known config) :
    ∃ dependencies, mode.dependencies run order limit = .ok dependencies ∧
      Collects config mode dependencies := by
  cases mode with
  | full targets =>
    obtain ⟨targetsKnown, outside⟩ := known
    have allOutside : ∀ pkg ∈ ["all".toList], pkg ∉ config.packages :=
      List.forall_mem_singleton.mpr outside
    obtain ⟨after, new, returns, uniqueNew, apart, reached⟩ := getAllDepends_known shows lists
      targetsKnown (List.nodup_singleton "all".toList) allOutside above
    have allNotNew := apart "all".toList (List.mem_singleton_self _)
    let own := (filteredTargets targets).map fun tg => ("all".toList, tg)
    have lists : ∀ pkg, listOf (dictDeps (own ++ new.flatMap config.edges)) pkg =
        (if "all".toList = pkg then filteredTargets targets else []) ++
          if pkg ∈ new then config.depends pkg else [] := by
      intro pkg
      rw [listOf_dictDeps, List.filter_append, List.map_append, filter_edges uniqueNew,
        filter_edgesFrom]
    refine ⟨own ++ new.flatMap config.edges, ?_, fun pkg asked => ?_, fun pkg notAsked => ?_, ?_⟩
    · rw [Mode.dependencies]
      simp only [returns]
      rfl
    · rw [lists, Mode.list]
      by_cases isAll : pkg = "all".toList
      · rw [if_pos isAll.symm, if_pos isAll, if_neg (isAll ▸ allNotNew), List.append_nil]
      · have isNew := (reached pkg).mpr (asked.resolve_left isAll)
        rw [if_neg (Ne.symm isAll), if_neg isAll, if_pos isNew, List.nil_append]
    · obtain ⟨notAll, notReached⟩ := not_or.mp notAsked
      rw [lists, if_neg (Ne.symm notAll), if_neg fun member => notReached ((reached pkg).mp member),
        List.append_nil]
    · refine length_keys_dictDeps_le fun edge member => ?_
      rcases List.mem_append.mp member with ofAll | later
      · obtain ⟨tg, _, rfl⟩ := List.mem_map.mp ofAll
        exact List.mem_cons_self
      · exact source_mem_of_edges targetsKnown reached edge later
  | package rootpkg =>
    have rootKnown : ∀ root ∈ [rootpkg], root ∈ config.packages :=
      List.forall_mem_singleton.mpr known
    obtain ⟨after, new, returns, unique, _, reached⟩ := getAllDepends_known shows lists rootKnown
      List.nodup_nil (fun _ member => absurd member List.not_mem_nil) above
    have reachedRoot : ∀ pkg, pkg ∈ new ↔ ReflTransGen config.Needs rootpkg pkg := fun pkg =>
      (reached pkg).trans (by simp)
    refine ⟨new.flatMap config.edges, ?_, fun pkg asked => ?_, fun pkg notAsked => ?_, ?_⟩
    · rw [Mode.dependencies]
      simp only [returns]
      rfl
    · rw [listOf_dictDeps, filter_edges unique, if_pos ((reachedRoot pkg).mpr asked), Mode.list]
    · rw [listOf_dictDeps, filter_edges unique,
        if_neg fun member => notAsked ((reachedRoot pkg).mp member)]
    · exact length_keys_dictDeps_le (source_mem_of_edges rootKnown reached)

/-- The dictionary has the dependencies the script knows. -/
theorem Collects.edge {mode : Mode} {dependencies : List (Package × Package)}
    (collects : Collects config mode dependencies) :
    Edge (dictDeps dependencies) = mode.Knows config := by
  funext pkg dep
  rw [edge_iff_mem_listOf, Mode.Knows]
  refine propext ?_
  by_cases asked : mode.Asked config pkg
  · rw [collects.asked pkg asked, and_iff_right asked]
  · rw [collects.others pkg asked]
    exact iff_of_false List.not_mem_nil fun both => asked both.1

end Collected

/-! ### The dictionary after the reductions -/

/-- What the reductions leave of the dependencies. -/
structure Reduces (config : Configuration) (mode : Mode) (transitive : Bool) (deps : Deps) :
    Prop where
  edge : Edge deps = mode.Remains config transitive
  count : ∀ pkg dep, mode.Remains config transitive pkg dep →
    (listOf deps pkg).count dep = (mode.list config pkg).count dep

/-- The dependencies that a first pass leaves. -/
theorem Collects.kept {config : Configuration} {mode : Mode}
    {dependencies : List (Package × Package)} (collects : Collects config mode dependencies)
    {mandatory : Deps}
    (changed : Changed withoutMandatory (dictDeps dependencies).keys (dictDeps dependencies)
      mandatory) : Edge mandatory = mode.Kept config := by
  funext pkg dep
  refine propext ?_
  have without : withoutMandatory pkg [] = [] := by
    rw [withoutMandatory]
    split <;> rfl
  rw [edge_iff_mem_listOf, listOf_changed changed pkg without, Mode.Kept, ← collects.edge,
    edge_iff_mem_listOf, withoutMandatory]
  by_cases isAll : pkg = "all".toList
  · rw [if_pos isAll, and_iff_left (Or.inl isAll)]
  · rw [if_neg isAll, List.mem_filter, or_iff_right isAll, decide_eq_true_iff]

/-- The dependencies that both passes leave. -/
theorem Collects.reduces {config : Configuration} {mode : Mode} {transitive : Bool}
    {dependencies : List (Package × Package)} (collects : Collects config mode dependencies)
    {mandatory result : Deps}
    (changed : Changed withoutMandatory (dictDeps dependencies).keys (dictDeps dependencies)
      mandatory)
    (reduced : Changed (withoutCovered transitive (Edge mandatory)) mandatory.keys mandatory
      result) : Reduces config mode transitive result := by
  classical
  have kept := collects.kept changed
  have without : ∀ pkg, withoutMandatory pkg [] = [] := fun pkg => by
    rw [withoutMandatory]
    split <;> rfl
  have uncoveredNil : ∀ pkg, withoutCovered transitive (Edge mandatory) pkg [] = [] := fun pkg => by
    rw [withoutCovered]
    split <;> rfl
  have lists : ∀ pkg, listOf result pkg = withoutCovered transitive (Edge mandatory) pkg
      (listOf mandatory pkg) := fun pkg => listOf_changed reduced pkg (uncoveredNil pkg)
  have same : Edge result = mode.Remains config transitive := by
    funext pkg dep
    refine propext ?_
    rw [edge_iff_mem_listOf, lists, withoutCovered, Mode.Remains, ← kept]
    by_cases covers : transitive = false ∨ pkg = "all".toList
    · have notKeeps : ¬ (transitive = true ∧ pkg ≠ "all".toList) := fun both =>
        covers.elim (fun isFalse => Bool.false_ne_true (isFalse.symm.trans both.1)) both.2
      rw [if_pos covers, mem_uncovered, or_iff_right notKeeps, edge_iff_mem_listOf]
      simp only [edge_iff_mem_listOf]
    · have keeps : transitive = true ∧ pkg ≠ "all".toList := by
        obtain ⟨notFalse, notAll⟩ := not_or.mp covers
        exact ⟨Bool.eq_true_of_not_eq_false notFalse, notAll⟩
      rw [if_neg covers, edge_iff_mem_listOf, and_iff_left (Or.inl keeps)]
  refine ⟨same, fun pkg dep remains => ?_⟩
  have member : dep ∈ listOf result pkg := edge_iff_mem_listOf.mp (same ▸ remains)
  have inMandatory : dep ∈ listOf mandatory pkg :=
    edge_iff_mem_listOf.mp (kept ▸ remains.1)
  have second : (listOf result pkg).count dep = (listOf mandatory pkg).count dep := by
    rw [lists, withoutCovered] at member ⊢
    split
    · rename_i covers
      rw [if_pos covers] at member
      rw [uncovered] at member ⊢
      exact List.count_filter (List.mem_filter.mp member).2
    · rfl
  have first : (listOf mandatory pkg).count dep =
      (listOf (dictDeps dependencies) pkg).count dep := by
    rw [listOf_changed changed pkg (without pkg), withoutMandatory] at inMandatory ⊢
    split
    · rfl
    · rename_i notAll
      rw [if_neg notAll] at inMandatory
      exact List.count_filter (List.mem_filter.mp inMandatory).2
  rw [second, first, collects.asked pkg remains.1.1.1]

/-! ### Nodes -/

def isDigit (c : Char) : Bool := decide ('0' ≤ c ∧ c ≤ '9')

/-- The characters an identifier of the language of the graph may start with. -/
def startsId (c : Char) : Bool :=
  decide ('a' ≤ c ∧ c ≤ 'z' ∨ 'A' ≤ c ∧ c ≤ 'Z' ∨ c = '_' ∨ 128 ≤ c.toNat)

/-- The keywords of the language, in any case. -/
def keywords : List Text :=
  ["node".toList, "edge".toList, "graph".toList, "digraph".toList, "subgraph".toList,
    "strict".toList]

def isIdentifier : Text → Bool
  | [] => false
  | first :: rest => startsId first && rest.all (fun c => startsId c || isDigit c) &&
      decide ((first :: rest).map Char.toLower ∉ keywords)

/-- A numeral without a sign. -/
def isNumeral (name : Text) : Bool :=
  name.any isDigit && name.all (fun c => isDigit c || c = '.') && decide (name.count '.' ≤ 1)

/-- What the language reads as the name of one node where it stands without quotes. -/
def IsNode (name : Text) : Prop := isIdentifier name = true ∨ isNumeral name = true

instance (name : Text) : Decidable (IsNode name) := inferInstanceAs (Decidable (_ ∨ _))

/-! ### The lines of the file -/

section Lines

theorem plain_of_isNode {name : Text} (isNode : IsNode name) : ' ' ∉ name ∧ '\n' ∉ name := by
  have chars : ∀ c ∈ name, (startsId c || isDigit c || decide (c = '.')) = true := by
    intro c member
    rcases isNode with identifier | numeral
    · cases name with
      | nil => cases member
      | cons first rest =>
        rw [isIdentifier, Bool.and_eq_true, Bool.and_eq_true, List.all_eq_true] at identifier
        rcases List.mem_cons.mp member with rfl | member
        · rw [identifier.1.1]
          rfl
        · rw [identifier.1.2 c member]
          rfl
    · rw [isNumeral, Bool.and_eq_true, Bool.and_eq_true, List.all_eq_true] at numeral
      rw [Bool.or_assoc, numeral.1.2 c member, Bool.or_true]
  exact ⟨fun member => absurd (chars _ member) (by decide),
    fun member => absurd (chars _ member) (by decide)⟩

theorem eq_of_append_blank {first second rest rest' : Text} (noBlank : ' ' ∉ first)
    (noBlank' : ' ' ∉ second) (same : first ++ ' ' :: rest = second ++ ' ' :: rest') :
    first = second ∧ rest = rest' := by
  have front : ∀ name tail : Text, ' ' ∉ name →
      (name ++ ' ' :: tail).takeWhile (fun c => c ≠ ' ') = name := by
    intro name tail lacks
    rw [List.takeWhile_append_of_pos, List.takeWhile_cons_of_neg (by decide), List.append_nil]
    exact fun c member => decide_eq_true fun isBlank => lacks (isBlank ▸ member)
  have fronts := congrArg (List.takeWhile fun c => c ≠ ' ') same
  rw [front first rest noBlank, front second rest' noBlank'] at fronts
  rw [fronts] at same
  exact ⟨fronts, (List.cons.inj (List.append_cancel_left same)).2⟩

variable {options : Options} {record : Written} {pkg dep : Package}

theorem newline_not_mem_lines (plain : ∀ colour ∈ options.colours, '\n' ∉ colour)
    (nodes : ∀ other ∈ record.packages, IsNode (pkgNodeName other)) :
    ∀ line ∈ record.lines options, '\n' ∉ line := by
  have name : ∀ other ∈ record.packages, '\n' ∉ pkgNodeName other := fun other inside =>
    (plain_of_isNode (nodes other inside)).2
  cases record with
  | edge pkg dep =>
    have inName := name pkg List.mem_cons_self
    have inOther := name dep (List.mem_cons_of_mem pkg List.mem_cons_self)
    simp [Written.lines, edgeLine, inName, inOther]
  | attrs pkg =>
    have inName := name pkg List.mem_cons_self
    have inPkg : '\n' ∉ pkg := fun member => inName (List.mem_filter.mpr ⟨member, by decide⟩)
    have inLabel : '\n' ∉ if pkg = "all".toList then "ALL".toList else pkg := by
      split
      · decide
      · exact inPkg
    rw [Options.colours] at plain
    simp only [List.mem_cons, List.not_mem_nil, or_false, forall_eq_or_imp, forall_eq] at plain
    obtain ⟨root, target, host⟩ := plain
    rw [Written.lines, printAttrs]
    generalize (if pkg = "all".toList then "ALL".toList else pkg) = label at inLabel ⊢
    refine List.forall_mem_cons.mpr ⟨?_, List.forall_mem_singleton.mpr ?_⟩
    · split <;> simp [inName, inLabel]
    · split
      · simp [inName, root]
      · split <;> simp [inName, target, host]

/-- What is behind the first blank of a line tells an edge from a node. -/
theorem append_blank_ne_edgeLine (isNode : IsNode (pkgNodeName pkg)) {name rest : Text} {c : Char}
    (lacks : ' ' ∉ name) (noDash : c ≠ '-') : name ++ ' ' :: c :: rest ≠ edgeLine pkg dep := by
  intro same
  rw [edgeLine, List.append_assoc] at same
  have tails := (eq_of_append_blank lacks (plain_of_isNode isNode).1 same).2
  exact noDash (List.cons.inj tails).1

/-- What is written has the line of an edge once if it is the edge. -/
theorem count_edgeLine (nodes : ∀ other ∈ record.packages, IsNode (pkgNodeName other))
    (isNode : IsNode (pkgNodeName pkg))
    (distinct : ∀ other ∈ record.packages, ∀ own ∈ [pkg, dep],
      pkgNodeName other = pkgNodeName own → other = own) :
    (record.lines options).count (edgeLine pkg dep) = if record = .edge pkg dep then 1 else 0 := by
  cases record with
  | attrs other =>
    have lacks := (plain_of_isNode (nodes other List.mem_cons_self)).1
    rw [if_neg (by simp), Written.lines, printAttrs]
    have differs : ∀ rest : Text, pkgNodeName other ++ ' ' :: '[' :: rest ≠ edgeLine pkg dep :=
      fun rest => append_blank_ne_edgeLine isNode lacks (by decide)
    refine List.count_eq_zero.mpr fun isLine => ?_
    rcases List.mem_cons.mp isLine with isLabel | isColour
    · split at isLabel
      · exact differs _ (by rw [isLabel, List.append_assoc, List.append_assoc]; rfl)
      · exact differs _ (by rw [isLabel, List.append_assoc, List.append_assoc]; rfl)
    · rw [List.mem_singleton] at isColour
      exact differs _ (by rw [isColour, List.append_assoc, List.append_assoc]; rfl)
  | edge other other' =>
    have lacks := (plain_of_isNode (nodes other List.mem_cons_self)).1
    rw [Written.lines, List.count_singleton]
    have sameLine : edgeLine other other' = edgeLine pkg dep ↔
        Written.edge other other' = .edge pkg dep := by
      refine ⟨fun same => ?_, fun same => by cases same; rfl⟩
      rw [edgeLine, edgeLine, List.append_assoc, List.append_assoc] at same
      obtain ⟨sameName, rest⟩ := eq_of_append_blank lacks (plain_of_isNode isNode).1 same
      have sameOther : pkgNodeName other' = pkgNodeName dep :=
        @List.append_cancel_left _ "-> ".toList _ _ rest
      rw [distinct other List.mem_cons_self pkg List.mem_cons_self sameName,
        distinct other' (List.mem_cons_of_mem _ List.mem_cons_self) dep
          (List.mem_cons_of_mem _ List.mem_cons_self) sameOther]
    simp only [beq_iff_eq, sameLine]

/-- The file has the line of an edge as often as the edge is written. -/
theorem count_fileLines {drawing : Drawing} (plain : ∀ colour ∈ options.colours, '\n' ∉ colour)
    (nodes : ∀ record ∈ drawing.outfile, ∀ other ∈ record.packages, IsNode (pkgNodeName other))
    (isNode : IsNode (pkgNodeName pkg))
    (distinct : ∀ record ∈ drawing.outfile, ∀ other ∈ record.packages, ∀ own ∈ [pkg, dep],
      pkgNodeName other = pkgNodeName own → other = own) :
    (fileLines (drawing.text options)).count (edgeLine pkg dep) =
      drawing.outfile.count (.edge pkg dep) := by
  have lines : fileLines (drawing.text options) = drawing.lines options := by
    rw [Drawing.text, fileLines_flatMap (fun line => line), List.map_id']
    intro line isLine
    rcases List.mem_append.mp isLine with front | last
    · rcases List.mem_cons.mp front with rfl | body
      · decide
      · obtain ⟨record, written, inLines⟩ := List.mem_flatMap.mp body
        exact newline_not_mem_lines plain (nodes record written) line inLines
    · rw [List.mem_singleton.mp last]
      decide
  have first : "digraph G \x7b".toList ≠ edgeLine pkg dep :=
    append_blank_ne_edgeLine isNode (show ' ' ∉ "digraph".toList by decide) (by decide)
  have last : "\x7d".toList ≠ edgeLine pkg dep := by
    intro same
    have blank : ' ' ∈ edgeLine pkg dep := by simp [edgeLine]
    exact absurd (same ▸ blank) (by decide)
  rw [lines, Drawing.lines, List.count_append, List.count_cons_of_ne first,
    List.count_cons_of_ne last, List.count_nil, List.count_flatMap]
  generalize drawing.outfile = outfile at nodes distinct
  induction outfile with
  | nil => rfl
  | cons record rest inductionHypothesis =>
    obtain ⟨isNodes, restNodes⟩ := List.forall_mem_cons.mp nodes
    obtain ⟨isDistinct, restDistinct⟩ := List.forall_mem_cons.mp distinct
    have later := inductionHypothesis restNodes restDistinct
    rw [List.map_cons, List.sum_cons, Function.comp_apply,
      count_edgeLine isNodes isNode isDistinct, List.count_cons]
    simp only [beq_iff_eq]
    omega

end Lines

/-! ### Faithful graphs -/

/-- The graph is faithful: the packages that are drawn are nodes of their own, and the dependencies
that remain are drawn once, with a line each if no colour that is asked for breaks the lines. -/
structure Faithful (remains : Package → Package → Prop) (options : Options) (drawing : Drawing) :
    Prop where
  isNode : ∀ pkg, .attrs pkg ∈ drawing.outfile → IsNode (pkgNodeName pkg)
  distinct : ∀ pkg other, .attrs pkg ∈ drawing.outfile → .attrs other ∈ drawing.outfile →
    pkgNodeName pkg = pkgNodeName other → pkg = other
  once : ∀ pkg dep, remains pkg dep → drawing.outfile.count (.edge pkg dep) = 1
  line : (∀ colour ∈ options.colours, '\n' ∉ colour) → ∀ pkg dep, remains pkg dep →
    (fileLines (drawing.text options)).count (edgeLine pkg dep) = 1

/-- What makes the graph faithful: the names of the packages below the root are different without
their dashes, no package is listed twice, and none has dependencies left that is not below the
root. -/
structure Plain (remains : Package → Package → Prop) (root : Package)
    (list : Package → List Package) : Prop where
  isNode : ∀ pkg, ReflTransGen remains root pkg → IsNode (pkgNodeName pkg)
  distinct : ∀ pkg other, ReflTransGen remains root pkg → ReflTransGen remains root other →
    pkgNodeName pkg = pkgNodeName other → pkg = other
  reached : ∀ pkg dep, remains pkg dep → ReflTransGen remains root pkg
  once : ∀ pkg dep, remains pkg dep → (list pkg).count dep = 1

/-- A drawing of the dependencies that remain, each as often as it is listed. -/
theorem faithful_iff_plain {remains : Package → Package → Prop} {root : Package}
    {list : Package → List Package} {options : Options} {drawing : Drawing}
    (nodes : ∀ pkg, .attrs pkg ∈ drawing.outfile ↔ ReflTransGen remains root pkg)
    (ends : ∀ record ∈ drawing.outfile, ∀ pkg ∈ record.packages, .attrs pkg ∈ drawing.outfile)
    (edges : ∀ pkg dep, remains pkg dep → drawing.outfile.count (.edge pkg dep) =
      if .attrs pkg ∈ drawing.outfile then (list pkg).count dep else 0) :
    Faithful remains options drawing ↔ Plain remains root list := by
  constructor
  · intro faithful
    have drawn : ∀ pkg dep, remains pkg dep → .attrs pkg ∈ drawing.outfile := by
      intro pkg dep edge
      by_contra notDrawn
      have none := edges pkg dep edge
      rw [if_neg notDrawn, faithful.once pkg dep edge] at none
      exact absurd none Nat.one_ne_zero
    refine ⟨fun pkg path => faithful.isNode pkg ((nodes pkg).mpr path), ?_, ?_, ?_⟩
    · intro pkg other path path' same
      exact faithful.distinct pkg other ((nodes pkg).mpr path) ((nodes other).mpr path') same
    · exact fun pkg dep edge => (nodes pkg).mp (drawn pkg dep edge)
    · intro pkg dep edge
      rw [← faithful.once pkg dep edge, edges pkg dep edge, if_pos (drawn pkg dep edge)]
  · intro plain
    have isNode : ∀ pkg, .attrs pkg ∈ drawing.outfile → IsNode (pkgNodeName pkg) :=
      fun pkg drawn => plain.isNode pkg ((nodes pkg).mp drawn)
    have distinct : ∀ pkg other, .attrs pkg ∈ drawing.outfile → .attrs other ∈ drawing.outfile →
        pkgNodeName pkg = pkgNodeName other → pkg = other := fun pkg other drawn drawn' =>
      plain.distinct pkg other ((nodes pkg).mp drawn) ((nodes other).mp drawn')
    have once : ∀ pkg dep, remains pkg dep → drawing.outfile.count (.edge pkg dep) = 1 := by
      intro pkg dep edge
      rw [edges pkg dep edge, if_pos ((nodes pkg).mpr (plain.reached pkg dep edge)),
        plain.once pkg dep edge]
    refine ⟨isNode, distinct, once, fun plainColours pkg dep edge => ?_⟩
    have written : .edge pkg dep ∈ drawing.outfile :=
      List.count_pos_iff.mp (once pkg dep edge ▸ Nat.one_pos)
    have drawn := ends _ written
    rw [count_fileLines plainColours, once pkg dep edge]
    · exact fun record inFile other inside => isNode other (ends record inFile other inside)
    · exact isNode pkg (drawn pkg List.mem_cons_self)
    · exact fun record inFile other inside own isOwn =>
        distinct other own (ends record inFile other inside) (drawn own isOwn)

/-! ### The graph of a configuration -/

section Graph

variable {config : Configuration} {run : Run} {order : List Package → List Package} {limit : ℕ}
  {transitive : Bool} {mode : Mode} {options : Options}

variable (transitive) in
/-- The script draws the graph of acyclic dependencies. -/
theorem graphDepends_of_acyclic (shows : Shows config run) (lists : Lists order)
    (above : config.packages.length + 1 < limit) (known : mode.Known config)
    (all : options.DrawsAll) (acyclic : Digraph.Acyclic (mode.Knows config)) :
    ∃ drawing, graphDepends run order limit transitive mode options = .ok drawing ∧
      (∀ pkg, .attrs pkg ∈ drawing.outfile ↔
        ReflTransGen (mode.Remains config transitive) mode.rootpkg pkg) ∧
      (∀ record ∈ drawing.outfile, ∀ pkg ∈ record.packages, .attrs pkg ∈ drawing.outfile) ∧
      ∀ pkg dep, mode.Remains config transitive pkg dep →
        drawing.outfile.count (.edge pkg dep) =
          if .attrs pkg ∈ drawing.outfile then (mode.list config pkg).count dep else 0 := by
  obtain ⟨dependencies, collected, collects⟩ := Mode.dependencies_collects shows lists
    (Nat.lt_of_succ_lt above) known
  have short : (dictDeps dependencies).keys.length < limit := collects.length.trans_lt above
  have acyclicDeps : Digraph.Acyclic (Edge (dictDeps dependencies)) := collects.edge ▸ acyclic
  have checked : checkCircularDeps limit (dictDeps dependencies) = .ok () := by
    have meets := checkCircularDeps_meets (dictDeps dependencies) limit
    cases result : checkCircularDeps limit (dictDeps dependencies) with
    | ok _ => rfl
    | error stop =>
      rw [result] at meets
      rcases meets with ⟨_, pkg, cycle⟩ | ⟨_, long⟩
      · exact absurd cycle (acyclicDeps pkg)
      · exact absurd short (Nat.not_lt.mpr long)
  obtain ⟨mandatory, result, _, reducedOk, changed, reduced, _⟩ :=
    removeExtraDeps_changed transitive acyclicDeps short
  have reduces := collects.reduces changed reduced
  have keys : result.keys.length < limit := by
    rw [reduced.keys, changed.keys]
    exact short
  have allMode : (options.withMode mode).DrawsAll := ⟨all.stopList, all.excludeList, all.maxDepth⟩
  obtain ⟨drawing, isDrawn, nodes, ends, edges⟩ := drawGraph_draws allMode keys
  refine ⟨drawing, ?_, ?_, ends, ?_⟩
  · rw [graphDepends, collected]
    change (checkCircularDeps limit (dictDeps dependencies) >>= _) = _
    rw [checked]
    change (removeExtraDeps limit transitive (dictDeps dependencies) >>= _) = _
    rw [reducedOk]
    exact isDrawn
  · rw [← reduces.edge]
    exact nodes
  · intro pkg dep remains
    rw [edges, reduces.count pkg dep remains]

/-- The script draws no graph of dependencies with a cycle. -/
theorem acyclic_of_graphDepends (shows : Shows config run) (lists : Lists order)
    (above : config.packages.length + 1 < limit) (known : mode.Known config) {drawing : Drawing}
    (draws : graphDepends run order limit transitive mode options = .ok drawing) :
    Digraph.Acyclic (mode.Knows config) := by
  obtain ⟨dependencies, collected, collects⟩ := Mode.dependencies_collects shows lists
    (Nat.lt_of_succ_lt above) known
  rw [graphDepends, collected] at draws
  change (checkCircularDeps limit (dictDeps dependencies) >>= _) = _ at draws
  obtain ⟨_, checked, -⟩ := Fold.bind_eq_ok.mp draws
  have meets := checkCircularDeps_meets (dictDeps dependencies) limit
  rw [checked, collects.edge] at meets
  exact meets

end Graph

/-- Drawn without options that leave a part out, the graph of a configuration is faithful exactly
when its dependencies have a cycle, so that there is none, or it is plain. -/
theorem graphDepends_faithful_iff (config : Configuration) (run : Run) (shows : Shows config run)
    (order : List Package → List Package) (lists : Lists order) (limit : ℕ)
    (above : config.packages.length + 1 < limit) (transitive : Bool) (mode : Mode)
    (known : mode.Known config) (options : Options) (all : options.DrawsAll) :
    ((∃ drawing, graphDepends run order limit transitive mode options = .ok drawing) ↔
        Digraph.Acyclic (mode.Knows config)) ∧
      ((∀ drawing, graphDepends run order limit transitive mode options = .ok drawing →
          Faithful (mode.Remains config transitive) (options.withMode mode) drawing) ↔
        (Digraph.Acyclic (mode.Knows config) →
          Plain (mode.Remains config transitive) mode.rootpkg (mode.list config))) := by
  refine ⟨⟨fun ⟨_, draws⟩ => acyclic_of_graphDepends shows lists above known draws,
    fun acyclic => ?_⟩, fun faithful acyclic => ?_, fun plain drawing draws => ?_⟩
  · obtain ⟨drawing, draws, -⟩ :=
      graphDepends_of_acyclic transitive shows lists above known all acyclic
    exact ⟨drawing, draws⟩
  · obtain ⟨drawing, draws, nodes, ends, edges⟩ :=
      graphDepends_of_acyclic transitive shows lists above known all acyclic
    exact (faithful_iff_plain nodes ends edges).mp (faithful drawing draws)
  · have acyclic := acyclic_of_graphDepends shows lists above known draws
    obtain ⟨drawing', draws', nodes, ends, edges⟩ :=
      graphDepends_of_acyclic transitive shows lists above known all acyclic
    obtain rfl := Except.ok.inj (draws'.symm.trans draws)
    exact (faithful_iff_plain nodes ends edges).mpr (plain acyclic)

/-- Two packages whose names differ in a dash. -/
def dashConfiguration : Configuration where
  packages := ["a-b".toList, "ab".toList]
  depends _ := []
  closed := by simp
  word := by decide

def plainOptions : Options where
  modePkg := false
  rootpkg := []
  maxDepth := 0
  stopList := []
  excludeList := []
  rootColour := "lightblue".toList
  targetColour := "grey".toList
  hostColour := "gainsboro".toList
  dictVersion _ := none

theorem drawsAll_plainOptions : plainOptions.DrawsAll := ⟨rfl, rfl, rfl⟩

def dashMode : Mode := .full ["a-b".toList, "ab".toList]

theorem graphDepends_faithful_iff_dash :
    ((∃ drawing, graphDepends (makeOf dashConfiguration) id 4 false dashMode plainOptions =
        .ok drawing) ↔ Digraph.Acyclic (dashMode.Knows dashConfiguration)) ∧
      ((∀ drawing, graphDepends (makeOf dashConfiguration) id 4 false dashMode plainOptions =
          .ok drawing → Faithful (dashMode.Remains dashConfiguration false)
            (plainOptions.withMode dashMode) drawing) ↔
        (Digraph.Acyclic (dashMode.Knows dashConfiguration) →
          Plain (dashMode.Remains dashConfiguration false) dashMode.rootpkg
            (dashMode.list dashConfiguration))) :=
  graphDepends_faithful_iff dashConfiguration (makeOf dashConfiguration)
    (shows_makeOf dashConfiguration) id (fun _ _ => Iff.rfl) 4 (by decide) false dashMode
    ⟨by decide, by decide⟩ plainOptions drawsAll_plainOptions

/-- Both packages are drawn, as one node. -/
theorem graphDepends_merges_nodes :
    ∃ drawing, graphDepends (makeOf dashConfiguration) id 4 false dashMode plainOptions =
        .ok drawing ∧
      .attrs "a-b".toList ∈ drawing.outfile ∧ .attrs "ab".toList ∈ drawing.outfile ∧
      ¬ Faithful (dashMode.Remains dashConfiguration false) (plainOptions.withMode dashMode)
        drawing := by
  refine ⟨⟨["all".toList, "a-b".toList, "ab".toList],
    [.attrs "all".toList, .edge "all".toList "a-b".toList, .attrs "a-b".toList,
      .edge "all".toList "ab".toList, .attrs "ab".toList]⟩, rfl, by decide, by decide, ?_⟩
  intro faithful
  have same := faithful.distinct "a-b".toList "ab".toList (by decide) (by decide) (by decide)
  exact absurd same (by decide)

end Buildroot4G.Depends
