/-
This file models how `support/scripts/graph-depends` draws the graph: `print_pkg_deps` goes down
from the root, draws a package where it first meets it, and draws its dependencies there if
that is above the depth limit. The file proves when the packages that are drawn with their
dependencies are those that are closer to the root than the limit, whatever the order of
the lists: when no such package is met at the limit on a longer way.
-/

import Buildroot4G.Depends.Deps
import Buildroot4G.Fold

namespace Buildroot4G.Depends

open Relation Shell

/-! ### The options -/

/-- Whether a set of a pattern has a character: `a-c` stands for a range. -/
def inSet : Text → Char → Bool
  | low :: '-' :: high :: rest, c => decide (low ≤ c ∧ c ≤ high) || inSet rest c
  | other :: rest, c => decide (other = c) || inSet rest c
  | [], _ => false

/-- The set that a bracket opens, and what follows it; a `]` at its beginning is in the set. -/
def bracketSet (pattern : Text) : Option (Bool × Text × Text) :=
  let negated := pattern.head? = some '!'
  let stuff := if negated then pattern.tail else pattern
  let first := stuff.take (if stuff.head? = some ']' then 1 else 0)
  match (stuff.drop first.length).span fun c => c ≠ ']' with
  | (_, []) => none
  | (inside, _ :: rest) => some (negated, first ++ inside, rest)

/-- `fnmatch`, with the pattern first; the number bounds its length. -/
def fnmatchFrom : Nat → Text → Text → Bool
  | 0, _, name => name.isEmpty
  | _, [], name => name.isEmpty
  | bound + 1, '*' :: rest, name => name.tails.any (fnmatchFrom bound rest)
  | _, _ :: _, [] => false
  | bound + 1, '?' :: rest, _ :: name => fnmatchFrom bound rest name
  | bound + 1, '[' :: rest, c :: name =>
    match bracketSet rest with
    | none => decide (c = '[') && fnmatchFrom bound rest name
    | some (negated, set, rest) => (inSet set c != negated) && fnmatchFrom bound rest name
  | bound + 1, d :: rest, c :: name => decide (c = d) && fnmatchFrom bound rest name

def fnmatch (name pattern : Text) : Bool := fnmatchFrom pattern.length pattern name

/-- The options of the script, and the versions that make printed. -/
structure Options where
  modePkg : Bool
  rootpkg : Package
  maxDepth : Int
  stopList : List Text
  excludeList : List Text
  rootColour : Text
  targetColour : Text
  hostColour : Text
  dictVersion : Package → Option Text

namespace Options

variable (options : Options)

def isVirtual (pkg : Package) : Bool := decide (options.dictVersion pkg = some "virtual".toList)

/-- Whether one of the two lists applies to a package. -/
def applies (list : List Text) (pkg : Package) : Bool :=
  list.any (fnmatch pkg) || options.isVirtual pkg && decide ("virtual".toList ∈ list) ||
    "host-".toList.isPrefixOf pkg && decide ("host".toList ∈ list)

/-- The packages at which the script stops. -/
def stops (pkg : Package) : Bool := options.applies options.stopList pkg

/-- The packages that are not drawn. -/
def excludes (pkg : Package) : Bool := options.applies options.excludeList pkg

end Options

/-! ### The output -/

def pkgNodeName (pkg : Package) : Text := pkg.filter fun c => c ≠ '-'

/-- The three colours of the option `--colours`. -/
def Options.colours (options : Options) : List Text :=
  [options.rootColour, options.targetColour, options.hostColour]

/-- The lines that `print_attrs` writes. -/
def printAttrs (options : Options) (pkg : Package) : List Text :=
  let name := pkgNodeName pkg
  let label := if pkg = "all".toList then "ALL".toList else pkg
  let color :=
    if pkg = "all".toList ∨ options.modePkg ∧ pkg = options.rootpkg then options.rootColour
    else if ["host", "toolchain", "rootfs"].any fun start => start.toList.isPrefixOf pkg then
      options.hostColour
    else options.targetColour
  [if options.isVirtual pkg then name ++ " [label = <<I>".toList ++ label ++ "</I>>]".toList
    else name ++ " [label = \"".toList ++ label ++ "\"]".toList,
    name ++ " [color=".toList ++ color ++ ",style=filled]".toList]

def edgeLine (pkg dep : Package) : Text :=
  pkgNodeName pkg ++ " -> ".toList ++ pkgNodeName dep

/-- What is written for the graph: the attributes of a package, or an edge. -/
inductive Written where
  | attrs (pkg : Package)
  | edge (pkg dep : Package)
  deriving DecidableEq, Repr

def Written.lines (options : Options) : Written → List Text
  | .attrs pkg => printAttrs options pkg
  | .edge pkg dep => [edgeLine pkg dep]

/-- The packages that were met, and what was written. -/
structure Drawing where
  doneDeps : List Package
  outfile : List Written
  deriving DecidableEq, Repr

def Drawing.lines (options : Options) (drawing : Drawing) : List Text :=
  "digraph G \x7b".toList :: drawing.outfile.flatMap (Written.lines options) ++ ["\x7d".toList]

/-- The text of the file. -/
def Drawing.text (options : Options) (drawing : Drawing) : Text :=
  (drawing.lines options).flatMap fun line => line ++ ['\n']

/-- `print_pkg_deps`. -/
def printPkgDeps (options : Options) (deps : Deps) :
    Nat → Nat → Package → Drawing → Except Stop Drawing
  | 0, _, _, _ => .error .tooDeep
  | limit + 1, depth, pkg, drawing =>
    if pkg ∈ drawing.doneDeps then .ok drawing
    else
      let drawing := ⟨drawing.doneDeps ++ [pkg], drawing.outfile ++ [.attrs pkg]⟩
      match deps.lookup pkg with
      | none => .ok drawing
      | some list =>
        if options.stops pkg then .ok drawing
        else if options.maxDepth = 0 ∨ depth < options.maxDepth then
          list.foldlM
            (fun drawing d =>
              if options.excludes d then .ok drawing
              else printPkgDeps options deps limit (depth + 1) d
                ⟨drawing.doneDeps, drawing.outfile ++ [.edge pkg d]⟩)
            drawing
        else .ok drawing

/-- The graph from the root. -/
def drawGraph (options : Options) (limit : Nat) (deps : Deps) : Except Stop Drawing :=
  printPkgDeps options deps limit 0 options.rootpkg ⟨[], []⟩

/-! ### The packages within the limit -/

/-- The graph that is drawn: the dependencies the script does not exclude, of the packages it does
not stop at. -/
def Shown (options : Options) (deps : Deps) (pkg dep : Package) : Prop :=
  Edge deps pkg dep ∧ options.stops pkg = false ∧ options.excludes dep = false

/-- A package is closer to the root than the limit. -/
def Within (graph : Package → Package → Prop) (root : Package) (limit : ℕ) (pkg : Package) :
    Prop :=
  ∃ n < limit, Digraph.Steps graph n root pkg

/-- A package with dependencies is closer to the root than the limit, and at the limit on another
way. -/
def AtLimit (graph : Package → Package → Prop) (root : Package) (limit : ℕ) (pkg : Package) :
    Prop :=
  (∃ dep, graph pkg dep) ∧ Within graph root limit pkg ∧ Digraph.Steps graph limit root pkg

/-- The edges of a package that is met are drawn, and its dependencies are met. -/
def Complete (graph : Package → Package → Prop) (root : Package) (limit : ℕ) (drawing : Drawing)
    (pkg : Package) : Prop :=
  Within graph root limit pkg → ∀ dep, graph pkg dep →
    .edge pkg dep ∈ drawing.outfile ∧ dep ∈ drawing.doneDeps

/-- What drawing from a package adds, but for the dependencies of packages that are still being
drawn. -/
structure Extends (graph : Package → Package → Prop) (root : Package) (limit : ℕ)
    (busy : List Package) (before after : Drawing) : Prop where
  kept : ∀ pkg ∈ before.doneDeps, pkg ∈ after.doneDeps
  written : ∀ line ∈ before.outfile, line ∈ after.outfile
  sound : ∀ pkg dep, .edge pkg dep ∈ after.outfile →
    .edge pkg dep ∈ before.outfile ∨ graph pkg dep ∧ Within graph root limit pkg
  complete : (∀ pkg, ¬AtLimit graph root limit pkg) → ∀ pkg ∈ after.doneDeps,
    pkg ∉ before.doneDeps → pkg ∉ busy → Complete graph root limit after pkg

section Extends

variable {graph : Package → Package → Prop} {root : Package} {limit : ℕ} {busy : List Package}
  {before middle after : Drawing}

theorem Extends.refl (drawing : Drawing) : Extends graph root limit busy drawing drawing :=
  ⟨fun _ member => member, fun _ member => member, fun _ _ => Or.inl,
    fun _ _ met unmet => absurd met unmet⟩

theorem Extends.trans (first : Extends graph root limit busy before middle)
    (second : Extends graph root limit [] middle after) :
    Extends graph root limit busy before after := by
  refine ⟨fun pkg met => second.kept pkg (first.kept pkg met),
    fun line member => second.written line (first.written line member),
    fun pkg dep member => (second.sound pkg dep member).elim (first.sound pkg dep) Or.inr,
    fun noTie pkg met unmet notBusy => ?_⟩
  by_cases early : pkg ∈ middle.doneDeps
  · intro within dep edge
    obtain ⟨drawn, depMet⟩ := first.complete noTie pkg early unmet notBusy within dep edge
    exact ⟨second.written _ drawn, second.kept _ depMet⟩
  · exact second.complete noTie pkg met early List.not_mem_nil

/-- A package that is met is being drawn. -/
theorem Extends.enter (drawing : Drawing) (pkg : Package) :
    Extends graph root limit [pkg] drawing
      ⟨drawing.doneDeps ++ [pkg], drawing.outfile ++ [.attrs pkg]⟩ := by
  refine ⟨fun _ => List.mem_append_left _, fun _ => List.mem_append_left _,
    fun other dep member => ?_, fun _ other met unmet notBusy => ?_⟩
  · rcases List.mem_append.mp member with early | new
    · exact Or.inl early
    · cases List.mem_singleton.mp new
  · rcases List.mem_append.mp met with early | new
    · exact absurd early unmet
    · exact absurd new notBusy

/-- An edge of the package that is being drawn. -/
theorem Extends.draw {pkg dep : Package} (extends_ : Extends graph root limit [pkg] before middle)
    (within : Within graph root limit pkg) (edge : graph pkg dep) :
    Extends graph root limit [pkg] before
      ⟨middle.doneDeps, middle.outfile ++ [.edge pkg dep]⟩ := by
  refine ⟨extends_.kept, fun line member => List.mem_append_left _ (extends_.written line member),
    fun other dep' member => ?_, fun noTie other met unmet notBusy within' dep' edge' => ?_⟩
  · rcases List.mem_append.mp member with early | new
    · exact extends_.sound other dep' early
    · cases List.mem_singleton.mp new
      exact Or.inr ⟨edge, within⟩
  · obtain ⟨drawn, depMet⟩ :=
      extends_.complete noTie other met unmet notBusy within' dep' edge'
    exact ⟨List.mem_append_left _ drawn, depMet⟩

/-- A package that was drawn. -/
theorem Extends.close {pkg : Package} (extends_ : Extends graph root limit [pkg] before after)
    (complete : (∀ other, ¬AtLimit graph root limit other) → Complete graph root limit after pkg) :
    Extends graph root limit busy before after := by
  refine ⟨extends_.kept, extends_.written, extends_.sound, fun noTie other met unmet _ => ?_⟩
  by_cases same : other = pkg
  · rw [same]
    exact complete noTie
  · exact extends_.complete noTie other met unmet
      fun member => same (List.mem_singleton.mp member)

end Extends

/-! ### Drawing from a package -/

/-- The packages with dependencies that were not met yet. -/
def undone (deps : Deps) (drawing : Drawing) : ℕ :=
  deps.keys.countP fun key => decide (key ∉ drawing.doneDeps)

theorem undone_le {deps : Deps} {before after : Drawing}
    (kept : ∀ pkg ∈ before.doneDeps, pkg ∈ after.doneDeps) :
    undone deps after ≤ undone deps before := by
  refine List.countP_mono_left fun key _ unmet => ?_
  exact decide_eq_true fun early => of_decide_eq_true unmet (kept key early)

theorem undone_lt {deps : Deps} {before after : Drawing}
    (kept : ∀ pkg ∈ before.doneDeps, pkg ∈ after.doneDeps) {pkg : Package}
    (key : pkg ∈ deps.keys) (unmet : pkg ∉ before.doneDeps) (met : pkg ∈ after.doneDeps) :
    undone deps after < undone deps before := by
  obtain ⟨first, rest, whole⟩ := List.append_of_mem key
  have fewer : ∀ keys : List Package,
      keys.countP (fun key => decide (key ∉ after.doneDeps)) ≤
        keys.countP fun key => decide (key ∉ before.doneDeps) := fun keys =>
    List.countP_mono_left fun key _ still =>
      decide_eq_true fun early => of_decide_eq_true still (kept key early)
  rw [undone, undone, whole, List.countP_append, List.countP_append, List.countP_cons,
    List.countP_cons, if_neg (by simpa using met), if_pos (by simpa using unmet)]
  have := fewer first
  have := fewer rest
  omega

section Run

variable {options : Options} {deps : Deps} {D : ℕ}

/-- Drawing from a package that is met on a way from the root, with the recursion limit above the
number of packages that are left. -/
theorem printPkgDeps_meets (positive : 0 < D) (limited : options.maxDepth = D) {limit depth : ℕ}
    {pkg : Package} {drawing : Drawing} (enough : undone deps drawing < limit)
    (way : Digraph.Steps (Shown options deps) depth options.rootpkg pkg) (below : depth ≤ D) :
    Fold.Meets
      (fun after => pkg ∈ after.doneDeps ∧
        Extends (Shown options deps) options.rootpkg D [] drawing after)
      (fun _ => False) (printPkgDeps options deps limit depth pkg drawing) := by
  induction limit generalizing depth pkg drawing with
  | zero => exact absurd enough (Nat.not_lt_zero _)
  | succ limit inductionHypothesis =>
    rw [printPkgDeps]
    by_cases met : pkg ∈ drawing.doneDeps
    · rw [if_pos met]
      exact ⟨met, Extends.refl drawing⟩
    · rw [if_neg met]
      let entering : Drawing := ⟨drawing.doneDeps ++ [pkg], drawing.outfile ++ [.attrs pkg]⟩
      have entered : Extends (Shown options deps) options.rootpkg D [pkg] drawing entering :=
        Extends.enter drawing pkg
      have here : pkg ∈ drawing.doneDeps ++ [pkg] :=
        List.mem_append_right _ (List.mem_singleton_self pkg)
      cases found : deps.lookup pkg with
      | none =>
        refine ⟨here, entered.close fun _ _ dep shown => ?_⟩
        obtain ⟨list, same, _⟩ := shown.1
        rw [found] at same
        cases same
      | some list =>
        simp only
        cases stops : options.stops pkg with
        | true =>
          refine ⟨here, entered.close fun _ _ dep shown => ?_⟩
          cases stops.symm.trans shown.2.1
        | false =>
          rw [if_neg Bool.false_ne_true, limited]
          by_cases inside : depth < D
          · rw [if_pos (Or.inr (by exact_mod_cast inside))]
            have key : pkg ∈ deps.keys := mem_keys_of_lookup found
            have fewer : undone deps entering < limit :=
              Nat.lt_of_lt_of_le (undone_lt entered.kept key met here) (Nat.le_of_lt_succ enough)
            have within : Within (Shown options deps) options.rootpkg D pkg := ⟨depth, inside, way⟩
            refine (Fold.meets_foldlM (fun processed state =>
              (∀ other ∈ entering.doneDeps, other ∈ state.doneDeps) ∧
              Extends (Shown options deps) options.rootpkg D [pkg] drawing state ∧
              ∀ dep ∈ processed, options.excludes dep = false →
                .edge pkg dep ∈ state.outfile ∧ dep ∈ state.doneDeps)
              ⟨fun _ => id, entered, nofun⟩ ?_).mono ?_ fun _ => id
            · rintro processed dep rest state whole ⟨kept, extends_, drawn⟩
              cases excludes : options.excludes dep with
              | true =>
                refine ⟨kept, extends_, fun other member included => ?_⟩
                rcases List.mem_append.mp member with early | last
                · exact drawn other early included
                · rw [List.mem_singleton.mp last, excludes] at included
                  cases included
              | false =>
                have isDep : dep ∈ list := by
                  rw [whole]
                  exact List.mem_append_right processed List.mem_cons_self
                have shown : Shown options deps pkg dep := ⟨⟨list, found, isDep⟩, stops, excludes⟩
                let next : Drawing := ⟨state.doneDeps, state.outfile ++ [.edge pkg dep]⟩
                have fewerNext : undone deps next < limit := (undone_le kept).trans_lt fewer
                refine (inductionHypothesis fewerNext (way.tail shown) inside).mono ?_ fun _ => id
                rintro after ⟨met, later⟩
                refine ⟨fun other early => later.kept other (kept other early),
                  (extends_.draw within shown).trans later, fun other member included => ?_⟩
                rcases List.mem_append.mp member with early | last
                · obtain ⟨written, metOther⟩ := drawn other early included
                  exact ⟨later.written _ (List.mem_append_left _ written),
                    later.kept other metOther⟩
                · rw [List.mem_singleton.mp last]
                  exact ⟨later.written _ (List.mem_append_right _ List.mem_cons_self), met⟩
            · rintro after ⟨kept, extends_, drawn⟩
              refine ⟨kept pkg here, extends_.close fun _ _ dep shown => drawn dep ?_ shown.2.2⟩
              exact (edge_iff_of_lookup found).mp shown.1
          · rw [if_neg (by omega)]
            refine ⟨here, entered.close fun noTie within dep shown => ?_⟩
            have last : depth = D := by omega
            exact absurd ⟨⟨dep, shown⟩, within, last ▸ way⟩ (noTie pkg)

/-- From the root all packages within the limit are drawn with their dependencies, unless one is at
the limit as well. -/
theorem drawGraph_of_not_atLimit (positive : 0 < D) (limited : options.maxDepth = D) {limit : ℕ}
    (above : deps.keys.length < limit)
    (noTie : ∀ pkg, ¬AtLimit (Shown options deps) options.rootpkg D pkg) :
    ∃ drawing, drawGraph options limit deps = .ok drawing ∧ ∀ pkg dep,
      .edge pkg dep ∈ drawing.outfile ↔
        Shown options deps pkg dep ∧ Within (Shown options deps) options.rootpkg D pkg := by
  have enough : undone deps ⟨[], []⟩ < limit := List.countP_le_length.trans_lt above
  obtain ⟨drawing, draws, met, extends_⟩ := Fold.exists_of_meets
    (printPkgDeps_meets positive limited enough (.refl options.rootpkg) (Nat.zero_le D))
  have complete : ∀ pkg ∈ drawing.doneDeps,
      Complete (Shown options deps) options.rootpkg D drawing pkg := fun pkg isMet =>
    extends_.complete noTie pkg isMet List.not_mem_nil List.not_mem_nil
  have reached : ∀ n pkg dep, Digraph.Steps (Shown options deps) n pkg dep → ∀ depth,
      depth + n < D → Digraph.Steps (Shown options deps) depth options.rootpkg pkg →
      pkg ∈ drawing.doneDeps → dep ∈ drawing.doneDeps := by
    intro n pkg dep path
    induction path with
    | refl pkg => exact fun _ _ _ isMet => isMet
    | @head n pkg next dep first rest inductionHypothesis =>
      intro depth inside way isMet
      have nextMet := (complete pkg isMet ⟨depth, by omega, way⟩ next first).2
      exact inductionHypothesis (depth + 1) (by omega) (way.tail first) nextMet
  refine ⟨drawing, draws, fun pkg dep => ⟨fun drawn => ?_, fun ⟨shown, within⟩ => ?_⟩⟩
  · exact (extends_.sound pkg dep drawn).resolve_left List.not_mem_nil
  · obtain ⟨n, inside, path⟩ := within
    have isMet := reached n options.rootpkg pkg path 0 (by omega) (.refl options.rootpkg) met
    exact (complete pkg isMet ⟨n, inside, path⟩ dep shown).1

/-! ### A package that is met at the limit -/

/-- A package was met, and its dependencies were not drawn. -/
def Missed (pkg : Package) (drawing : Drawing) : Prop :=
  pkg ∈ drawing.doneDeps ∧ ∀ dep, .edge pkg dep ∉ drawing.outfile

theorem undrawn_attrs {pkg : Package} {outfile : List Written}
    (undrawn : ∀ dep, .edge pkg dep ∉ outfile) (other : Package) :
    ∀ dep, .edge pkg dep ∉ outfile ++ [.attrs other] := by
  intro dep member
  rcases List.mem_append.mp member with early | new
  · exact undrawn dep early
  · cases List.mem_singleton.mp new

theorem undrawn_edge {pkg other : Package} {outfile : List Written}
    (undrawn : ∀ dep, .edge pkg dep ∉ outfile) (different : pkg ≠ other) (next : Package) :
    ∀ dep, .edge pkg dep ∉ outfile ++ [.edge other next] := by
  intro dep member
  rcases List.mem_append.mp member with early | new
  · exact undrawn dep early
  · cases List.mem_singleton.mp new
    exact different rfl

/-- What was missed when it was met is not drawn later. -/
theorem missed_printPkgDeps {missed : Package} {limit depth : ℕ} {pkg : Package}
    {drawing after : Drawing} (isMissed : Missed missed drawing)
    (draws : printPkgDeps options deps limit depth pkg drawing = .ok after) :
    Missed missed after := by
  induction limit generalizing depth pkg drawing after with
  | zero => cases draws
  | succ limit inductionHypothesis =>
    rw [printPkgDeps] at draws
    by_cases met : pkg ∈ drawing.doneDeps
    · rw [if_pos met] at draws
      cases draws
      exact isMissed
    · rw [if_neg met] at draws
      have different : missed ≠ pkg := fun same => met (same ▸ isMissed.1)
      have entering : Missed missed
          ⟨drawing.doneDeps ++ [pkg], drawing.outfile ++ [.attrs pkg]⟩ :=
        ⟨List.mem_append_left _ isMissed.1, undrawn_attrs isMissed.2 pkg⟩
      cases found : deps.lookup pkg with
      | none =>
        rw [found] at draws
        cases draws
        exact entering
      | some list =>
        rw [found] at draws
        simp only at draws
        split at draws
        · cases draws
          exact entering
        · split at draws
          · refine Fold.invariant_of_foldlM (Missed missed)
              (fun dep _ before after step stays => ?_)
              draws entering
            split at step
            · cases step
              exact stays
            · have drawn : Missed missed ⟨before.doneDeps, before.outfile ++ [.edge pkg dep]⟩ :=
                ⟨stays.1, undrawn_edge stays.2 different dep⟩
              exact inductionHypothesis drawn step
          · cases draws
            exact entering

/-- The first dependency on the list of a package is drawn. -/
def First (options : Options) (deps : Deps) (pkg dep : Package) : Prop :=
  (∃ rest, deps.lookup pkg = some (dep :: rest)) ∧ options.stops pkg = false ∧
    options.excludes dep = false

theorem First.shown {pkg dep : Package} (first : First options deps pkg dep) :
    Shown options deps pkg dep := by
  obtain ⟨⟨rest, found⟩, stays, included⟩ := first
  exact ⟨⟨dep :: rest, found, List.mem_cons_self⟩, stays, included⟩

/-- The package that the first dependencies lead to is missed when it is at the limit. -/
theorem missed_of_first (acyclic : Digraph.Acyclic (Edge deps)) (positive : 0 < D)
    (limited : options.maxDepth = D) {n limit depth : ℕ} {pkg missed : Package}
    (path : Digraph.Steps (First options deps) n pkg missed) (atLimit : depth + n = D)
    {drawing after : Drawing} (before : ∀ met ∈ drawing.doneDeps, TransGen (Edge deps) met pkg)
    (undrawn : ∀ dep, .edge missed dep ∉ drawing.outfile)
    (draws : printPkgDeps options deps limit depth pkg drawing = .ok after) :
    Missed missed after := by
  induction path generalizing limit depth drawing after with
  | refl pkg =>
    have unmet : pkg ∉ drawing.doneDeps := fun met => acyclic pkg (before pkg met)
    cases limit with
    | zero => cases draws
    | succ limit =>
      rw [printPkgDeps, if_neg unmet, limited] at draws
      have entering : Missed pkg
          ⟨drawing.doneDeps ++ [pkg], drawing.outfile ++ [.attrs pkg]⟩ :=
        ⟨List.mem_append_right _ (List.mem_singleton_self pkg), undrawn_attrs undrawn pkg⟩
      cases found : deps.lookup pkg with
      | none =>
        rw [found] at draws
        cases draws
        exact entering
      | some list =>
        rw [found] at draws
        simp only at draws
        rw [if_neg (by omega : ¬((D : ℤ) = 0 ∨ (depth : ℤ) < D)), ite_self] at draws
        cases draws
        exact entering
  | @head n pkg next missed first rest inductionHypothesis =>
    have unmet : pkg ∉ drawing.doneDeps := fun met => acyclic pkg (before pkg met)
    have toMissed : TransGen (Edge deps) pkg missed :=
      TransGen.head' first.shown.1
        (ReflTransGen.mono (fun _ _ later => later.shown.1) _ _ rest.reflTransGen)
    have different : missed ≠ pkg := fun same => acyclic pkg (same ▸ toMissed)
    obtain ⟨⟨later, found⟩, stays, included⟩ := first
    cases limit with
    | zero => cases draws
    | succ limit =>
      rw [printPkgDeps, if_neg unmet, limited, found] at draws
      simp only [stays, Bool.false_eq_true, if_false] at draws
      rw [if_pos (by omega : (D : ℤ) = 0 ∨ (depth : ℤ) < D)] at draws
      obtain ⟨middle, step, loop⟩ := Fold.foldlM_cons_eq_ok.mp draws
      simp only [included, Bool.false_eq_true, if_false] at step
      have missedNext : Missed missed middle := by
        refine inductionHypothesis (by omega) (fun met isMet => ?_) ?_ step
        · have edge : Edge deps pkg next := ⟨next :: later, found, List.mem_cons_self⟩
          rcases List.mem_append.mp isMet with early | new
          · exact (before met early).tail edge
          · rw [List.mem_singleton.mp new]
            exact TransGen.single edge
        · exact undrawn_edge (undrawn_attrs undrawn pkg) different next
      refine Fold.invariant_of_foldlM (Missed missed) (fun dep _ before after step stays => ?_) loop
        missedNext
      split at step
      · cases step
        exact stays
      · have drawn : Missed missed ⟨before.doneDeps, before.outfile ++ [.edge pkg dep]⟩ :=
          ⟨stays.1, undrawn_edge stays.2 different dep⟩
        exact missed_printPkgDeps drawn step

end Run

/-! ### The order of the lists -/

/-- A path can be put first in the lists. -/
theorem exists_first (options : Options) {deps : Deps} (acyclic : Digraph.Acyclic (Edge deps))
    {n : ℕ} {pkg last : Package} (path : Digraph.Steps (Shown options deps) n pkg last) :
    ∃ ordered, SameUpToOrder deps ordered ∧ Digraph.Steps (First options ordered) n pkg last := by
  induction path with
  | refl pkg => exact ⟨deps, SameUpToOrder.refl deps, .refl pkg⟩
  | @head n pkg next last first rest inductionHypothesis =>
    obtain ⟨ordered, same, firsts⟩ := inductionHypothesis
    obtain ⟨⟨list, found, member⟩, stays, included⟩ := first
    have edge : Edge deps pkg next := ⟨list, found, member⟩
    obtain ⟨list', found', perm⟩ := same.exists_perm found
    have moved : (next :: list'.erase next).Perm list' :=
      (List.perm_cons_erase (perm.mem_iff.mp member)).symm
    refine ⟨ordered.replace pkg (next :: list'.erase next), same.replace found' moved, ?_⟩
    have here := lookup_replace found' (next :: list'.erase next) pkg
    rw [if_pos rfl] at here
    refine .head ⟨⟨_, here⟩, stays, included⟩ (firsts.of_edges fun other dep before later => ?_)
    -- the package is not met again, as the dependencies are acyclic
    have different : other ≠ pkg := by
      rintro rfl
      have back : ReflTransGen (Edge deps) next other := by
        rw [same.edge]
        exact ReflTransGen.mono (fun _ _ first => first.shown.1) _ _ before
      exact acyclic other (TransGen.head' edge back)
    obtain ⟨⟨tail, foundOther⟩, staysOther, includedDep⟩ := later
    refine ⟨⟨tail, ?_⟩, staysOther, includedDep⟩
    rw [lookup_replace found', if_neg different, foundOther]

/-! ### The depth limit -/

/-- The script draws the dependencies of exactly the packages within the limit, in any order of the
lists, if and only if no such package with dependencies is at the limit as well. -/
theorem drawsWithin_iff (options : Options) (deps : Deps)
    (acyclic : Digraph.Acyclic (Edge deps)) (D : ℕ) (positive : 0 < D)
    (limited : options.maxDepth = D) (limit : ℕ) (above : deps.keys.length < limit) :
    (∀ ordered, SameUpToOrder deps ordered →
      ∃ drawing, drawGraph options limit ordered = .ok drawing ∧ ∀ pkg dep,
        .edge pkg dep ∈ drawing.outfile ↔
          Shown options deps pkg dep ∧ Within (Shown options deps) options.rootpkg D pkg) ↔
      ∀ pkg, ¬AtLimit (Shown options deps) options.rootpkg D pkg := by
  have shown_eq : ∀ ordered, SameUpToOrder deps ordered →
      Shown options deps = Shown options ordered := by
    intro ordered same
    funext pkg dep
    rw [Shown, Shown, same.edge]
  constructor
  · rintro draws pkg ⟨⟨dep, shown⟩, within, path⟩
    obtain ⟨ordered, same, firsts⟩ := exists_first options acyclic path
    obtain ⟨drawing, isDrawn, edges⟩ := draws ordered same
    have missed : Missed pkg drawing := by
      refine missed_of_first (same.edge ▸ acyclic) positive limited firsts (Nat.zero_add D) ?_ ?_
        isDrawn
      · exact fun met isMet => absurd isMet List.not_mem_nil
      · exact fun _ => List.not_mem_nil
    exact missed.2 dep ((edges pkg dep).mpr ⟨shown, within⟩)
  · intro noTie ordered same
    rw [shown_eq ordered same] at noTie ⊢
    exact drawGraph_of_not_atLimit positive limited (same.length_keys ▸ above) noTie

/-- A package that the root depends on directly and through `a`. -/
def sharedDeps : Deps :=
  ⟨[⟨"root".toList, ["a".toList, "b".toList]⟩, ⟨"a".toList, ["b".toList]⟩,
    ⟨"b".toList, ["c".toList]⟩], show (List.keys _).Nodup by decide⟩

def depthOptions (maxDepth : Int) : Options :=
  ⟨true, "root".toList, maxDepth, [], [], "lightblue".toList, "grey".toList, "gainsboro".toList,
    fun _ => none⟩

/-- The distance to `c`. -/
def sharedRank (pkg : Package) : ℕ :=
  if pkg = "root".toList then 3 else if pkg = "a".toList then 2
  else if pkg = "b".toList then 1 else 0

theorem acyclic_sharedDeps : Digraph.Acyclic (Edge sharedDeps) :=
  acyclic_of_entries sharedRank (by decide)

/-- Three levels below the root there is only `c`, which has no dependencies. -/
theorem drawsWithin_iff_shared :
    (∀ ordered, SameUpToOrder sharedDeps ordered →
      ∃ drawing, drawGraph (depthOptions 3) 4 ordered = .ok drawing ∧ ∀ pkg dep,
        .edge pkg dep ∈ drawing.outfile ↔ Shown (depthOptions 3) sharedDeps pkg dep ∧
          Within (Shown (depthOptions 3) sharedDeps) "root".toList 3 pkg) ∧
      ∀ pkg, ¬AtLimit (Shown (depthOptions 3) sharedDeps) "root".toList 3 pkg := by
  have noTie : ∀ pkg, ¬AtLimit (Shown (depthOptions 3) sharedDeps) "root".toList 3 pkg := by
    rintro pkg ⟨⟨dep, shown⟩, -, path⟩
    have decreases : ∀ pkg dep, Shown (depthOptions 3) sharedDeps pkg dep →
        sharedRank dep < sharedRank pkg := fun pkg dep shown =>
      rank_lt_of_edge sharedRank (by decide) pkg dep shown.1
    have bottom : sharedRank pkg + 3 ≤ 3 := path.rank_le decreases
    exact absurd (decreases pkg dep shown) (by omega)
  exact ⟨(drawsWithin_iff (depthOptions 3) sharedDeps acyclic_sharedDeps 3 (by decide) rfl 4
    (by decide)).mpr noTie, noTie⟩

/-- With the limit two, `b` is met below `a`, at the limit, and its dependency is not drawn. -/
theorem undrawn_at_limit :
    Digraph.Acyclic (Edge sharedDeps) ∧ ∃ drawing,
      drawGraph (depthOptions 2) 4 sharedDeps = .ok drawing ∧ ∃ pkg dep,
        Shown (depthOptions 2) sharedDeps pkg dep ∧
        Within (Shown (depthOptions 2) sharedDeps) "root".toList 2 pkg ∧
        .edge pkg dep ∉ drawing.outfile := by
  refine ⟨acyclic_sharedDeps, ⟨["root".toList, "a".toList, "b".toList],
    [.attrs "root".toList, .edge "root".toList "a".toList, .attrs "a".toList,
      .edge "a".toList "b".toList, .attrs "b".toList, .edge "root".toList "b".toList]⟩, rfl,
    "b".toList, "c".toList, ?_, ⟨1, by decide, .head ?_ (.refl _)⟩, by decide⟩
  · exact ⟨⟨_, rfl, List.mem_cons_self⟩, rfl, rfl⟩
  · exact ⟨⟨_, rfl, List.mem_cons_of_mem _ List.mem_cons_self⟩, rfl, rfl⟩

end Buildroot4G.Depends
