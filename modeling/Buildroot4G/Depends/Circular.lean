/-
This file models `check_circular_deps` of `support/scripts/graph-depends` and proves
that it exits with status `1` exactly when the dependencies have a cycle.

The recursion has a limit, as the interpreter's has; a limit above the number of keys
is never reached.
-/

import Buildroot4G.Depends.Deps
import Buildroot4G.Fold

namespace Buildroot4G.Depends

open Relation Shell

/-- The state of the search, the innermost package of the chain first. -/
structure Search where
  notLoop : List Package
  chain : List Package
  deriving DecidableEq, Repr

/-- The line the report writes for a package of the chain. -/
def reportLine (pkg : Package) : Text := "which is a dependency of: ".toList ++ pkg ++ ['\n']

/-- The loop that reports the chain: it pops packages until it has popped `p`. -/
def report (p : Package) : List Package → Text → Stop
  | [], _ => .indexError
  | _p :: chain, stderr =>
    if p = _p then .exit 1 (stderr ++ reportLine _p)
    else report p chain (stderr ++ reportLine _p)

/-- `chain.pop()`. -/
def popChain (search : Search) : Except Stop Search :=
  match search.chain with
  | [] => .error .indexError
  | _ :: chain => .ok { search with chain }

/-- `recurse`. -/
def recurse (deps : Deps) : Nat → Package → Search → Except Stop Search
  | 0, _, _ => .error .tooDeep
  | limit + 1, pkg, search =>
    match deps.lookup pkg with
    | none => .ok search
    | some list =>
      if pkg ∈ search.notLoop then .ok search
      else do
        let search ← list.foldlM
          (fun search p =>
            if p ∈ search.chain then
              .error (report p search.chain ("\nRecursion detected for  : ".toList ++ p ++ ['\n']))
            else recurse deps limit p search)
          ⟨search.notLoop ++ [pkg], pkg :: search.chain⟩
        popChain search

/-- `check_circular_deps`. -/
def checkCircularDeps (limit : Nat) (deps : Deps) : Except Stop Unit := do
  let _ ← deps.keys.foldlM (fun search pkg => recurse deps limit pkg search) ⟨[], []⟩
  return ()

/-! ### The report -/

/-- The report of a package of the chain exits, having popped the packages down to it. -/
theorem report_eq_exit {p : Package} {chain : List Package} (member : p ∈ chain) (stderr : Text) :
    ∃ before after, chain = before ++ p :: after ∧
      report p chain stderr = .exit 1 (stderr ++ (before ++ [p]).flatMap reportLine) := by
  induction chain generalizing stderr with
  | nil => cases member
  | cons head rest inductionHypothesis =>
    rw [report]
    by_cases same : p = head
    · rw [if_pos same]
      exact ⟨[], rest, by rw [same]; rfl, by rw [same]; simp⟩
    · have inRest : p ∈ rest := (List.mem_cons.mp member).resolve_left same
      obtain ⟨before, after, whole, exits⟩ :=
        inductionHypothesis inRest (stderr ++ reportLine head)
      rw [if_neg same, exits]
      exact ⟨head :: before, after, by rw [whole]; rfl, by simp⟩

/-! ### The search -/

/-- A package whose dependencies the search is done with. -/
def Done (search : Search) (pkg : Package) : Prop :=
  pkg ∈ search.notLoop ∧ pkg ∉ search.chain

/-- What holds all through the search: the chain is a path of packages that are being searched,
and the packages it is done with depend on such packages only and are on no cycle. -/
structure Invariant (deps : Deps) (search : Search) : Prop where
  nodup : search.chain.Nodup
  keys : ∀ pkg ∈ search.chain, pkg ∈ deps.keys
  entered : ∀ pkg ∈ search.chain, pkg ∈ search.notLoop
  path : search.chain.IsChain fun inner outer => Edge deps outer inner
  closed : ∀ pkg, Done search pkg → ∀ dep ∈ deps.keys, Edge deps pkg dep → Done search dep
  acyclic : ∀ pkg, Done search pkg → ¬TransGen (Edge deps) pkg pkg

/-- What a call of `recurse` leaves when it returns. -/
structure Returns (deps : Deps) (pkg : Package) (before after : Search) : Prop where
  invariant : Invariant deps after
  chain : after.chain = before.chain
  kept : ∀ other, Done before other → Done after other
  handled : pkg ∈ deps.keys → Done after pkg

/-- How the search fails: on a cycle, or at the limit of the recursion. -/
def Fails (deps : Deps) (limit : Nat) (search : Search) (stop : Stop) : Prop :=
  (∃ stderr, stop = .exit 1 stderr) ∧ (∃ pkg, TransGen (Edge deps) pkg pkg) ∨
    stop = .tooDeep ∧ limit + search.chain.length ≤ deps.keys.length

section Search

variable {deps : Deps}

/-- What a package leads to that the search is done with, it is done with, too. -/
theorem Invariant.done_of_path {search : Search} (invariant : Invariant deps search)
    {pkg dep : Package} (done : Done search pkg) (path : TransGen (Edge deps) pkg dep)
    (key : dep ∈ deps.keys) : Done search dep := by
  induction path with
  | single edge => exact invariant.closed _ done _ key edge
  | tail path edge inductionHypothesis =>
    exact invariant.closed _ (inductionHypothesis (mem_keys_of_edge edge)) _ key edge

/-- A package of the chain leads to the innermost one. -/
theorem Invariant.path_of_mem {pkg : Package} {notLoop chain : List Package}
    (invariant : Invariant deps ⟨notLoop, pkg :: chain⟩) {outer : Package}
    (member : outer ∈ pkg :: chain) : ReflTransGen (Edge deps) outer pkg := by
  have general : ∀ (chain : List Package) pkg,
      (pkg :: chain).IsChain (fun inner outer => Edge deps outer inner) →
      outer ∈ pkg :: chain → ReflTransGen (Edge deps) outer pkg := by
    intro chain
    induction chain with
    | nil =>
      intro pkg _ member
      rw [List.mem_singleton.mp member]
    | cons next rest inductionHypothesis =>
      intro pkg path member
      obtain ⟨edge, later⟩ := List.isChain_cons_cons.mp path
      rcases List.mem_cons.mp member with rfl | inRest
      · exact ReflTransGen.refl
      · exact (inductionHypothesis next later inRest).tail edge
  exact general chain pkg invariant.path member

/-- Entering a package keeps the invariant. -/
theorem Invariant.enter {search : Search} (invariant : Invariant deps search) {pkg : Package}
    (key : pkg ∈ deps.keys) (new : pkg ∉ search.notLoop)
    (edge : ∀ head ∈ search.chain.head?, Edge deps head pkg) :
    Invariant deps ⟨search.notLoop ++ [pkg], pkg :: search.chain⟩ := by
  have outside : pkg ∉ search.chain := fun member => new (invariant.entered pkg member)
  have done : ∀ other, Done ⟨search.notLoop ++ [pkg], pkg :: search.chain⟩ other ↔
      Done search other := by
    intro other
    constructor
    · rintro ⟨entered, notInChain⟩
      obtain ⟨different, outsideChain⟩ := List.ne_and_not_mem_of_not_mem_cons notInChain
      refine ⟨?_, outsideChain⟩
      exact (List.mem_append.mp entered).resolve_right
        fun last => different (List.mem_singleton.mp last)
    · rintro ⟨entered, notInChain⟩
      refine ⟨List.mem_append_left _ entered, List.not_mem_cons_of_ne_of_not_mem ?_ notInChain⟩
      exact fun same => new (same ▸ entered)
  refine ⟨List.nodup_cons.mpr ⟨outside, invariant.nodup⟩, ?_, ?_, ?_, ?_, ?_⟩
  · exact List.forall_mem_cons.mpr ⟨key, invariant.keys⟩
  · refine List.forall_mem_cons.mpr ⟨by simp, fun other member => ?_⟩
    exact List.mem_append_left _ (invariant.entered other member)
  · exact List.isChain_cons.mpr ⟨edge, invariant.path⟩
  · intro other otherDone dep depKey otherEdge
    exact (done dep).mpr (invariant.closed other ((done other).mp otherDone) dep depKey otherEdge)
  · exact fun other otherDone => invariant.acyclic other ((done other).mp otherDone)

/-- Leaving a package whose dependencies are done keeps the invariant. -/
theorem Invariant.leave {notLoop chain : List Package} {pkg : Package}
    (invariant : Invariant deps ⟨notLoop, pkg :: chain⟩)
    (handled : ∀ dep ∈ deps.keys, Edge deps pkg dep → Done ⟨notLoop, pkg :: chain⟩ dep) :
    Invariant deps ⟨notLoop, chain⟩ := by
  have outside : pkg ∉ chain := (List.nodup_cons.mp invariant.nodup).1
  have wider : ∀ other, Done ⟨notLoop, pkg :: chain⟩ other → Done ⟨notLoop, chain⟩ other :=
    fun other ⟨entered, notInChain⟩ => ⟨entered, List.not_mem_of_not_mem_cons notInChain⟩
  have cases : ∀ other, Done ⟨notLoop, chain⟩ other →
      other = pkg ∨ Done ⟨notLoop, pkg :: chain⟩ other := by
    rintro other ⟨entered, notInChain⟩
    by_cases same : other = pkg
    · exact Or.inl same
    · exact Or.inr ⟨entered, List.not_mem_cons_of_ne_of_not_mem same notInChain⟩
  refine ⟨(List.nodup_cons.mp invariant.nodup).2, ?_, ?_, ?_, ?_, ?_⟩
  · exact fun other member => invariant.keys other (List.mem_cons_of_mem pkg member)
  · exact fun other member => invariant.entered other (List.mem_cons_of_mem pkg member)
  · exact (List.isChain_cons.mp invariant.path).2
  · intro other otherDone dep key edge
    rcases cases other otherDone with rfl | done
    · exact wider dep (handled dep key edge)
    · exact wider dep (invariant.closed other done dep key edge)
  · intro other otherDone cycle
    rcases cases other otherDone with rfl | done
    · -- a cycle through the package would lead back to it from a dependency that is done
      have key : other ∈ deps.keys := invariant.keys other List.mem_cons_self
      obtain ⟨dep, edge, back⟩ := TransGen.head'_iff.mp cycle
      have inChain : ¬Done ⟨notLoop, other :: chain⟩ other :=
        fun done => done.2 List.mem_cons_self
      rcases reflTransGen_iff_eq_or_transGen.mp back with same | path
      · exact inChain (handled other key (by rwa [← same] at edge))
      · have done := handled dep (mem_keys_of_path path) edge
        exact inChain (invariant.done_of_path done path key)
    · exact invariant.acyclic other done cycle

/-- What the loop over the dependencies leaves: those so far are done, and the chain is the one it
starts with. -/
structure Looped (deps : Deps) (pkg : Package) (before : Search) (seen : List Package)
    (after : Search) : Prop where
  invariant : Invariant deps after
  chain : after.chain = pkg :: before.chain
  kept : ∀ other, Done before other → Done after other
  handled : ∀ dep ∈ seen, dep ∈ deps.keys → Done after dep

/-- What one call of `recurse` does. -/
theorem recurse_meets (limit : Nat) {search : Search} {pkg : Package}
    (invariant : Invariant deps search) (outside : pkg ∉ search.chain)
    (edge : ∀ head ∈ search.chain.head?, Edge deps head pkg) :
    Fold.Meets (Returns deps pkg search) (Fails deps limit search)
      (recurse deps limit pkg search) := by
  induction limit generalizing search pkg with
  | zero =>
    have short : search.chain.length ≤ deps.keys.length :=
      (invariant.nodup.subperm fun other member => invariant.keys other member).length_le
    exact Or.inr ⟨rfl, by rw [Nat.zero_add]; exact short⟩
  | succ limit inductionHypothesis =>
    rw [recurse]
    cases found : deps.lookup pkg with
    | none =>
      have noKey := not_mem_keys_of_lookup found
      exact ⟨invariant, rfl, fun _ done => done, fun key => absurd key noKey⟩
    | some list =>
      have key : pkg ∈ deps.keys := mem_keys_of_lookup found
      change Fold.Meets _ _ (if pkg ∈ search.notLoop then _ else _)
      by_cases entered : pkg ∈ search.notLoop
      · rw [if_pos entered]
        exact ⟨invariant, rfl, fun _ done => done, fun _ => ⟨entered, outside⟩⟩
      rw [if_neg entered]
      have start : Looped deps pkg search [] ⟨search.notLoop ++ [pkg], pkg :: search.chain⟩ := by
        refine ⟨invariant.enter key entered edge, rfl, ?_, nofun⟩
        rintro other ⟨otherEntered, notInChain⟩
        refine ⟨List.mem_append_left _ otherEntered, ?_⟩
        refine List.not_mem_cons_of_ne_of_not_mem ?_ notInChain
        exact fun same => entered (same ▸ otherEntered)
      refine (Fold.meets_foldlM (Looped deps pkg search) start ?_).bind ?_
      · rintro seen p rest ⟨notLoop, chain⟩ whole ⟨now, same, kept, handled⟩
        change chain = pkg :: search.chain at same
        subst same
        have edgeP : Edge deps pkg p := (edge_iff_of_lookup found).mpr (by simp [whole])
        change Fold.Meets _ _ (if p ∈ pkg :: search.chain then _ else _)
        by_cases inChain : p ∈ pkg :: search.chain
        · rw [if_pos inChain]
          obtain ⟨before, after, _, exits⟩ := report_eq_exit inChain
            ("\nRecursion detected for  : ".toList ++ p ++ ['\n'])
          exact Or.inl ⟨⟨_, exits⟩, pkg, TransGen.head' edgeP (now.path_of_mem inChain)⟩
        · rw [if_neg inChain]
          have called := inductionHypothesis now inChain fun head isHead =>
            Option.some.inj isHead ▸ edgeP
          refine called.mono ?_ ?_
          · rintro next ⟨nextInvariant, nextChain, nextKept, nextHandled⟩
            refine ⟨nextInvariant, nextChain,
              fun other done => nextKept other (kept other done), fun dep inSeen depKey => ?_⟩
            rcases List.mem_append.mp inSeen with earlier | last
            · exact nextKept dep (handled dep earlier depKey)
            · rw [List.mem_singleton.mp last] at depKey ⊢
              exact nextHandled depKey
          · rintro stop (cycle | ⟨deep, length⟩)
            · exact Or.inl cycle
            · refine Or.inr ⟨deep, ?_⟩
              change limit + (search.chain.length + 1) ≤ _ at length
              omega
      · rintro ⟨notLoop, chain⟩ ⟨now, same, kept, handled⟩
        change chain = pkg :: search.chain at same
        subst same
        have left := now.leave fun dep depKey depEdge =>
          handled dep ((edge_iff_of_lookup found).mp depEdge) depKey
        refine ⟨left, rfl, fun other done => ?_, fun _ => ?_⟩
        · exact ⟨(kept other done).1, List.not_mem_of_not_mem_cons (kept other done).2⟩
        · exact ⟨now.entered pkg List.mem_cons_self, outside⟩

/-- What the check does: it returns when there is no cycle. -/
theorem checkCircularDeps_meets (deps : Deps) (limit : Nat) :
    Fold.Meets (fun _ => Digraph.Acyclic (Edge deps)) (Fails deps limit ⟨[], []⟩)
      (checkCircularDeps limit deps) := by
  rw [checkCircularDeps]
  have searched : Fold.Meets
      (fun after => Invariant deps after ∧ after.chain = [] ∧ ∀ pkg ∈ deps.keys, Done after pkg)
      (Fails deps limit ⟨[], []⟩)
      (deps.keys.foldlM (fun search pkg => recurse deps limit pkg search) ⟨[], []⟩) := by
    refine Fold.meets_foldlM (fun seen after => Invariant deps after ∧ after.chain = [] ∧
      ∀ pkg ∈ seen, Done after pkg) ?_ ?_
    · exact ⟨⟨List.nodup_nil, nofun, nofun, List.isChain_nil, nofun, nofun⟩, rfl, nofun⟩
    · rintro seen pkg rest ⟨notLoop, chain⟩ whole ⟨now, same, handled⟩
      change chain = [] at same
      subst same
      refine (recurse_meets limit now List.not_mem_nil nofun).mono ?_ fun _ fails => fails
      rintro next ⟨nextInvariant, nextChain, nextKept, nextHandled⟩
      refine ⟨nextInvariant, nextChain, fun other inSeen => ?_⟩
      rcases List.mem_append.mp inSeen with earlier | last
      · exact nextKept other (handled other earlier)
      · rw [List.mem_singleton.mp last]
        exact nextHandled (by simp [whole])
  refine searched.bind ?_
  rintro search ⟨now, _, handled⟩ pkg cycle
  exact now.acyclic pkg (handled pkg (mem_keys_of_path cycle)) cycle

end Search

/-- `check_circular_deps` exits with `1` exactly when the dependencies have a cycle and returns
otherwise, and the loop that reports the chain never pops from an empty one. -/
theorem checkCircularDeps_iff (deps : Deps) (limit : Nat) (above : deps.keys.length < limit) :
    ((∃ stderr, checkCircularDeps limit deps = .error (.exit 1 stderr)) ↔
        ∃ pkg, TransGen (Edge deps) pkg pkg) ∧
      (checkCircularDeps limit deps = .ok () ↔ ¬∃ pkg, TransGen (Edge deps) pkg pkg) ∧
      ∀ limit, checkCircularDeps limit deps ≠ .error .indexError := by
  have inside := checkCircularDeps_meets deps limit
  refine ⟨?_, ?_, fun anyLimit pops => ?_⟩
  · cases result : checkCircularDeps limit deps with
    | ok =>
      rw [result] at inside
      exact iff_of_false nofun fun ⟨pkg, cycle⟩ => inside pkg cycle
    | error stop =>
      rw [result] at inside
      rcases inside with ⟨⟨stderr, rfl⟩, cycle⟩ | ⟨_, short⟩
      · exact iff_of_true ⟨stderr, rfl⟩ cycle
      · exact absurd above (Nat.not_lt.mpr short)
  · cases result : checkCircularDeps limit deps with
    | ok =>
      rw [result] at inside
      exact iff_of_true rfl fun ⟨pkg, cycle⟩ => inside pkg cycle
    | error stop =>
      rw [result] at inside
      rcases inside with ⟨_, cycle⟩ | ⟨_, short⟩
      · exact iff_of_false nofun (not_not_intro cycle)
      · exact absurd above (Nat.not_lt.mpr short)
  · have outcome := checkCircularDeps_meets deps anyLimit
    rw [pops] at outcome
    rcases outcome with ⟨⟨_, exits⟩, _⟩ | ⟨deep, _⟩
    · cases exits
    · cases deep

/-- Two packages that depend on each other, and one that both depend on. -/
def mutualDeps : Deps :=
  ⟨[⟨"a".toList, ["c".toList, "b".toList]⟩, ⟨"b".toList, ["c".toList, "a".toList]⟩,
    ⟨"c".toList, []⟩], show (List.keys _).Nodup by decide⟩

theorem checkCircularDeps_iff_mutual :
    ((∃ stderr, checkCircularDeps 4 mutualDeps = .error (.exit 1 stderr)) ↔
        ∃ pkg, TransGen (Edge mutualDeps) pkg pkg) ∧
      (checkCircularDeps 4 mutualDeps = .ok () ↔ ¬∃ pkg, TransGen (Edge mutualDeps) pkg pkg) ∧
      ∀ limit, checkCircularDeps limit mutualDeps ≠ .error .indexError :=
  checkCircularDeps_iff mutualDeps 4 (by decide)

example : checkCircularDeps 4 mutualDeps = .error (.exit 1
    ("\nRecursion detected for  : a\nwhich is a dependency of: b\n" ++
      "which is a dependency of: a\n").toList) := by
  decide

end Buildroot4G.Depends
