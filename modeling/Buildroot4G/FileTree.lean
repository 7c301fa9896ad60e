/-
This file is a theory of trees of files with symbolic links: the walk along the steps of a path,
which follows a bounded number of links, and what is at the place where it ends.
-/

import Mathlib.Data.List.Infix
import Mathlib.Data.Nat.Notation

namespace FileTree

variable {ν β : Type}

/-- A step of a path: it stays (`.`, and the empty name between two slashes), goes up (`..`) or
down. -/
inductive Step (ν : Type) where
  | stay
  | up
  | down (name : ν)
  deriving DecidableEq, Repr

/-- What is at a place: a directory, a file or a symbolic link. -/
inductive Node (ν β : Type) where
  | dir
  | file (content : β)
  | link (absolute : Bool) (target : List (Step ν))
  deriving DecidableEq, Repr

/-- What is at the places, which are given by the names from the root on. -/
abbrev Tree (ν β : Type) := List ν → Option (Node ν β)

/-- The walk from a place along the steps of a path, where `follow` goes on behind a link. The last
step may go to a place where there is nothing. -/
def walkWith (follow : List ν → List (Step ν) → Option (List ν)) (tree : Tree ν β) :
    List ν → List (Step ν) → Option (List ν)
  | place, [] => some place
  | place, .stay :: rest => walkWith follow tree place rest
  | place, .up :: rest => walkWith follow tree place.dropLast rest
  | place, .down name :: rest =>
    match tree (place ++ [name]) with
    | some .dir => walkWith follow tree (place ++ [name]) rest
    | some (.link absolute target) => follow (if absolute then [] else place) (target ++ rest)
    | some (.file _) => if rest.isEmpty then some (place ++ [name]) else none
    | none => if rest.isEmpty then some (place ++ [name]) else none

/-- The walk that follows at most so many links. -/
def walk (tree : Tree ν β) : ℕ → List ν → List (Step ν) → Option (List ν)
  | 0 => walkWith (fun _ _ => none) tree
  | links + 1 => walkWith (walk tree links) tree

/-- All the places on the way to a place, and the place itself, are directories. -/
def Dirs (tree : Tree ν β) (place : List ν) : Prop :=
  ∀ before, before <+: place → before ≠ [] → tree before = some .dir

/-- There is a directory at a place; the root is one. -/
def dirAt (tree : Tree ν β) (place : List ν) : Bool :=
  match place, tree place with
  | [], _ => true
  | _, some .dir => true
  | _, _ => false

/-- The steps to a place from the root. -/
def stepsTo (place : List ν) : List (Step ν) := place.map .down

section Walk

variable {tree : Tree ν β} {links : ℕ} {place : List ν} {rest : List (Step ν)}

theorem walk_nil (tree : Tree ν β) (links : ℕ) (place : List ν) :
    walk tree links place [] = some place := by
  cases links <;> rfl

theorem walk_stay (tree : Tree ν β) (links : ℕ) (place : List ν) (rest : List (Step ν)) :
    walk tree links place (.stay :: rest) = walk tree links place rest := by
  cases links <;> rfl

theorem walk_up (tree : Tree ν β) (links : ℕ) (place : List ν) (rest : List (Step ν)) :
    walk tree links place (.up :: rest) = walk tree links place.dropLast rest := by
  cases links <;> rfl

theorem walk_down_dir {name : ν} (isDir : tree (place ++ [name]) = some .dir) :
    walk tree links place (.down name :: rest) = walk tree links (place ++ [name]) rest := by
  cases links <;> rw [walk, walkWith, isDir]

theorem walk_down_link {name : ν} {absolute : Bool} {target : List (Step ν)}
    (isLink : tree (place ++ [name]) = some (.link absolute target)) :
    walk tree (links + 1) place (.down name :: rest) =
      walk tree links (if absolute then [] else place) (target ++ rest) := by
  rw [walk, walkWith, isLink]

/-- The last step to what is no directory and no link. -/
theorem walk_down_other {name : ν} (noDir : tree (place ++ [name]) ≠ some .dir)
    (noLink : ∀ absolute target, tree (place ++ [name]) ≠ some (.link absolute target)) :
    walk tree links place (.down name :: rest) =
      if rest.isEmpty then some (place ++ [name]) else none := by
  have last : ∀ follow : List ν → List (Step ν) → Option (List ν),
      walkWith follow tree place (.down name :: rest) =
        if rest.isEmpty then some (place ++ [name]) else none := by
    intro follow
    rw [walkWith]
    split
    · next isDir => exact absurd isDir noDir
    · next isLink => exact absurd isLink (noLink _ _)
    · rfl
    · rfl
  cases links <;> exact last _

/-- The last step to a file, or to a place where there is nothing. -/
theorem walk_down_last {name : ν} (noDir : tree (place ++ [name]) ≠ some .dir)
    (noLink : ∀ absolute target, tree (place ++ [name]) ≠ some (.link absolute target)) :
    walk tree links place [.down name] = some (place ++ [name]) :=
  walk_down_other noDir noLink

/-- A walk goes through directories. -/
theorem walk_append_of_dirs {more : List ν}
    (dirs : ∀ before, before <+: more → before ≠ [] → tree (place ++ before) = some .dir) :
    walk tree links place (stepsTo more ++ rest) = walk tree links (place ++ more) rest := by
  induction more generalizing place with
  | nil => rw [List.append_nil]; rfl
  | cons name later inductionHypothesis =>
    have first : tree (place ++ [name]) = some .dir :=
      dirs [name] (List.prefix_append [name] later) (List.cons_ne_nil _ _)
    rw [stepsTo, List.map_cons, List.cons_append, walk_down_dir first]
    refine (inductionHypothesis fun before isPrefix nonempty => ?_).trans ?_
    · rw [List.append_assoc]
      exact dirs (name :: before) ((List.prefix_cons_inj name).mpr isPrefix) (List.cons_ne_nil _ _)
    · rw [List.append_assoc]
      rfl

theorem walk_stepsTo (dirs : Dirs tree place) :
    walk tree links [] (stepsTo place ++ rest) = walk tree links place rest :=
  walk_append_of_dirs dirs

/-- The walk to a place below directories. -/
theorem walk_place (links : ℕ) (dirs : Dirs tree place) :
    walk tree links [] (stepsTo place) = some place := by
  rw [← List.append_nil (stepsTo place), walk_stepsTo dirs, walk_nil]

/-- Steps up from a place. -/
theorem walk_replicate_up (tree : Tree ν β) (links : ℕ) (place : List ν) (count : ℕ)
    (rest : List (Step ν)) :
    walk tree links place (List.replicate count .up ++ rest) =
      walk tree links (place.take (place.length - count)) rest := by
  induction count generalizing place with
  | zero => rw [Nat.sub_zero, List.take_length]; rfl
  | succ count inductionHypothesis =>
    rw [List.replicate_succ, List.cons_append, walk_up, inductionHypothesis, List.length_dropLast,
      List.dropLast_eq_take, List.take_take]
    congr 2
    omega

theorem dirs_nil (tree : Tree ν β) : Dirs tree [] := fun _ isPrefix nonempty =>
  absurd (List.prefix_nil.mp isPrefix) nonempty

theorem dirs_append {name : ν} (dirs : Dirs tree place)
    (isDir : tree (place ++ [name]) = some .dir) : Dirs tree (place ++ [name]) := by
  intro before isPrefix nonempty
  rcases List.prefix_concat_iff.mp isPrefix with rfl | above
  · exact isDir
  · exact dirs before above nonempty

theorem dirs_above {above : List ν} (isPrefix : above <+: place) (dirs : Dirs tree place) :
    Dirs tree above := fun before isBefore => dirs before (isBefore.trans isPrefix)

theorem dirAt_of_eq_dir (isDir : tree place = some .dir) : dirAt tree place = true := by
  cases place with
  | nil => rfl
  | cons first rest => simp only [dirAt, isDir]

theorem eq_dir_of_dirAt (nonempty : place ≠ []) (isDir : dirAt tree place = true) :
    tree place = some .dir := by
  obtain ⟨first, rest, rfl⟩ := List.exists_cons_of_ne_nil nonempty
  cases found : tree (first :: rest) with
  | none => simp [dirAt, found] at isDir
  | some node => cases node <;> simp [dirAt, found] at isDir ⊢

theorem dirAt_of_dirs (dirs : Dirs tree place) : dirAt tree place = true := by
  by_cases root : place = []
  · rw [root]
    rfl
  · exact dirAt_of_eq_dir (dirs place (List.prefix_refl place) root)

/-- Where a walk can end: below directories, and not at a link. -/
structure Ends (tree : Tree ν β) (place : List ν) : Prop where
  dirs : Dirs tree place.dropLast
  noLink : place ≠ [] → ∀ absolute target, tree place ≠ some (.link absolute target)

theorem ends_of_dirs (dirs : Dirs tree place) : Ends tree place where
  dirs := dirs_above (List.dropLast_prefix place) dirs
  noLink nonempty absolute target isLink := by
    rw [dirs place (List.prefix_refl place) nonempty] at isLink
    cases isLink

theorem walkWith_ends {follow : List ν → List (Step ν) → Option (List ν)}
    (follows : ∀ {place rest last}, Dirs tree place → follow place rest = some last →
      Ends tree last)
    {last : List ν} (dirs : Dirs tree place) (ends : walkWith follow tree place rest = some last) :
    Ends tree last := by
  induction rest generalizing place with
  | nil =>
    cases ends
    exact ends_of_dirs dirs
  | cons step rest inductionHypothesis =>
    cases step with
    | stay => exact inductionHypothesis dirs ends
    | up => exact inductionHypothesis (dirs_above (List.dropLast_prefix place) dirs) ends
    | down name =>
      have atLast : ∀ {node : Option (Node ν β)}, tree (place ++ [name]) = node →
          (∀ absolute target, node ≠ some (.link absolute target)) →
          Ends tree (place ++ [name]) := fun isNode noLink =>
        ⟨by rwa [List.dropLast_concat], fun _ => isNode ▸ noLink⟩
      rw [walkWith] at ends
      split at ends
      · next isDir => exact inductionHypothesis (dirs_append dirs isDir) ends
      · split at ends
        · exact follows (dirs_nil tree) ends
        · exact follows dirs ends
      · next isFile =>
        split at ends
        · cases ends
          exact atLast isFile (by simp)
        · cases ends
      · next none =>
        split at ends
        · cases ends
          exact atLast none (by simp)
        · cases ends

/-- A walk ends below directories, and not at a link. -/
theorem walk_ends {last : List ν} (dirs : Dirs tree place)
    (ends : walk tree links place rest = some last) : Ends tree last := by
  induction links generalizing place rest last with
  | zero => exact walkWith_ends (fun _ impossible => by cases impossible) dirs ends
  | succ links inductionHypothesis => exact walkWith_ends inductionHypothesis dirs ends

/-- A walk that ends at a directory ends below directories. -/
theorem dirs_of_dirAt {last : List ν} (dirs : Dirs tree place)
    (ends : walk tree links place rest = some last) (isDir : dirAt tree last = true) :
    Dirs tree last := by
  rcases List.eq_nil_or_concat' last with rfl | ⟨before, name, rfl⟩
  · exact dirs_nil tree
  · have above := (walk_ends dirs ends).dirs
    rw [List.dropLast_concat] at above
    exact dirs_append above (eq_dir_of_dirAt (by simp) isDir)

theorem walk_zero_link {name : ν} {absolute : Bool} {target : List (Step ν)}
    (isLink : tree (place ++ [name]) = some (.link absolute target)) :
    walk tree 0 place (.down name :: rest) = none := by
  rw [walk, walkWith, isLink]

/-- A step down with what is there. -/
theorem down_cases (tree : Tree ν β) (place : List ν) (name : ν) :
    tree (place ++ [name]) = some .dir ∨
      (∃ absolute target, tree (place ++ [name]) = some (.link absolute target)) ∨
      (tree (place ++ [name]) ≠ some .dir ∧
        ∀ absolute target, tree (place ++ [name]) ≠ some (.link absolute target)) := by
  cases tree (place ++ [name]) with
  | none => exact Or.inr (Or.inr ⟨nofun, nofun⟩)
  | some node =>
    cases node with
    | dir => exact Or.inl rfl
    | link absolute target => exact Or.inr (Or.inl ⟨absolute, target, rfl⟩)
    | file content => exact Or.inr (Or.inr ⟨nofun, nofun⟩)

/-- Behind steps that end at a directory the walk goes on from there, with the links that are
left. -/
theorem walk_append {steps : List (Step ν)} {last : List ν}
    (ends : walk tree links place steps = some last) (isDir : dirAt tree last = true) :
    ∃ left ≤ links, ∀ rest, walk tree links place (steps ++ rest) = walk tree left last rest := by
  induction links using Nat.strong_induction_on generalizing place steps with
  | _ links withFewer =>
    induction steps generalizing place with
    | nil =>
      rw [walk_nil] at ends
      cases ends
      exact ⟨links, Nat.le_refl _, fun _ => rfl⟩
    | cons step steps inductionHypothesis =>
      cases step with
      | stay =>
        rw [walk_stay] at ends
        obtain ⟨left, le, same⟩ := inductionHypothesis ends
        exact ⟨left, le, fun rest => by rw [List.cons_append, walk_stay, same]⟩
      | up =>
        rw [walk_up] at ends
        obtain ⟨left, le, same⟩ := inductionHypothesis ends
        exact ⟨left, le, fun rest => by rw [List.cons_append, walk_up, same]⟩
      | down name =>
        rcases down_cases tree place name with dir | ⟨absolute, target, link⟩ | ⟨noDir, noLink⟩
        · rw [walk_down_dir dir] at ends
          obtain ⟨left, le, same⟩ := inductionHypothesis ends
          exact ⟨left, le, fun rest => by rw [List.cons_append, walk_down_dir dir, same]⟩
        · cases links with
          | zero =>
            rw [walk_zero_link link] at ends
            cases ends
          | succ links =>
            rw [walk_down_link link] at ends
            obtain ⟨left, le, same⟩ := withFewer links (Nat.lt_succ_self _) ends
            refine ⟨left, Nat.le_succ_of_le le, fun rest => ?_⟩
            rw [List.cons_append, walk_down_link link, ← List.append_assoc, same]
        · rw [walk_down_other noDir noLink] at ends
          split at ends
          · -- the walk ends at what is no directory
            obtain rfl := Option.some.inj ends
            exact absurd (eq_dir_of_dirAt (by simp) isDir) noDir
          · cases ends

/-- A walk that goes on behind some steps comes to a directory by them. -/
theorem walk_split {steps : List (Step ν)} {last : List ν} (dirs : Dirs tree place)
    (ends : walk tree links place (steps ++ rest) = some last) (more : rest ≠ []) :
    ∃ middle, walk tree links place steps = some middle ∧ Dirs tree middle := by
  induction links using Nat.strong_induction_on generalizing place steps with
  | _ links withFewer =>
    induction steps generalizing place with
    | nil => exact ⟨place, walk_nil _ _ _, dirs⟩
    | cons step steps inductionHypothesis =>
      rw [List.cons_append] at ends
      cases step with
      | stay =>
        rw [walk_stay] at ends ⊢
        exact inductionHypothesis dirs ends
      | up =>
        rw [walk_up] at ends ⊢
        exact inductionHypothesis (dirs_above (List.dropLast_prefix place) dirs) ends
      | down name =>
        rcases down_cases tree place name with dir | ⟨absolute, target, link⟩ | ⟨noDir, noLink⟩
        · rw [walk_down_dir dir] at ends ⊢
          exact inductionHypothesis (dirs_append dirs dir) ends
        · cases links with
          | zero =>
            rw [walk_zero_link link] at ends
            cases ends
          | succ links =>
            rw [walk_down_link link, ← List.append_assoc] at ends
            rw [walk_down_link link]
            refine withFewer links (Nat.lt_succ_self _) ?_ ends
            split
            · exact dirs_nil tree
            · exact dirs
        · rw [walk_down_other noDir noLink, if_neg (by simp [more])] at ends
          cases ends

end Walk

/-! ### What a walk looks at -/

/-- The places that a walk looks at, where `follow` gives those behind a link. -/
def visitsWith (follow : List ν → List (Step ν) → List (List ν)) (tree : Tree ν β) :
    List ν → List (Step ν) → List (List ν)
  | _, [] => []
  | place, .stay :: rest => visitsWith follow tree place rest
  | place, .up :: rest => visitsWith follow tree place.dropLast rest
  | place, .down name :: rest =>
    (place ++ [name]) ::
      match tree (place ++ [name]) with
      | some .dir => visitsWith follow tree (place ++ [name]) rest
      | some (.link absolute target) => follow (if absolute then [] else place) (target ++ rest)
      | _ => []

/-- The places that a walk looks at which follows at most so many links. -/
def visits (tree : Tree ν β) : ℕ → List ν → List (Step ν) → List (List ν)
  | 0 => visitsWith (fun _ _ => []) tree
  | links + 1 => visitsWith (visits tree links) tree

section Visits

variable {tree other : Tree ν β} {links : ℕ} {place : List ν} {steps rest : List (Step ν)}

theorem visits_stay (tree : Tree ν β) (links : ℕ) (place : List ν) (rest : List (Step ν)) :
    visits tree links place (.stay :: rest) = visits tree links place rest := by
  cases links <;> rfl

theorem visits_up (tree : Tree ν β) (links : ℕ) (place : List ν) (rest : List (Step ν)) :
    visits tree links place (.up :: rest) = visits tree links place.dropLast rest := by
  cases links <;> rfl

theorem mem_visits_down (tree : Tree ν β) (links : ℕ) (place : List ν) (name : ν)
    (rest : List (Step ν)) :
    place ++ [name] ∈ visits tree links place (.down name :: rest) := by
  cases links <;> exact List.mem_cons_self

theorem visits_down_dir {name : ν} (isDir : tree (place ++ [name]) = some .dir) :
    visits tree links place (.down name :: rest) =
      (place ++ [name]) :: visits tree links (place ++ [name]) rest := by
  cases links <;> rw [visits, visitsWith, isDir]

theorem visits_zero_link {name : ν} {absolute : Bool} {target : List (Step ν)}
    (isLink : tree (place ++ [name]) = some (.link absolute target)) :
    visits tree 0 place (.down name :: rest) = [place ++ [name]] := by
  rw [visits, visitsWith, isLink]

theorem visits_down_link {name : ν} {absolute : Bool} {target : List (Step ν)}
    (isLink : tree (place ++ [name]) = some (.link absolute target)) :
    visits tree (links + 1) place (.down name :: rest) =
      (place ++ [name]) :: visits tree links (if absolute then [] else place) (target ++ rest) := by
  rw [visits, visitsWith, isLink]

theorem visits_down_other {name : ν} (noDir : tree (place ++ [name]) ≠ some .dir)
    (noLink : ∀ absolute target, tree (place ++ [name]) ≠ some (.link absolute target)) :
    visits tree links place (.down name :: rest) = [place ++ [name]] := by
  have last : ∀ follow : List ν → List (Step ν) → List (List ν),
      visitsWith follow tree place (.down name :: rest) = [place ++ [name]] := by
    intro follow
    rw [visitsWith]
    split
    · next isDir => exact absurd isDir noDir
    · next isLink => exact absurd isLink (noLink _ _)
    · rfl
  cases links <;> exact last _

/-- A walk and what it looks at depend on the places that it looks at only. -/
theorem walk_congr (agree : ∀ visited ∈ visits tree links place steps,
      other visited = tree visited) :
    walk other links place steps = walk tree links place steps ∧
      visits other links place steps = visits tree links place steps := by
  induction links using Nat.strong_induction_on generalizing place steps with
  | _ links withFewer =>
    induction steps generalizing place with
    | nil => exact ⟨by rw [walk_nil, walk_nil], by cases links <;> rfl⟩
    | cons step steps inductionHypothesis =>
      cases step with
      | stay =>
        simp only [walk_stay, visits_stay] at agree ⊢
        exact inductionHypothesis agree
      | up =>
        simp only [walk_up, visits_up] at agree ⊢
        exact inductionHypothesis agree
      | down name =>
        have same := agree _ (mem_visits_down tree links place name steps)
        rcases down_cases tree place name with dir | ⟨absolute, target, link⟩ | ⟨noDir, noLink⟩
        · rw [visits_down_dir dir] at agree ⊢
          obtain ⟨sameWalk, sameVisits⟩ := inductionHypothesis
            fun visited member => agree visited (List.mem_cons_of_mem _ member)
          rw [walk_down_dir dir, walk_down_dir (same.trans dir), visits_down_dir (same.trans dir),
            sameVisits]
          exact ⟨sameWalk, rfl⟩
        · cases links with
          | zero =>
            rw [walk_zero_link link, walk_zero_link (same.trans link), visits_zero_link link,
              visits_zero_link (same.trans link)]
            exact ⟨rfl, rfl⟩
          | succ links =>
            rw [visits_down_link link] at agree ⊢
            obtain ⟨sameWalk, sameVisits⟩ := withFewer links (Nat.lt_succ_self _)
              fun visited member => agree visited (List.mem_cons_of_mem _ member)
            rw [walk_down_link link, walk_down_link (same.trans link),
              visits_down_link (same.trans link), sameVisits]
            exact ⟨sameWalk, rfl⟩
        · rw [walk_down_other noDir noLink, visits_down_other noDir noLink,
            walk_down_other (same ▸ noDir) (same ▸ noLink),
            visits_down_other (same ▸ noDir) (same ▸ noLink)]
          exact ⟨rfl, rfl⟩

/-- On the way to a directory there is something everywhere. -/
theorem visited_ne_none {last : List ν} (ends : walk tree links place steps = some last)
    (isDir : dirAt tree last = true) :
    ∀ visited ∈ visits tree links place steps, tree visited ≠ none := by
  induction links using Nat.strong_induction_on generalizing place steps with
  | _ links withFewer =>
    induction steps generalizing place with
    | nil =>
      intro visited member
      cases links <;> cases member
    | cons step steps inductionHypothesis =>
      cases step with
      | stay =>
        rw [walk_stay] at ends
        rw [visits_stay]
        exact inductionHypothesis ends
      | up =>
        rw [walk_up] at ends
        rw [visits_up]
        exact inductionHypothesis ends
      | down name =>
        intro visited member
        rcases down_cases tree place name with dir | ⟨absolute, target, link⟩ | ⟨noDir, noLink⟩
        · rw [walk_down_dir dir] at ends
          rw [visits_down_dir dir] at member
          rcases List.mem_cons.mp member with rfl | later
          · simp [dir]
          · exact inductionHypothesis ends visited later
        · cases links with
          | zero =>
            rw [walk_zero_link link] at ends
            cases ends
          | succ links =>
            rw [walk_down_link link] at ends
            rw [visits_down_link link] at member
            rcases List.mem_cons.mp member with rfl | later
            · simp [link]
            · exact withFewer links (Nat.lt_succ_self _) ends visited later
        · -- such a walk does not end at a directory
          rw [walk_down_other noDir noLink] at ends
          split at ends
          · obtain rfl := Option.some.inj ends
            exact absurd (eq_dir_of_dirAt (by simp) isDir) noDir
          · cases ends

/-- A walk goes the same way when more links may be followed. -/
theorem walk_mono {more : ℕ} {last : List ν} (least : links ≤ more)
    (ends : walk tree links place steps = some last) :
    walk tree more place steps = some last := by
  induction links using Nat.strong_induction_on generalizing more place steps with
  | _ links withFewer =>
    induction steps generalizing place with
    | nil =>
      rw [walk_nil] at ends ⊢
      exact ends
    | cons step steps inductionHypothesis =>
      cases step with
      | stay =>
        rw [walk_stay] at ends ⊢
        exact inductionHypothesis ends
      | up =>
        rw [walk_up] at ends ⊢
        exact inductionHypothesis ends
      | down name =>
        rcases down_cases tree place name with dir | ⟨absolute, target, link⟩ | ⟨noDir, noLink⟩
        · rw [walk_down_dir dir] at ends ⊢
          exact inductionHypothesis ends
        · cases links with
          | zero =>
            rw [walk_zero_link link] at ends
            cases ends
          | succ links =>
            obtain ⟨more, rfl⟩ := Nat.exists_eq_add_one_of_ne_zero (by omega : more ≠ 0)
            rw [walk_down_link link] at ends ⊢
            exact withFewer links (Nat.lt_succ_self _) (Nat.le_of_succ_le_succ least) ends
        · rw [walk_down_other noDir noLink] at ends ⊢
          exact ends

end Visits

/-! ### Changing a tree -/

section Change

variable [DecidableEq ν]

/-- Puts something at a place. -/
def put (tree : Tree ν β) (place : List ν) (node : Option (Node ν β)) : Tree ν β := fun other =>
  if other = place then node else tree other

/-- Takes away what is at a place and below it. -/
def remove (tree : Tree ν β) (place : List ν) : Tree ν β := fun other =>
  if place <+: other then none else tree other

/-- Makes the directories on the way along steps that are not there, through links to
directories. -/
def mkdirs (links : ℕ) : Tree ν β → List ν → List (Step ν) → Tree ν β
  | tree, _, [] => tree
  | tree, place, .stay :: rest => mkdirs links tree place rest
  | tree, place, .up :: rest => mkdirs links tree place.dropLast rest
  | tree, place, .down name :: rest =>
    match tree (place ++ [name]) with
    | none => mkdirs links (put tree (place ++ [name]) (some .dir)) (place ++ [name]) rest
    | some .dir => mkdirs links tree (place ++ [name]) rest
    | some (.file _) => tree
    | some (.link _ _) =>
      match walk tree links place [.down name] with
      | none => tree
      | some there => if dirAt tree there then mkdirs links tree there rest else tree

variable {tree : Tree ν β} {place : List ν}

theorem put_same (tree : Tree ν β) (place : List ν) (node : Option (Node ν β)) :
    put tree place node place = node := if_pos rfl

theorem put_other {other : List ν} (different : other ≠ place) (node : Option (Node ν β)) :
    put tree place node other = tree other := if_neg different

/-- A walk that does not end where nothing is goes the same way once something is put there. -/
theorem walk_put {links : ℕ} {steps : List (Step ν)} {last there : List ν}
    (free : tree there = none) (ends : walk tree links place steps = some last)
    (elsewhere : last ≠ there) (node : Option (Node ν β)) :
    walk (put tree there node) links place steps = some last := by
  have kept : ∀ {other found}, tree other = some found →
      put tree there node other = some found := by
    intro other found isFound
    rw [put_other, isFound]
    rintro rfl
    cases free.symm.trans isFound
  induction links using Nat.strong_induction_on generalizing place steps with
  | _ links withFewer =>
    induction steps generalizing place with
    | nil =>
      rw [walk_nil] at ends ⊢
      exact ends
    | cons step steps inductionHypothesis =>
      cases step with
      | stay =>
        rw [walk_stay] at ends ⊢
        exact inductionHypothesis ends
      | up =>
        rw [walk_up] at ends ⊢
        exact inductionHypothesis ends
      | down name =>
        rcases down_cases tree place name with dir | ⟨absolute, target, link⟩ | ⟨noDir, noLink⟩
        · rw [walk_down_dir dir] at ends
          rw [walk_down_dir (kept dir)]
          exact inductionHypothesis ends
        · cases links with
          | zero =>
            rw [walk_zero_link link] at ends
            cases ends
          | succ links =>
            rw [walk_down_link link] at ends
            rw [walk_down_link (kept link)]
            exact withFewer links (Nat.lt_succ_self _) ends
        · have isLast := ends
          rw [walk_down_other noDir noLink] at isLast
          split at isLast
          · obtain rfl := Option.some.inj isLast
            have same : put tree there node (place ++ [name]) = tree (place ++ [name]) :=
              put_other elsewhere node
            rw [walk_down_other (same ▸ noDir) (same ▸ noLink)]
            exact if_pos ‹_›
          · cases isLast

theorem remove_below {other : List ν} (below : place <+: other) : remove tree place other = none :=
  if_pos below

theorem remove_other {other : List ν} (notBelow : ¬ place <+: other) :
    remove tree place other = tree other := if_neg notBelow

/-- On a way with directories only, directories are made up to its end, and nothing else
changes. -/
theorem mkdirs_stepsTo (links : ℕ) (tree : Tree ν β) (place : List ν) {more : List ν}
    (free : ∀ before, before <+: more → before ≠ [] →
      tree (place ++ before) = none ∨ tree (place ++ before) = some .dir) :
    (∀ before, before <+: more → before ≠ [] →
        mkdirs links tree place (stepsTo more) (place ++ before) = some .dir) ∧
      ∀ other, (∀ before, before <+: more → before ≠ [] → other ≠ place ++ before) →
        mkdirs links tree place (stepsTo more) other = tree other := by
  induction more generalizing tree place with
  | nil =>
    exact ⟨fun before isPrefix nonempty => absurd (List.prefix_nil.mp isPrefix) nonempty,
      fun _ _ => rfl⟩
  | cons name later inductionHypothesis =>
    have first : [name] <+: name :: later := List.prefix_append [name] later
    have longer : ∀ before, before <+: later → name :: before <+: name :: later :=
      fun before isPrefix => (List.prefix_cons_inj name).mpr isPrefix
    have step : ∃ after : Tree ν β,
        mkdirs links tree place (stepsTo (name :: later)) =
          mkdirs links after (place ++ [name]) (stepsTo later) ∧
        after (place ++ [name]) = some .dir ∧ ∀ other, other ≠ place ++ [name] →
          after other = tree other := by
      rw [stepsTo, List.map_cons]
      rcases free [name] first (List.cons_ne_nil _ _) with none | dir
      · refine ⟨put tree (place ++ [name]) (some .dir), ?_, put_same _ _ _,
          fun other different => put_other different _⟩
        rw [mkdirs, none]
        rfl
      · refine ⟨tree, ?_, dir, fun _ _ => rfl⟩
        rw [mkdirs, dir]
        rfl
    obtain ⟨after, same, made, others⟩ := step
    have away : ∀ before : List ν, before ≠ [] → place ++ [name] ++ before ≠ place ++ [name] :=
      fun before nonempty equal => nonempty (by simpa using equal)
    obtain ⟨dirs, rest⟩ := inductionHypothesis after (place ++ [name])
      fun before isPrefix nonempty => by
        rw [others _ (away before nonempty), List.append_assoc]
        exact free (name :: before) (longer before isPrefix) (List.cons_ne_nil _ _)
    rw [same]
    constructor
    · intro before isPrefix nonempty
      obtain ⟨head, tail, rfl⟩ := List.exists_cons_of_ne_nil nonempty
      obtain ⟨rfl, shorter⟩ := List.cons_prefix_cons.mp isPrefix
      by_cases last : tail = []
      · subst last
        rw [rest]
        · exact made
        · exact fun before _ nonempty equal => away before nonempty equal.symm
      · have deeper := dirs tail shorter last
        rwa [List.append_assoc] at deeper
    · intro other outside
      have different : other ≠ place ++ [name] := outside [name] first (List.cons_ne_nil _ _)
      rw [rest, others other different]
      intro before isPrefix nonempty
      have apart := outside (name :: before) (longer before isPrefix) (List.cons_ne_nil _ _)
      rwa [List.append_assoc]

/-- Along steps that come to a directory nothing is made. -/
theorem mkdirs_append (links : ℕ) {tree : Tree ν β} {place last : List ν} {front : List ν}
    (rest : List (Step ν)) (dirs : Dirs tree place)
    (ends : walk tree links place (stepsTo front) = some last) (isDir : dirAt tree last = true) :
    mkdirs links tree place (stepsTo front ++ rest) = mkdirs links tree last rest := by
  induction front generalizing place with
  | nil =>
    have same : walk tree links place [] = some last := ends
    rw [walk_nil] at same
    cases same
    rfl
  | cons name later inductionHypothesis =>
    have split : stepsTo (name :: later) = [Step.down name] ++ stepsTo later := rfl
    rw [split] at ends ⊢
    rcases down_cases tree place name with dir | ⟨absolute, target, link⟩ | ⟨noDir, noLink⟩
    · have goesOn : walk tree links (place ++ [name]) (stepsTo later) = some last :=
        (walk_down_dir dir).symm.trans ends
      rw [List.append_assoc, List.singleton_append, mkdirs, dir]
      exact inductionHypothesis (dirs_append dirs dir) goesOn
    · -- the link leads to a directory
      have middle : ∃ there, walk tree links place [.down name] = some there ∧
          dirAt tree there = true := by
        by_cases only : later = []
        · subst only
          exact ⟨last, ends, isDir⟩
        · obtain ⟨there, comes, below⟩ := walk_split dirs ends (by simpa [stepsTo] using only)
          exact ⟨there, comes, dirAt_of_dirs below⟩
      obtain ⟨there, comes, isDirThere⟩ := middle
      obtain ⟨left, least, goes⟩ := walk_append comes isDirThere
      have goesOn : walk tree links there (stepsTo later) = some last :=
        walk_mono least ((goes (stepsTo later)).symm.trans ends)
      rw [List.append_assoc, List.singleton_append, mkdirs, link]
      simp only [comes, if_pos isDirThere]
      exact inductionHypothesis (dirs_of_dirAt dirs comes isDirThere) goesOn
    · have notDir : walk tree links place (.down name :: stepsTo later) = some last := ends
      rw [walk_down_other noDir noLink] at notDir
      split at notDir
      · obtain rfl := Option.some.inj notDir
        exact absurd (eq_dir_of_dirAt (by simp) isDir) noDir
      · cases notDir

end Change

end FileTree
