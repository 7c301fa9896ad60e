/-
This file models `bb_make_directory` of `package/makedevs/makedevs.c`, which cuts the text of the
path at each slash while it makes the directories above. The main result is that it returns, leaves
the umask as it was, and has made the directory when it returns `0`, whatever calls fail; and that
it leaves the path as it was exactly when no directory above the last one fails.

A process has a tree of files and a directory in it. Any call may fail, apart from the errors that
the tree makes it fail with.
-/

import Buildroot4G.FileTree
import Buildroot4G.Progs.Makedevs
import Buildroot4G.Shell.Path
import Mathlib.Data.List.GetD

namespace Buildroot4G.Makedevs

open Shell FileTree

/-! ### The calls of the system -/

inductive Errno where
  | EACCES | EDQUOT | EEXIST | EINVAL | EIO | EISDIR | ELOOP | EMLINK | ENAMETOOLONG | ENOENT
  | ENOMEM | ENOSPC | ENOTDIR | EPERM | EROFS
  deriving DecidableEq, Repr

/-- How many links are followed, and the calls that fail for a reason of their own. -/
structure System where
  links : ℕ
  fails : ℕ → Option Errno

/-- The tree of files with the modes, the directory and the umask of the process, and how many
calls it made. -/
structure Process where
  tree : Tree Text Unit
  modes : List Text → Unsigned
  cwd : List Text
  dirs : Dirs tree cwd
  umask : BitVec 9
  calls : ℕ

namespace Process

variable (system : System) (process : Process)

/-- Where the walk along a path begins. -/
def base (path : Text) : List Text := if path.head? = some '/' then [] else process.cwd

/-- Where a path leads to. -/
def find (path : Text) : Option (List Text) :=
  if path = [] then none else walk process.tree system.links (process.base path) (steps path)

/-- A path is that of a directory. -/
def IsDir (path : Text) : Prop :=
  ∃ place, process.find system path = some place ∧ dirAt process.tree place = true

def called : Process := { process with calls := process.calls + 1 }

/-- A directory at a place where nothing is. -/
def make (place : List Text) (free : process.tree place = none) (mode : Unsigned) : Process where
  tree := put process.tree place (some .dir)
  modes := Function.update process.modes place mode
  cwd := process.cwd
  dirs before isPrefix nonempty := by
    have isDir := process.dirs before isPrefix nonempty
    rw [put_other, isDir]
    rintro rfl
    cases free.symm.trans isDir
  umask := process.umask
  calls := process.calls

def setUmask (mask : BitVec 9) : Process := { process with umask := mask }

end Process

section Calls

variable (system : System) (process : Process) (path : Text)

/-- `stat(path, &st) == 0 && S_ISDIR(st.st_mode)`. -/
def stat : Bool × Process :=
  match system.fails process.calls with
  | some _ => (false, process.called)
  | none => ((process.find system path).any (dirAt process.tree), process.called)

/-- `mkdir`, which gives the error when it fails. -/
def mkdir (mode : BitVec 9) : Option Errno × Process :=
  match system.fails process.calls with
  | some errno => (some errno, process.called)
  | none =>
    let way := steps (withoutSlashes path)
    if path = [] then (some .ENOENT, process.called)
    else
      match walk process.tree system.links (process.base path) way.dropLast with
      | none => (some .ENOENT, process.called)
      | some parent =>
        if dirAt process.tree parent = false then (some .ENOTDIR, process.called)
        else
          match way.getLast? with
          | some (.down name) =>
            match free : process.tree (parent ++ [name]) with
            | some _ => (some .EEXIST, process.called)
            | none =>
              (none, process.called.make (parent ++ [name]) free
                ((mode &&& ~~~process.umask).setWidth 32))
          | _ => (some .EEXIST, process.called)

/-- `chmod`. -/
def chmod (mode : Unsigned) : Option Errno × Process :=
  match system.fails process.calls with
  | some errno => (some errno, process.called)
  | none =>
    match process.find system path with
    | none => (some .ENOENT, process.called)
    | some place =>
      (none, { process.called with modes := Function.update process.modes place mode })

end Calls

/-! ### The function -/

def nul : Char := '\x00'

/-- The text in a buffer, which the first `nul` ends. -/
def cString (buf : Text) : Text := buf.takeWhile fun c => c ≠ nul

/-- The loop that bypasses what is no slash and then the slashes, and cuts the text there: the
buffer, the pointer `s` and the character that was saved. -/
def getParent (buf : Text) (s : ℕ) : Text × ℕ × Char :=
  let rest := cString (buf.drop s)
  let name := rest.takeWhile fun c => c ≠ '/'
  let slashes := (rest.dropWhile fun c => c ≠ '/').takeWhile fun c => c = '/'
  let s := s + name.length + slashes.length
  if slashes = [] then (buf, s, nul) else (buf.set s nul, s, buf.getD s nul)

/-- The variables of the loop. -/
structure Making where
  path : Text
  s : ℕ
  process : Process

/-- What the function leaves: what it returns, the buffer, and what it complains of. -/
structure Made where
  returned : Int
  path : Text
  process : Process
  message : Option Text

/-- The end of the function after a failure. -/
def failed (failMsg path : Text) (process : Process) : Made :=
  ⟨-1, path, process,
    some ("Cannot ".toList ++ failMsg ++ " directory `".toList ++ cString path ++ "'".toList)⟩

/-- A round of the loop, once the path is cut. -/
def makeAt (system : System) (mode : BitVec 64) (recur : Bool) (mask : BitVec 9)
    (process : Process) (path : Text) (s : ℕ) (c : Char) : Made ⊕ Making :=
  match mkdir system process (cString path) 0o777 with
  | (some errno, process) =>
    if errno ≠ .EEXIST ∧ errno ≠ .EISDIR ∨ recur = false then
      .inl (failed "create".toList path (process.setUmask mask))
    else
      match stat system process (cString path) with
      | (false, process) => .inl (failed "create".toList path (process.setUmask mask))
      | (true, process) =>
        if c = nul then .inl ⟨0, path, process.setUmask mask, none⟩
        else .inr ⟨path.set s c, s, process⟩
  | (none, process) =>
    if c = nul then
      if mode = BitVec.allOnes 64 then .inl ⟨0, path, process.setUmask mask, none⟩
      else
        match chmod system (process.setUmask mask) (cString path) (mode.setWidth 32) with
        | (some _, process) => .inl (failed "set permissions of".toList path process)
        | (none, process) => .inl ⟨0, path, process, none⟩
    else .inr ⟨path.set s c, s, process⟩

/-- A round of the loop. -/
def makeRound (system : System) (mode : BitVec 64) (recur : Bool) (mask : BitVec 9)
    (making : Making) : Made ⊕ Making :=
  let (path, s, c) :=
    if recur then getParent making.path making.s else (making.path, making.s, nul)
  makeAt system mode recur mask making.process path s c

/-- The loop, with a bound for its rounds. -/
def makeLoop (system : System) (mode : BitVec 64) (recur : Bool) (mask : BitVec 9) :
    ℕ → Making → Option Made
  | 0, _ => none
  | fuel + 1, making =>
    match makeRound system mode recur mask making with
    | .inl made => some made
    | .inr making => makeLoop system mode recur mask fuel making

/-- The umask and the mode before the loop. -/
def enter (process : Process) (mode : BitVec 64) : Process × BitVec 64 :=
  let mask := process.umask
  if mode = BitVec.allOnes 64 then
    ((process.setUmask 0).setUmask mask, (0o777 &&& ~~~mask).setWidth 64)
  else ((process.setUmask 0).setUmask (mask &&& ~~~0o300), mode)

/-- `bb_make_directory`. -/
def bbMakeDirectory (system : System) (fuel : ℕ) (path : Text) (mode : BitVec 64) (recur : Bool)
    (process : Process) : Option Made :=
  let (entered, mode) := enter process mode
  makeLoop system mode recur process.umask fuel ⟨path, 0, entered⟩

/-! ### The directories above -/

/-- The paths of the directories above the last one, from the first on: those that end in a slash
which something else follows. -/
def middlesFrom (before : Text) : Text → List Text
  | [] => []
  | c :: rest =>
    if c = '/' ∧ rest ≠ [] ∧ rest.head? ≠ some '/' then
      (before ++ [c]) :: middlesFrom (before ++ [c]) rest
    else middlesFrom (before ++ [c]) rest

def middles (path : Text) : List Text := middlesFrom [] path

/-- A directory is made, or found. -/
def pass (system : System) (process : Process) (path : Text) : Option Process :=
  match mkdir system process path 0o777 with
  | (none, process) => some process
  | (some errno, process) =>
    if errno = .EEXIST ∨ errno = .EISDIR then
      match stat system process path with
      | (true, process) => some process
      | (false, _) => none
    else none

/-- Directories are made, or found, one after the other. -/
def passAll (system : System) : Process → List Text → Option Process
  | process, [] => some process
  | process, path :: rest =>
    match pass system process path with
    | none => none
    | some process => passAll system process rest

section Middles

variable {before : Text}

theorem middlesFrom_append {name : Text} (noSlash : '/' ∉ name) (rest : Text) :
    middlesFrom before (name ++ rest) = middlesFrom (before ++ name) rest := by
  induction name generalizing before with
  | nil => rw [List.append_nil, List.nil_append]
  | cons c name inductionHypothesis =>
    obtain ⟨different, later⟩ := List.ne_and_not_mem_of_not_mem_cons noSlash
    rw [List.cons_append, middlesFrom, if_neg fun slash => different slash.1.symm,
      inductionHypothesis later, List.append_assoc]
    rfl

theorem middlesFrom_slashes {slashes after : Text} (areSlashes : ∀ c ∈ slashes, c = '/')
    (nonempty : slashes ≠ []) (noSlash : after.head? ≠ some '/') :
    middlesFrom before (slashes ++ after) =
      if after = [] then [] else (before ++ slashes) :: middlesFrom (before ++ slashes) after := by
  induction slashes generalizing before with
  | nil => exact absurd rfl nonempty
  | cons c slashes inductionHypothesis =>
    obtain ⟨rfl, later⟩ := List.forall_mem_cons.mp areSlashes
    rw [List.cons_append, middlesFrom]
    by_cases last : slashes = []
    · subst last
      by_cases none : after = []
      · rw [none]
        rfl
      · rw [List.nil_append, if_pos ⟨rfl, none, noSlash⟩, if_neg none]
    · have next : (slashes ++ after).head? = Option.some '/' := by
        obtain ⟨d, more, rfl⟩ := List.exists_cons_of_ne_nil last
        rw [List.cons_append, List.head?_cons, later d List.mem_cons_self]
      rw [if_neg fun slash => slash.2.2 next, inductionHypothesis later last, List.append_assoc]
      rfl

end Middles

/-! ### What the calls leave -/

section Calls

variable {system : System} {process : Process} {path : Text}

theorem steps_concat_slash (path : Text) : steps (path ++ ['/']) = steps path ++ [.stay] :=
  steps_append path []

/-- Slashes behind a path stay where it leads to. -/
theorem steps_append_slashes (path : Text) (count : ℕ) :
    steps (path ++ List.replicate count '/') = steps path ++ List.replicate count .stay := by
  induction count with
  | zero => rw [List.replicate_zero, List.replicate_zero, List.append_nil, List.append_nil]
  | succ count inductionHypothesis =>
    rw [List.replicate_succ', List.replicate_succ', ← List.append_assoc, steps_concat_slash,
      inductionHypothesis, List.append_assoc]

theorem walk_replicate_stay {ν β : Type} (tree : Tree ν β) (links : ℕ) (place : List ν)
    (count : ℕ) : walk tree links place (List.replicate count .stay) = some place := by
  induction count with
  | zero => exact walk_nil tree links place
  | succ count inductionHypothesis => rw [List.replicate_succ, walk_stay, inductionHypothesis]

theorem exists_withoutSlashes (path : Text) :
    ∃ count, path = withoutSlashes path ++ List.replicate count '/' := by
  have parts := List.takeWhile_append_dropWhile (p := fun c : Char => decide (c = '/'))
    (l := path.reverse)
  have slashes : path.reverse.takeWhile (fun c => c = '/') =
      List.replicate (path.reverse.takeWhile fun c => c = '/').length '/' :=
    List.eq_replicate_iff.mpr ⟨rfl, fun c member => by simpa using List.mem_takeWhile_imp member⟩
  refine ⟨(path.reverse.takeWhile fun c => c = '/').length, ?_⟩
  rw [withoutSlashes, ← List.reverse_replicate, ← slashes, ← List.reverse_append, parts,
    List.reverse_reverse]

theorem stat_eq_true {after : Process} (isDir : stat system process path = (true, after)) :
    after = process.called ∧ process.IsDir system path := by
  rw [stat] at isDir
  split at isDir
  · cases isDir
  · obtain ⟨found, rfl⟩ := Prod.mk.inj isDir
    cases isPlace : process.find system path with
    | none =>
      rw [isPlace] at found
      cases found
    | some place =>
      rw [isPlace] at found
      exact ⟨rfl, place, isPlace, found⟩

/-- A call of `mkdir` that does not fail puts a directory at a place below another one. -/
theorem mkdir_made {mode : BitVec 9} {after : Process}
    (makes : mkdir system process path mode = (none, after)) :
    path ≠ [] ∧ ∃ above parent name, steps (withoutSlashes path) = above ++ [.down name] ∧
      walk process.tree system.links (process.base path) above = some parent ∧
      dirAt process.tree parent = true ∧
      ∃ (free : process.tree (parent ++ [name]) = none) (bits : Unsigned),
        after = process.called.make (parent ++ [name]) free bits := by
  rw [mkdir] at makes
  split at makes
  · cases makes
  · simp only at makes
    split at makes
    · cases makes
    · next nonempty =>
      split at makes
      · cases makes
      · next parent isParent =>
        split at makes
        · cases makes
        · next isDir =>
          split at makes
          · next name isLast =>
            split at makes
            · cases makes
            · next free =>
              refine ⟨nonempty, _, parent, name, ?_, isParent, by simpa using isDir, free, _,
                (Prod.mk.inj makes).2.symm⟩
              exact (List.dropLast_append_getLast? _ isLast).symm
          · cases makes

theorem base_dirs (process : Process) (path : Text) : Dirs process.tree (process.base path) := by
  rw [Process.base]
  split
  · exact dirs_nil _
  · exact process.dirs

/-- A directory that was made is one. -/
theorem isDir_of_mkdir {mode : BitVec 9} {after : Process}
    (makes : mkdir system process path mode = (none, after)) : after.IsDir system path := by
  obtain ⟨nonempty, above, parent, name, way, isParent, dir, free, bits, rfl⟩ := mkdir_made makes
  obtain ⟨count, whole⟩ := exists_withoutSlashes path
  have allSteps : steps path = above ++ ([.down name] ++ List.replicate count .stay) := by
    rw [← List.append_assoc, ← way, ← steps_append_slashes, ← whole]
  have elsewhere : parent ≠ parent ++ [name] := fun same =>
    List.cons_ne_nil name [] (List.append_right_eq_self.mp same.symm)
  have made : put process.tree (parent ++ [name]) (some .dir) (parent ++ [name]) = some .dir :=
    put_same _ _ _
  have stays : dirAt (put process.tree (parent ++ [name]) (some .dir)) parent = true := by
    by_cases root : parent = []
    · rw [root]
      rfl
    · exact dirAt_of_eq_dir (by rw [put_other elsewhere, eq_dir_of_dirAt root dir])
  obtain ⟨left, -, goes⟩ := walk_append (walk_put free isParent elsewhere (some .dir)) stays
  refine ⟨parent ++ [name], ?_, ?_⟩
  · rw [Process.find, if_neg nonempty, allSteps]
    refine (goes _).trans ?_
    rw [List.singleton_append, walk_down_dir made, walk_replicate_stay]
  · exact dirAt_of_eq_dir made

/-- The directories above a directory are directories. -/
theorem isDir_of_prefix {before after : Text}
    (isDir : process.IsDir system (before ++ '/' :: after)) :
    process.IsDir system (before ++ ['/']) := by
  obtain ⟨place, isPlace, -⟩ := isDir
  rw [Process.find, if_neg (by simp), steps_append] at isPlace
  have sameBase : process.base (before ++ ['/']) = process.base (before ++ '/' :: after) := by
    cases before <;> rfl
  have more : steps after ≠ [] := by
    rw [steps, Ne, List.map_eq_nil_iff]
    exact List.splitOn_ne_nil _ _
  obtain ⟨middle, isMiddle, dirs⟩ := walk_split (base_dirs process _) isPlace more
  obtain ⟨left, -, goes⟩ := walk_append isMiddle (dirAt_of_dirs dirs)
  refine ⟨middle, ?_, dirAt_of_dirs dirs⟩
  rw [Process.find, if_neg (by simp), steps_concat_slash, sameBase, goes, walk_stay, walk_nil]

end Calls

/-! ### The rounds -/

section Rounds

variable {system : System} {mode : BitVec 64} {recur : Bool} {mask : BitVec 9}
  {process : Process} {path : Text}

theorem isDir_congr {other : Process} (tree : other.tree = process.tree)
    (cwd : other.cwd = process.cwd) :
    other.IsDir system path ↔ process.IsDir system path := by
  rw [Process.IsDir, Process.IsDir, Process.find, Process.find, Process.base, Process.base, tree,
    cwd]

theorem chmod_snd (bits : Unsigned) :
    (chmod system process path bits).2.tree = process.tree ∧
      (chmod system process path bits).2.cwd = process.cwd ∧
      (chmod system process path bits).2.umask = process.umask := by
  rw [chmod]
  split
  · exact ⟨rfl, rfl, rfl⟩
  · split <;> exact ⟨rfl, rfl, rfl⟩

theorem failed_returned (failMsg path : Text) (process : Process) :
    (failed failMsg path process).returned ≠ 0 :=
  (by decide : (-1 : Int) ≠ 0)

/-- The last round returns, with the path and the umask as they were. -/
theorem makeAt_last (system : System) (mode : BitVec 64) (recur : Bool) (mask : BitVec 9)
    (process : Process) (path : Text) (s : ℕ) :
    ∃ made, makeAt system mode recur mask process path s nul = .inl made ∧ made.path = path ∧
      made.process.umask = mask ∧
      (made.returned = 0 → made.process.IsDir system (cString path)) := by
  rw [makeAt]
  cases called : mkdir system process (cString path) 0o777 with
  | mk errno next =>
    cases errno with
    | some errno =>
      simp only
      split
      · exact ⟨_, rfl, rfl, rfl, fun zero => absurd zero (failed_returned _ _ _)⟩
      · cases status : stat system next (cString path) with
        | mk isDir after =>
          cases isDir with
          | false => exact ⟨_, rfl, rfl, rfl, fun zero => absurd zero (failed_returned _ _ _)⟩
          | true =>
            obtain ⟨rfl, dir⟩ := stat_eq_true status
            refine ⟨⟨0, path, next.called.setUmask mask, none⟩, rfl, rfl, rfl, fun _ => ?_⟩
            show (next.called.setUmask mask).IsDir system (cString path)
            exact (isDir_congr rfl rfl).mpr dir
    | none =>
      have dir := isDir_of_mkdir called
      simp only [if_true]
      split
      · have same : (next.setUmask mask).IsDir system (cString path) :=
          (isDir_congr rfl rfl).mpr dir
        exact ⟨_, rfl, rfl, rfl, fun _ => same⟩
      · obtain ⟨tree, cwd, umask⟩ := @chmod_snd system (next.setUmask mask) (cString path)
          (mode.setWidth 32)
        cases changed : chmod system (next.setUmask mask) (cString path) (mode.setWidth 32) with
        | mk errno after =>
          rw [changed] at tree cwd umask
          cases errno with
          | some _ => exact ⟨_, rfl, rfl, umask, fun zero => absurd zero (failed_returned _ _ _)⟩
          | none => exact ⟨_, rfl, rfl, umask, fun _ => (isDir_congr tree cwd).mpr dir⟩

/-- A round before the last one goes on when the directory is made or found, and returns with the
path cut otherwise. -/
theorem makeAt_middle (system : System) (mode : BitVec 64) (mask : BitVec 9) (process : Process)
    (path : Text) (s : ℕ) {c : Char} (more : c ≠ nul) :
    match pass system process (cString path) with
    | some next => makeAt system mode true mask process path s c = .inr ⟨path.set s c, s, next⟩
    | none => ∃ made, makeAt system mode true mask process path s c = .inl made ∧
        made.path = path ∧ made.process.umask = mask ∧ made.returned = -1 := by
  rw [pass]
  simp only [makeAt]
  cases called : mkdir system process (cString path) 0o777 with
  | mk errno next =>
    cases errno with
    | none => simp only [if_neg more]
    | some errno =>
      by_cases exists' : errno = .EEXIST ∨ errno = .EISDIR
      · have goesOn : ¬ (errno ≠ .EEXIST ∧ errno ≠ .EISDIR ∨ true = false) := by
          rintro (⟨notExist, notDir⟩ | impossible)
          · exact exists'.elim notExist notDir
          · cases impossible
        simp only [if_pos exists', if_neg goesOn, if_neg more]
        cases stat system next (cString path) with
        | mk isDir after =>
          cases isDir with
          | true => rfl
          | false => exact ⟨_, rfl, rfl, rfl, rfl⟩
      · have stops : errno ≠ .EEXIST ∧ errno ≠ .EISDIR ∨ true = false :=
          Or.inl (not_or.mp exists')
        simp only [if_neg exists', if_pos stops]
        exact ⟨_, rfl, rfl, rfl, rfl⟩

/-- A text up to its first slash, the slashes there, and the rest. -/
theorem exists_slashes (text : Text) :
    ∃ name slashes after, text = name ++ (slashes ++ after) ∧
      text.takeWhile (fun c => c ≠ '/') = name ∧
      (text.dropWhile fun c => c ≠ '/').takeWhile (fun c => c = '/') = slashes ∧
      '/' ∉ name ∧ (∀ c ∈ slashes, c = '/') ∧ after.head? ≠ some '/' ∧
      (slashes = [] → after = []) := by
  refine ⟨_, _, (text.dropWhile fun c => c ≠ '/').dropWhile fun c => c = '/', ?_, rfl, rfl,
    fun member => by simpa using List.mem_takeWhile_imp member,
    fun c member => by simpa using List.mem_takeWhile_imp member, fun isSlash => ?_, fun none => ?_⟩
  · rw [List.takeWhile_append_dropWhile, List.takeWhile_append_dropWhile]
  · have dropped := List.head?_dropWhile_not (fun c : Char => decide (c = '/'))
      (text.dropWhile fun c => c ≠ '/')
    rw [isSlash] at dropped
    simp at dropped
  · cases isTail : text.dropWhile fun c => c ≠ '/' with
    | nil => rfl
    | cons c tail =>
      have dropped := List.head?_dropWhile_not (fun c : Char => decide (c ≠ '/')) text
      rw [isTail] at dropped none
      simp only [List.head?_cons] at dropped
      rw [List.takeWhile_cons_of_pos (by simpa using dropped)] at none
      cases none

/-- Where the loop cuts the path. -/
theorem getParent_eq {before rest : Text} (noNul : ∀ c ∈ before ++ rest, c ≠ nul) :
    (middlesFrom before rest = [] ∧
        ∃ s, getParent (before ++ rest) before.length = (before ++ rest, s, nul)) ∨
      ∃ above c after, rest = above ++ c :: after ∧ above ≠ [] ∧ c ≠ nul ∧
        middlesFrom before rest = (before ++ above) :: middlesFrom (before ++ above) (c :: after) ∧
        getParent (before ++ rest) before.length =
          (before ++ above ++ nul :: after, (before ++ above).length, c) := by
  have noNulRest : ∀ c ∈ rest, c ≠ nul := fun c member => noNul c (List.mem_append_right _ member)
  have text : cString ((before ++ rest).drop before.length) = rest := by
    rw [List.drop_left, cString, List.takeWhile_eq_self_iff]
    exact fun c member => decide_eq_true (noNulRest c member)
  obtain ⟨name, slashes, after, whole, isName, isSlashes, noSlash, areSlashes, behind, none⟩ :=
    exists_slashes rest
  rw [getParent]
  simp only [text, isName, isSlashes]
  rw [whole] at noNulRest ⊢
  by_cases noSlashes : slashes = []
  · have ends := none noSlashes
    refine Or.inl ⟨?_, _, if_pos noSlashes⟩
    rw [ends, noSlashes, middlesFrom_append noSlash]
    rfl
  · rw [if_neg noSlashes, middlesFrom_append noSlash,
      middlesFrom_slashes areSlashes noSlashes behind]
    cases after with
    | nil =>
      refine Or.inl ⟨if_pos rfl, before.length + name.length + slashes.length, ?_⟩
      have long : (before ++ (name ++ (slashes ++ []))).length ≤
          before.length + name.length + slashes.length := by
        simp only [List.length_append, List.length_nil]
        omega
      rw [List.set_eq_of_length_le long, List.getD_eq_default _ _ long]
    | cons c after =>
      refine Or.inr ⟨name ++ slashes, c, after, by simp, by simp [noSlashes],
        noNulRest c (by simp), ?_, ?_⟩
      · rw [if_neg (List.cons_ne_nil _ _), List.append_assoc]
      · have length : before.length + name.length + slashes.length =
            (before ++ (name ++ slashes)).length := by
          simp only [List.length_append]
          omega
        have split : before ++ (name ++ (slashes ++ c :: after)) =
            (before ++ (name ++ slashes)) ++ c :: after := by
          simp
        rw [length, split, List.set_append_right _ _ (Nat.le_refl _), Nat.sub_self,
          List.set_cons_zero, List.getD_append_right _ _ _ _ (Nat.le_refl _), Nat.sub_self,
          List.getD_cons_zero]

end Rounds

/-! ### The loop -/

section Loop

variable {system : System} {mode : BitVec 64} {mask : BitVec 9}

theorem cString_of_noNul {text : Text} (noNul : ∀ c ∈ text, c ≠ nul) : cString text = text := by
  rw [cString, List.takeWhile_eq_self_iff]
  exact fun c member => decide_eq_true (noNul c member)

theorem cString_cut {text : Text} (noNul : ∀ c ∈ text, c ≠ nul) (after : Text) :
    cString (text ++ nul :: after) = text := by
  rw [cString, List.takeWhile_append_of_pos fun c member => decide_eq_true (noNul c member),
    List.takeWhile_cons_of_neg (by simp), List.append_nil]

/-- What the function does for the property: it returns, has restored the umask, and where it
returns `0` the path is that of a directory; the path is restored if a condition holds. -/
def Makes (system : System) (mask : BitVec 9) (path : Text) (restores : Prop)
    (loop : ℕ → Option Made) (bound : ℕ) : Prop :=
  ∃ made, (∀ fuel, bound < fuel → loop fuel = some made) ∧ made.process.umask = mask ∧
    (made.returned = 0 → made.process.IsDir system path) ∧ (made.path = path ↔ restores)

theorem makeLoop_succ (system : System) (mode : BitVec 64) (recur : Bool) (mask : BitVec 9)
    {fuel bound : ℕ} (enough : bound < fuel) (making : Making) :
    ∃ less, bound ≤ less ∧ makeLoop system mode recur mask fuel making =
      match makeRound system mode recur mask making with
      | .inl made => some made
      | .inr making => makeLoop system mode recur mask less making := by
  obtain ⟨less, rfl⟩ := Nat.exists_eq_succ_of_ne_zero (Nat.ne_zero_of_lt enough)
  exact ⟨less, Nat.le_of_lt_succ enough, rfl⟩

/-- The loop, from a character of the path on. -/
theorem makeLoop_makes {before rest : Text} (noNul : ∀ c ∈ before ++ rest, c ≠ nul)
    (process : Process) :
    Makes system mask (before ++ rest)
      (passAll system process (middlesFrom before rest)).isSome
      (fun fuel => makeLoop system mode true mask fuel ⟨before ++ rest, before.length, process⟩)
      rest.length := by
  induction size : rest.length using Nat.strong_induction_on generalizing before rest process with
  | _ bound inductionHypothesis =>
    subst size
    have whole := cString_of_noNul noNul
    rcases getParent_eq noNul with ⟨noMiddle, s, cut⟩ |
      ⟨above, c, after, isRest, nonempty, more, middle, cut⟩
    · -- the last round
      obtain ⟨made, returns, path, umask, dir⟩ :=
        makeAt_last system mode true mask process (before ++ rest) s
      rw [whole] at dir
      refine ⟨made, fun fuel enough => ?_, umask, dir, ?_⟩
      · obtain ⟨less, -, same⟩ := makeLoop_succ system mode true mask
          enough ⟨before ++ rest, before.length, process⟩
        refine same.trans ?_
        simp only [makeRound, if_true, cut, returns]
      · rw [noMiddle]
        exact iff_of_true path rfl
    · have split : before ++ rest = before ++ above ++ c :: after := by
        rw [isRest, List.append_assoc]
      have noNulAbove : ∀ d ∈ before ++ above, d ≠ nul := fun d member =>
        noNul d (split ▸ List.mem_append_left _ member)
      have round := makeAt_middle system mode mask process
        (before ++ above ++ nul :: after) (before ++ above).length more
      rw [cString_cut noNulAbove] at round
      rw [middle, passAll]
      cases passes : pass system process (before ++ above) with
      | none =>
        -- the function returns with the path cut
        rw [passes] at round
        obtain ⟨made, returns, path, umask, failure⟩ := round
        refine ⟨made, fun fuel enough => ?_, umask, fun zero => ?_, ?_⟩
        · obtain ⟨less, -, same⟩ := makeLoop_succ system mode true mask
            enough ⟨before ++ rest, before.length, process⟩
          refine same.trans ?_
          simp only [makeRound, if_true, cut, returns]
        · rw [failure] at zero
          exact absurd zero (by decide)
        · refine iff_of_false (fun same => ?_) Bool.false_ne_true
          rw [path, split] at same
          exact more (List.cons.inj (List.append_cancel_left same)).1.symm
      | some next =>
        rw [passes] at round
        have shorter : (c :: after).length < rest.length := by
          have positive := List.length_pos_iff.mpr nonempty
          rw [isRest, List.length_append]
          omega
        have restored : (before ++ above ++ nul :: after).set (before ++ above).length c =
            before ++ above ++ c :: after := by
          rw [List.set_append_right _ _ (Nat.le_refl _), Nat.sub_self, List.set_cons_zero]
        obtain ⟨made, returns, umask, dir, path⟩ := @inductionHypothesis (c :: after).length
          shorter (before ++ above) (c :: after) (split ▸ noNul) next rfl
        rw [split]
        refine ⟨made, fun fuel enough => ?_, umask, dir, path⟩
        obtain ⟨less, le, same⟩ := makeLoop_succ system mode true mask
          enough ⟨before ++ above ++ c :: after, before.length, process⟩
        refine same.trans ?_
        rw [split] at cut
        simp only [makeRound, if_true, cut, round, restored]
        exact returns less (Nat.lt_of_lt_of_le shorter le)

end Loop

/-- The function returns, the text of the path and the umask are what they were, and where it
returns `0` the path and all before its slashes are directories. -/
def Frames (system : System) (path : Text) (mode : BitVec 64) (recur : Bool)
    (process : Process) : Prop :=
  ∃ made, (∀ fuel, path.length < fuel →
      bbMakeDirectory system fuel path mode recur process = some made) ∧
    made.path = path ∧ made.process.umask = process.umask ∧
    (made.returned = 0 → made.process.IsDir system path ∧
      ∀ before after, path = before ++ '/' :: after →
        made.process.IsDir system (before ++ ['/']))

/-- For every path, process and calls that fail, the function returns, restores the umask and
returns `0` for directories only; it restores the path if and only if each directory above the last
one is made or found. -/
theorem bbMakeDirectory_frames_iff (system : System) (path : Text) (noNul : ∀ c ∈ path, c ≠ nul)
    (mode : BitVec 64) (recur : Bool) (process : Process) :
    Frames system path mode recur process ↔
      (recur = true → (passAll system (enter process mode).1 (middles path)).isSome) := by
  have makes : Makes system process.umask path
      (recur = true → (passAll system (enter process mode).1 (middles path)).isSome)
      (fun fuel => bbMakeDirectory system fuel path mode recur process) path.length := by
    cases recur with
    | true =>
      simp only [true_imp_iff]
      exact @makeLoop_makes system (enter process mode).2 process.umask [] path noNul
        (enter process mode).1
    | false =>
      obtain ⟨made, returns, same, umask, dir⟩ := makeAt_last system (enter process mode).2 false
        process.umask (enter process mode).1 path 0
      rw [cString_of_noNul noNul] at dir
      refine ⟨made, fun fuel enough => ?_, umask, dir, iff_of_true same nofun⟩
      obtain ⟨less, -, loops⟩ := makeLoop_succ system (enter process mode).2 false
        process.umask enough ⟨path, 0, (enter process mode).1⟩
      refine loops.trans ?_
      simp only [makeRound, Bool.false_eq_true, if_false, returns]
  obtain ⟨made, returns, umask, dir, restores⟩ := makes
  constructor
  · rintro ⟨made', returns', same, -⟩
    have both := (returns (path.length + 1) (Nat.lt_succ_self _)).symm.trans
      (returns' (path.length + 1) (Nat.lt_succ_self _))
    obtain rfl := Option.some.inj both
    exact restores.mp same
  · intro passes
    refine ⟨made, returns, restores.mpr passes, umask, fun zero => ⟨dir zero, ?_⟩⟩
    rintro before after rfl
    exact isDir_of_prefix (dir zero)

/-- A system on which no call fails for a reason of its own. -/
def plainSystem : System := ⟨8, fun _ => none⟩

/-- A process in a root directory with a file. -/
def fileProcess : Process where
  tree place := if place = ["f".toList] then some (.file ()) else none
  modes _ := 0
  cwd := []
  dirs := dirs_nil _
  umask := 0o022
  calls := 0

theorem bbMakeDirectory_frames_iff_file :
    Frames plainSystem "a/b".toList 0o755 true fileProcess ↔
      (true = true →
        (passAll plainSystem (enter fileProcess 0o755).1 (middles "a/b".toList)).isSome) :=
  bbMakeDirectory_frames_iff plainSystem "a/b".toList (by decide) 0o755 true fileProcess

/-- Where a file is in the way, the path that the caller has is cut behind it. -/
theorem bbMakeDirectory_cuts :
    (bbMakeDirectory plainSystem 4 "f/x".toList 0o755 true fileProcess).map Made.path =
        some ['f', '/', '\x00'] ∧
      ¬ Frames plainSystem "f/x".toList 0o755 true fileProcess := by
  have cut : (bbMakeDirectory plainSystem 4 "f/x".toList 0o755 true fileProcess).map Made.path =
      some ['f', '/', '\x00'] := by decide
  refine ⟨cut, fun frames => ?_⟩
  obtain ⟨made, returns, same, -⟩ := frames
  rw [returns 4 (by decide), Option.map_some, same] at cut
  exact absurd cut (by decide)

end Buildroot4G.Makedevs
