/-
This file models `support/scripts/size-stats`, which finds out the package and the size of the
files in `target/`, and `support/scripts/size-stats-compare`, which compares two of the tables it
writes.

A table is a list of rows of texts, as the `csv` module writes and reads it; the sizes in a table
are written as decimal numbers. The list of the files is read as either version of Python reads it;
the tables are those that Python 2 writes, which prints any name.
-/

import Buildroot4G.Dict
import Buildroot4G.Fold
import Buildroot4G.Shell.Python

namespace Buildroot4G.Stats

open Shell

/-! ### size-stats -/

/-- What the scripts see of `target/`. -/
structure Tree where
  /-- The sizes of the files that `os.walk` finds, links apart, by their relative paths; that of a
  special file is zero. -/
  files : Dict Text ℕ
  /-- The sizes of what else a path leads to and is no symbolic link: directories, files behind a
  link to a directory or under another spelling of their path. -/
  elsewhere : Text → Option ℕ

/-- The size of what a path leads to, unless it is a link or does not exist. -/
def Tree.stat (tree : Tree) (path : Text) : Option ℕ :=
  (tree.files.lookup path).or (tree.elsewhere path)

/-- What the scripts read of the output directory of a build. -/
structure Build where
  target : Tree
  packagesFileList : Text

/-- A row of `filesdict`: the package of a file and its size. -/
abbrev FileInfo := Text × ℕ

def addFile (tree : Tree) (filesdict : Dict Text FileInfo) (relpath pkg : Text) :
    Dict Text FileInfo :=
  match tree.stat relpath with
  | none => filesdict
  | some size => filesdict.set relpath (pkg, size)

/-- The package and the path of a line of `packages-file-list.txt`. Any other number of commas
than one raises an exception. -/
def readRecord (python : Python) (line : Text) : Option (Text × Text) :=
  match line.splitOn ',' with
  | [pkg, path] => some (pkg, (strip python.blank path).drop 2)
  | _ => none

def buildPackageDict (python : Python) (build : Build) : Option (Dict Text FileInfo) :=
  (python.readlines build.packagesFileList).bind fun lines =>
    (lines.mapM (readRecord python)).map fun records =>
      records.foldl (fun filesdict record => addFile build.target filesdict record.2 record.1) ∅

def unknown : Text := "unknown".toList

def buildPackageSize (filesdict : Dict Text FileInfo) (tree : Tree) : Dict Text ℕ :=
  tree.files.entries.foldl
    (fun pkgsize file =>
      let pkg := ((filesdict.lookup file.1).map Prod.fst).getD unknown
      pkgsize.set pkg (pkgsize.value pkg + file.2))
    ∅

def filesHeader : List Text :=
  ["File name", "Package name", "File size", "Package size", "File size in package (%)",
    "File size in system (%)"].map String.toList

/-- The row of a file; the division by a size that is zero raises an exception. -/
def fileRow (percent : ℕ → ℕ → Text) (pkgsizes : Dict Text ℕ) (file : Text) (info : FileInfo) :
    Option (List Text) :=
  let pkgsize := pkgsizes.value info.1
  let total := pkgsizes.total
  if pkgsize = 0 ∨ total = 0 then none
  else
    some [file, info.1, decimal info.2, decimal pkgsize, percent info.2 pkgsize,
      percent info.2 total]

def genFilesCsv (percent : ℕ → ℕ → Text) (filesdict : Dict Text FileInfo)
    (pkgsizes : Dict Text ℕ) : Option (List (List Text)) :=
  (filesdict.entries.mapM fun entry => fileRow percent pkgsizes entry.1 entry.2).map
    fun rows => filesHeader :: rows

def packagesHeader : List Text :=
  ["Package name", "Package size", "Package size in system (%)"].map String.toList

/-- The row of a package, with a division by the total. -/
def packageRow (percent : ℕ → ℕ → Text) (pkgsizes : Dict Text ℕ) (pkg : Text) (size : ℕ) :
    Option (List Text) :=
  let total := pkgsizes.total
  if total = 0 then none else some [pkg, decimal size, percent size total]

def genPackagesCsv (percent : ℕ → ℕ → Text) (pkgsizes : Dict Text ℕ) :
    Option (List (List Text)) :=
  (pkgsizes.entries.mapM fun entry => packageRow percent pkgsizes entry.1 entry.2).map
    fun rows => packagesHeader :: rows

/-- `file-size-stats.csv`. -/
def fileSizeCsv (percent : ℕ → ℕ → Text) (build : Build) : Option (List (List Text)) :=
  (buildPackageDict python2 build).bind fun filesdict =>
    genFilesCsv percent filesdict (buildPackageSize filesdict build.target)

/-- `package-size-stats.csv`. -/
def packageSizeCsv (percent : ℕ → ℕ → Text) (build : Build) : Option (List (List Text)) :=
  (buildPackageDict python2 build).bind fun filesdict =>
    genPackagesCsv percent (buildPackageSize filesdict build.target)

/-! ### size-stats-compare -/

/-- What a row says: the size of its file, or that of its package. -/
def readSize (detail : Bool) (row : List Text) : Option (Text × ℤ) := do
  let name ← row[if detail then 0 else 1]?
  let size ← row[if detail then 2 else 3]?
  let size ← readInt size
  pure (name, size)

def readFileSizeCsv (detail : Bool) : List (List Text) → Option (Dict Text ℤ)
  | [] => none
  | header :: rows =>
    if header.take 4 = filesHeader.take 4 then (rows.mapM (readSize detail)).map Dict.ofList
    else none

/-- The assignments of the three loops of `compareSizes`. -/
def sizeDeltas (old new : Dict Text ℤ) : List (Text × Text × ℤ) :=
  let both := new.keys.filter fun entry => entry ∈ old
  let added := new.keys.filter fun entry => entry ∉ old
  let removed := old.keys.filter fun entry => entry ∉ new
  both.map (fun entry => (entry, "".toList, new.value entry - old.value entry)) ++
    (added.map (fun entry => (entry, "added".toList, new.value entry)) ++
      removed.map fun entry => (entry, "removed".toList, -old.value entry))

/-- A flag and a difference of sizes for each name. -/
def compareSizes (old new : Dict Text ℤ) : Dict Text (Text × ℤ) :=
  Dict.ofList (sizeDeltas old new)

/-- The number that is printed as `TOTAL`. -/
def printedTotal (old new : Dict Text ℤ) : ℤ := new.total - old.total

/-! ### The dictionary of the files -/

/-- The package of the last record of a path. -/
def ownerOf (records : List (Text × Text)) (path : Text) : Option Text :=
  (records.filter fun record => record.2 = path).getLast?.map Prod.fst

/-- The packages and paths of the list. -/
def Build.records (build : Build) : List (Text × Text) :=
  (fileLines build.packagesFileList).filterMap (readRecord python2)

/-- The package of the last line about a path. -/
def Build.owner (build : Build) (path : Text) : Option Text := ownerOf build.records path

def Build.packageOf (build : Build) (path : Text) : Text := (build.owner path).getD unknown

def Tree.size (tree : Tree) (path : Text) : ℕ := (tree.stat path).getD 0

theorem owner_eq_none_iff {build : Build} {path : Text} :
    build.owner path = none ↔ path ∉ build.records.map Prod.snd := by
  rw [Build.owner, ownerOf, Option.map_eq_none_iff, List.getLast?_eq_none_iff,
    List.filter_eq_nil_iff, List.mem_map]
  constructor
  · rintro noRecord ⟨record, inside, rfl⟩
    exact noRecord record inside (decide_eq_true rfl)
  · intro absent record inside here
    exact absent ⟨record, inside, of_decide_eq_true here⟩

theorem readRecord_isSome_iff {python : Python} {line : Text} :
    (readRecord python line).isSome ↔ line.count ',' = 1 := by
  have pieces := length_splitOn ',' line
  rw [readRecord]
  constructor
  · intro isRecord
    split at isRecord
    · rename_i pkg path split
      rw [split] at pieces
      exact (Nat.succ_injective pieces).symm
    · cases isRecord
  · intro once
    rw [once] at pieces
    obtain ⟨pkg, path, split⟩ := List.length_eq_two.mp pieces
    rw [split]
    rfl

theorem lookup_addFile (tree : Tree) (filesdict : Dict Text FileInfo) (relpath pkg path : Text) :
    (addFile tree filesdict relpath pkg).lookup path =
      if path = relpath ∧ (tree.stat path).isSome then some (pkg, tree.size path)
      else filesdict.lookup path := by
  rw [addFile]
  by_cases here : path = relpath
  · subst here
    rw [Tree.size]
    cases tree.stat path with
    | none => rw [if_neg (by simp)]
    | some size => rw [if_pos (by simp)]; exact filesdict.lookup_set_self path (pkg, size)
  · rw [if_neg fun both => here both.1]
    cases tree.stat relpath with
    | none => rfl
    | some size => exact filesdict.lookup_set_of_ne (pkg, size) here

/-- What the dictionary has of a path. -/
theorem lookup_addFiles (tree : Tree) (records : List (Text × Text)) (path : Text) :
    (records.foldl (fun filesdict record => addFile tree filesdict record.2 record.1) ∅).lookup
        path =
      if (tree.stat path).isSome then
        (records.filter fun record => record.2 = path).getLast?.map
          fun record => (record.1, tree.size path)
      else none := by
  induction records using List.reverseRecOn with
  | nil => rw [List.foldl_nil, List.filter_nil, List.getLast?_nil, Option.map_none, ite_self]; rfl
  | append_singleton records record inductionHypothesis =>
    rw [List.foldl_append, List.foldl_cons, List.foldl_nil, lookup_addFile, inductionHypothesis,
      List.filter_append, List.filter_singleton]
    by_cases here : record.2 = path
    · rw [decide_eq_true here, cond_true, List.getLast?_concat]
      by_cases isSome : (tree.stat path).isSome
      · rw [if_pos ⟨here.symm, isSome⟩, if_pos isSome]
        rfl
      · rw [if_neg fun both => isSome both.2, if_neg isSome, if_neg isSome]
    · rw [decide_eq_false here, cond_false, List.append_nil, if_neg fun both => here both.1.symm]

section Dictionary

variable {python : Python} {build : Build} {lines : List Text}
  (isText : python.readlines build.packagesFileList = some lines)

include isText in
theorem buildPackageDict_isSome_of_lines :
    (buildPackageDict python build).isSome ↔ ∀ line ∈ lines, line.count ',' = 1 := by
  rw [buildPackageDict, isText, Option.bind_some, Option.isSome_map, Fold.mapM_isSome_iff]
  exact forall₂_congr fun line _ => readRecord_isSome_iff

include isText in
/-- What the dictionary has of a path, by the lines that are read. -/
theorem lookup_buildPackageDict_of_lines {filesdict : Dict Text FileInfo}
    (isDict : buildPackageDict python build = some filesdict) (path : Text) :
    filesdict.lookup path =
      if (build.target.stat path).isSome then
        (ownerOf (lines.filterMap (readRecord python)) path).map
          fun pkg => (pkg, build.target.size path)
      else none := by
  have all : ∀ line ∈ lines, (readRecord python line).isSome := by
    rw [← Fold.mapM_isSome_iff, Option.isSome_iff_exists]
    rw [buildPackageDict, isText, Option.bind_some, Option.map_eq_some_iff] at isDict
    obtain ⟨records, areRecords, -⟩ := isDict
    exact ⟨records, areRecords⟩
  rw [buildPackageDict, isText, Option.bind_some, Fold.mapM_eq_filterMap all, Option.map_some,
    Option.some.injEq] at isDict
  rw [← isDict, lookup_addFiles, ownerOf, Option.map_map]
  rfl

end Dictionary

theorem readlines_python2 (text : Text) : python2.readlines text = some (fileLines text) :=
  if_pos (List.all_eq_true.mpr fun _ _ => rfl)

theorem buildPackageDict_isSome_iff {build : Build} :
    (buildPackageDict python2 build).isSome ↔
      ∀ line ∈ fileLines build.packagesFileList, line.count ',' = 1 :=
  buildPackageDict_isSome_of_lines (readlines_python2 _)

theorem lookup_buildPackageDict {build : Build} {filesdict : Dict Text FileInfo}
    (isDict : buildPackageDict python2 build = some filesdict) (path : Text) :
    filesdict.lookup path =
      if (build.target.stat path).isSome then
        (build.owner path).map fun pkg => (pkg, build.target.size path)
      else none :=
  lookup_buildPackageDict_of_lines (readlines_python2 _) isDict path

end Buildroot4G.Stats
