/-
This file compares the totals that `size-stats-compare` prints with the sizes of the trees. The
table of the files has a row for every path of the list that exists and for no other file: a file
of no package is left out of it, though `size-stats` counts it for the package `unknown`, and what
a path leads to elsewhere is counted. The script divides by the size of a package, which is zero
when others took over all of its files or they are empty, and then writes no table.
-/

import Buildroot4G.Stats.SizeStats
import Mathlib.Algebra.BigOperators.Ring.Finset
import Mathlib.Algebra.Order.BigOperators.Group.Finset

namespace Buildroot4G.Stats

open Shell

/-! ### What the list and the tree say -/

/-- The paths of the list that exist. -/
def Build.listed (build : Build) : Finset Text :=
  (build.records.map Prod.snd).toFinset.filter fun path => (build.target.stat path).isSome

/-- The packages that own a path that exists. -/
def Build.packages (build : Build) : Finset Text := build.listed.image build.packageOf

def Tree.paths (tree : Tree) : Finset Text := tree.files.keys.toFinset

/-- The sum of the sizes of the regular files. -/
def Tree.regularSize (tree : Tree) : ℕ := ∑ path ∈ tree.paths, tree.size path

/-- The size of the files that no line is about. -/
def Build.unlistedSize (build : Build) : ℕ :=
  ∑ path ∈ build.target.paths \ build.listed, build.target.size path

/-- The size of what the list leads to outside the walk. -/
def Build.extraSize (build : Build) : ℕ :=
  ∑ path ∈ build.listed \ build.target.paths, build.target.size path

/-- The size of the files whose package has no row. -/
def Build.droppedSize (build : Build) : ℕ :=
  ∑ path ∈ build.target.paths with build.packageOf path ∉ build.packages, build.target.size path

/-- What `size-stats` needs to write the table. -/
structure Build.Complete (build : Build) : Prop where
  oneComma : ∀ line ∈ fileLines build.packagesFileList, line.count ',' = 1
  nonzero : ∀ pkg ∈ build.packages, ∃ path ∈ build.target.paths,
    build.packageOf path = pkg ∧ build.target.size path ≠ 0

theorem size_of_mem_paths {tree : Tree} {path : Text} (inside : path ∈ tree.paths) :
    tree.stat path = tree.files.lookup path ∧ tree.size path = tree.files.value path := by
  have isFile : path ∈ tree.files := AList.mem_keys.mpr (List.mem_toFinset.mp inside)
  obtain ⟨size, found⟩ := Option.isSome_iff_exists.mp (AList.lookup_isSome.mpr isFile)
  have stat : tree.stat path = some size := by
    rw [Tree.stat, found]
    rfl
  rw [Tree.size, Dict.value, stat, found]
  exact ⟨rfl, rfl⟩

/-! ### The sizes that size-stats finds -/

section Sizes

variable {build : Build} {filesdict : Dict Text FileInfo}
  (isDict : buildPackageDict python2 build = some filesdict)

theorem mem_listed {path : Text} :
    path ∈ build.listed ↔ (build.target.stat path).isSome ∧ build.owner path ≠ none := by
  rw [Build.listed, Finset.mem_filter, List.mem_toFinset, ne_eq, owner_eq_none_iff, not_not,
    and_comm]

include isDict in
theorem lookup_of_mem_listed {path : Text} (isListed : path ∈ build.listed) :
    filesdict.lookup path = some (build.packageOf path, build.target.size path) := by
  obtain ⟨isSome, owned⟩ := mem_listed.mp isListed
  obtain ⟨pkg, isOwner⟩ := Option.ne_none_iff_exists'.mp owned
  rw [lookup_buildPackageDict isDict, if_pos isSome, Build.packageOf, isOwner]
  rfl

include isDict in
theorem keys_buildPackageDict : filesdict.keys.toFinset = build.listed := by
  refine Finset.ext fun path => ?_
  rw [List.mem_toFinset, ← AList.mem_keys, ← AList.lookup_isSome, lookup_buildPackageDict isDict,
    mem_listed]
  split
  · rename_i isSome
    rw [Option.isSome_map, Option.isSome_iff_ne_none, and_iff_right isSome]
  · rename_i isNone
    exact iff_of_false Bool.false_ne_true fun both => isNone both.1

include isDict in
/-- The size that is counted for a package. -/
theorem value_buildPackageSize (pkg : Text) :
    (buildPackageSize filesdict build.target).value pkg =
      ∑ path ∈ build.target.paths with build.packageOf path = pkg, build.target.size path := by
  have nothing : Dict.value (∅ : Dict Text ℕ) pkg = 0 :=
    Dict.value_of_not_mem (AList.notMem_empty pkg)
  rw [buildPackageSize, Dict.value_foldl_add, nothing, zero_add]
  have packages : ∀ entry ∈ build.target.files.entries,
      ((filesdict.lookup entry.1).map Prod.fst).getD unknown = build.packageOf entry.1 := by
    intro entry inside
    have found : build.target.files.lookup entry.1 = some entry.2 := AList.mem_lookup_iff.mpr inside
    have stat : (build.target.stat entry.1).isSome := by
      rw [Tree.stat, found]
      rfl
    rw [lookup_buildPackageDict isDict, if_pos stat, Option.map_map, Build.packageOf]
    congr 1
    exact Option.map_id'
  have filters : (build.target.files.entries.filter fun entry =>
      ((filesdict.lookup entry.1).map Prod.fst).getD unknown = pkg) =
        build.target.files.entries.filter fun entry => build.packageOf entry.1 = pkg :=
    List.filter_congr fun entry inside => by rw [packages entry inside]
  rw [filters]
  refine (Dict.sum_filter build.target.files fun path => build.packageOf path = pkg).trans ?_
  refine Finset.sum_congr rfl fun path inside => ?_
  exact (size_of_mem_paths (Finset.mem_filter.mp inside).1).2.symm

include isDict in
/-- Every file is counted for some package. -/
theorem total_buildPackageSize :
    (buildPackageSize filesdict build.target).total = build.target.regularSize := by
  have covers : ∀ pkg ∈ buildPackageSize filesdict build.target,
      pkg ∈ (buildPackageSize filesdict build.target).keys.toFinset ∪
        build.target.paths.image build.packageOf := fun pkg inside =>
    Finset.mem_union_left _ (List.mem_toFinset.mpr (AList.mem_keys.mp inside))
  rw [Dict.total_eq_sum covers, Finset.sum_congr rfl fun pkg _ => value_buildPackageSize isDict pkg,
    Finset.sum_fiberwise_eq_sum_filter, Finset.filter_true_of_mem, Tree.regularSize]
  exact fun path inside => Finset.mem_union_right _ (Finset.mem_image_of_mem _ inside)

include isDict in
/-- The table of the packages has all that is in the tree. -/
theorem sum_genPackagesCsv {percent : ℕ → ℕ → Text} {csv : List (List Text)}
    (generated : genPackagesCsv percent (buildPackageSize filesdict build.target) = some csv) :
    (csv.tail.map fun row => (row[1]?.bind readInt).getD 0).sum = build.target.regularSize := by
  obtain ⟨rows, areRows, rfl⟩ := Option.map_eq_some_iff.mp generated
  have sizes := Fold.mapM_of_mapM areRows
    (g := fun row => some ((row[1]?.bind readInt).getD 0)) (h := fun entry => (entry.2 : ℤ))
    fun entry _ row isRow => by
      rw [packageRow] at isRow
      split at isRow
      · cases isRow
      · cases isRow
        show some ((readInt (decimal entry.2)).getD 0) = _
        rw [readInt_decimal, Option.getD_some]
  have all : (rows.mapM fun row => some ((row[1]?.bind readInt).getD 0)) =
      some (rows.map fun row => (row[1]?.bind readInt).getD 0) := List.mapM_pure
  rw [all, Option.some.injEq] at sizes
  rw [List.tail_cons, sizes, ← total_buildPackageSize isDict, Dict.total, Nat.cast_list_sum,
    List.map_map]
  rfl

theorem value_le_total (sizes : Dict Text ℕ) (pkg : Text) : sizes.value pkg ≤ sizes.total := by
  by_cases inside : pkg ∈ sizes
  · rw [Dict.total_eq_sum_keys]
    exact Finset.single_le_sum (fun _ _ => Nat.zero_le _)
      (List.mem_toFinset.mpr (AList.mem_keys.mp inside))
  · rw [Dict.value_of_not_mem inside]
    exact Nat.zero_le _

theorem fileRow_isSome_iff {percent : ℕ → ℕ → Text} {pkgsizes : Dict Text ℕ} {file : Text}
    {info : FileInfo} :
    (fileRow percent pkgsizes file info).isSome ↔ pkgsizes.value info.1 ≠ 0 := by
  have le := value_le_total pkgsizes info.1
  rw [fileRow]
  split
  · rename_i zero
    exact iff_of_false Bool.false_ne_true (by omega)
  · rename_i nonzero
    exact iff_of_true rfl fun zero => nonzero (Or.inl zero)

include isDict in
theorem forall_entries (holds : Text → Text → ℕ → Prop) :
    (∀ entry ∈ filesdict.entries, holds entry.1 entry.2.1 entry.2.2) ↔
      ∀ path ∈ build.listed, holds path (build.packageOf path) (build.target.size path) := by
  constructor
  · intro all path isListed
    exact all _ (AList.mem_lookup_iff.mp (lookup_of_mem_listed isDict isListed))
  · intro all entry inside
    have found : filesdict.lookup entry.1 = some entry.2 := AList.mem_lookup_iff.mpr inside
    have isListed : entry.1 ∈ build.listed := by
      rw [← keys_buildPackageDict isDict, List.mem_toFinset]
      exact List.mem_map_of_mem inside
    rw [lookup_of_mem_listed isDict isListed, Option.some.injEq] at found
    have here := all entry.1 isListed
    rwa [← found]

end Sizes

/-- Without `Complete` the script raises an exception. -/
theorem fileSizeCsv_isSome_iff {percent : ℕ → ℕ → Text} {build : Build} :
    (fileSizeCsv percent build).isSome ↔ build.Complete := by
  rw [fileSizeCsv]
  cases isDict : buildPackageDict python2 build with
  | none =>
    refine iff_of_false Bool.false_ne_true fun complete => ?_
    have isSome := buildPackageDict_isSome_iff.mpr complete.oneComma
    rw [isDict] at isSome
    cases isSome
  | some filesdict =>
    have oneComma : ∀ line ∈ fileLines build.packagesFileList, line.count ',' = 1 := by
      rw [← buildPackageDict_isSome_iff, isDict]
      rfl
    have nonzero : (∀ entry ∈ filesdict.entries, (fileRow percent
          (buildPackageSize filesdict build.target) entry.1 entry.2).isSome) ↔
        ∀ pkg ∈ build.packages, ∃ path ∈ build.target.paths,
          build.packageOf path = pkg ∧ build.target.size path ≠ 0 := by
      simp only [fileRow_isSome_iff]
      rw [forall_entries isDict fun _ pkg _ =>
        (buildPackageSize filesdict build.target).value pkg ≠ 0, Build.packages,
        Finset.forall_mem_image]
      refine forall₂_congr fun path _ => ?_
      rw [value_buildPackageSize isDict, ne_eq, Finset.sum_eq_zero_iff]
      simp only [not_forall, exists_prop]
      exact exists_congr fun path => by rw [Finset.mem_filter, and_assoc]
    rw [Option.bind_some, genFilesCsv, Option.isSome_map, Fold.mapM_isSome_iff, nonzero]
    exact ⟨fun all => ⟨oneComma, all⟩, Build.Complete.nonzero⟩

/-! ### The sizes that size-stats-compare reads -/

theorem readSize_fileRow {percent : ℕ → ℕ → Text} {pkgsizes : Dict Text ℕ} {file : Text}
    {info : FileInfo} {row : List Text} (isRow : fileRow percent pkgsizes file info = some row)
    (detail : Bool) :
    readSize detail row =
      some (if detail then (file, (info.2 : ℤ)) else (info.1, (pkgsizes.value info.1 : ℤ))) := by
  rw [fileRow] at isRow
  split at isRow
  · cases isRow
  · cases isRow
    cases detail
    · show (readInt (decimal (pkgsizes.value info.1))).bind _ = _
      rw [readInt_decimal]
      rfl
    · show (readInt (decimal info.2)).bind _ = _
      rw [readInt_decimal]
      rfl

/-- What is read of a table, in detail and by package. -/
theorem readFileSizeCsv_fileSizeCsv {percent : ℕ → ℕ → Text} {build : Build}
    {csv : List (List Text)} (generated : fileSizeCsv percent build = some csv) (detail : Bool) :
    ∃ filesdict, buildPackageDict python2 build = some filesdict ∧
      readFileSizeCsv detail csv =
        some (Dict.ofList (filesdict.entries.map fun entry =>
          if detail then (entry.1, (entry.2.2 : ℤ))
          else (entry.2.1, ((buildPackageSize filesdict build.target).value entry.2.1 : ℤ)))) := by
  rw [fileSizeCsv, Option.bind_eq_some_iff] at generated
  obtain ⟨filesdict, isDict, isCsv⟩ := generated
  rw [genFilesCsv, Option.map_eq_some_iff] at isCsv
  obtain ⟨rows, areRows, rfl⟩ := isCsv
  refine ⟨filesdict, isDict, ?_⟩
  have read := Fold.mapM_of_mapM areRows fun entry _ row isRow => readSize_fileRow isRow detail
  rw [readFileSizeCsv, if_pos rfl, read]
  rfl

/-- The total of the sizes of the files. -/
theorem total_detail {percent : ℕ → ℕ → Text} {build : Build} {csv : List (List Text)}
    (generated : fileSizeCsv percent build = some csv) :
    ∃ sizes, readFileSizeCsv true csv = some sizes ∧
      sizes.total + build.unlistedSize = build.target.regularSize + build.extraSize := by
  obtain ⟨filesdict, isDict, read⟩ := readFileSizeCsv_fileSizeCsv generated true
  refine ⟨_, read, ?_⟩
  simp only [if_true]
  have total : (Dict.ofList (filesdict.entries.map fun entry =>
      (entry.1, (entry.2.2 : ℤ)))).total = ∑ path ∈ build.listed, (build.target.size path : ℤ) := by
    have sizes := (forall_entries isDict fun path _ size => size = build.target.size path).mpr
      fun _ _ => rfl
    rw [Dict.total_ofList fun path => (build.target.size path : ℤ), List.map_map,
      ← keys_buildPackageDict isDict]
    · rfl
    · intro pair inside
      obtain ⟨entry, isEntry, rfl⟩ := List.mem_map.mp inside
      rw [sizes entry isEntry]
  have listed := Finset.sum_inter_add_sum_sdiff build.listed build.target.paths build.target.size
  have walked := Finset.sum_inter_add_sum_sdiff build.target.paths build.listed build.target.size
  rw [Finset.inter_comm] at walked
  rw [total, ← Nat.cast_sum, ← listed, Tree.regularSize, ← walked, Build.unlistedSize,
    Build.extraSize]
  push_cast
  ring

/-- The total of the sizes of the packages. -/
theorem total_package {percent : ℕ → ℕ → Text} {build : Build} {csv : List (List Text)}
    (generated : fileSizeCsv percent build = some csv) :
    ∃ sizes, readFileSizeCsv false csv = some sizes ∧
      sizes.total + build.droppedSize = build.target.regularSize := by
  obtain ⟨filesdict, isDict, read⟩ := readFileSizeCsv_fileSizeCsv generated false
  refine ⟨_, read, ?_⟩
  simp only [Bool.false_eq_true, if_false]
  have total : (Dict.ofList (filesdict.entries.map fun entry => (entry.2.1,
      ((buildPackageSize filesdict build.target).value entry.2.1 : ℤ)))).total =
        ∑ pkg ∈ build.packages, ((buildPackageSize filesdict build.target).value pkg : ℤ) := by
    have packages : filesdict.entries.map (fun entry => entry.2.1) =
        filesdict.keys.map build.packageOf := by
      have pkgs := (forall_entries isDict fun path pkg _ => pkg = build.packageOf path).mpr
        fun _ _ => rfl
      rw [AList.keys, List.keys, List.map_map]
      exact List.map_congr_left pkgs
    have owners : build.packages = (filesdict.keys.map build.packageOf).toFinset := by
      rw [Build.packages, ← keys_buildPackageDict isDict]
      refine Finset.ext fun pkg => ?_
      simp only [Finset.mem_image, List.mem_toFinset, List.mem_map]
    rw [Dict.total_ofList fun pkg => ((buildPackageSize filesdict build.target).value pkg : ℤ),
      List.map_map, owners, ← packages]
    · rfl
    · intro pair inside
      obtain ⟨entry, _, rfl⟩ := List.mem_map.mp inside
      rfl
  have fiberwise := Finset.sum_fiberwise_eq_sum_filter build.target.paths build.packages
    build.packageOf build.target.size
  rw [total, ← Nat.cast_sum, Finset.sum_congr rfl fun pkg _ => value_buildPackageSize isDict pkg,
    fiberwise, Build.droppedSize, Tree.regularSize, ← Nat.cast_add,
    Finset.sum_filter_add_sum_filter_not]

theorem mem_sizeDeltas {old new : Dict Text ℤ} {pair : Text × Text × ℤ} :
    pair ∈ sizeDeltas old new ↔
      (∃ entry ∈ new, entry ∈ old ∧ (entry, "".toList, new.value entry - old.value entry) = pair) ∨
      (∃ entry ∈ new, entry ∉ old ∧ (entry, "added".toList, new.value entry) = pair) ∨
      ∃ entry ∈ old, entry ∉ new ∧ (entry, "removed".toList, -old.value entry) = pair := by
  simp only [sizeDeltas, List.mem_append, List.mem_map, List.mem_filter, decide_eq_true_eq,
    ← AList.mem_keys, and_assoc]

/-- The differences add up to the difference of the totals. -/
theorem sum_compareSizes (old new : Dict Text ℤ) :
    ((compareSizes old new).entries.map fun entry => entry.2.2).sum = printedTotal old new := by
  have weighs : ∀ pair ∈ sizeDeltas old new, pair.2.2 = new.value pair.1 - old.value pair.1 := by
    intro pair inside
    rcases mem_sizeDeltas.mp inside with
      ⟨entry, -, -, rfl⟩ | ⟨entry, -, notOld, rfl⟩ | ⟨entry, -, notNew, rfl⟩
    · rfl
    · rw [Dict.value_of_not_mem notOld, sub_zero]
    · rw [Dict.value_of_not_mem notNew, zero_sub]
  have newKeys : ∀ key ∈ new, key ∈ ((sizeDeltas old new).map Prod.fst).toFinset := by
    intro key inside
    rw [List.mem_toFinset, List.mem_map]
    by_cases isOld : key ∈ old
    · exact ⟨_, mem_sizeDeltas.mpr (Or.inl ⟨key, inside, isOld, rfl⟩), rfl⟩
    · exact ⟨_, mem_sizeDeltas.mpr (Or.inr (Or.inl ⟨key, inside, isOld, rfl⟩)), rfl⟩
  have oldKeys : ∀ key ∈ old, key ∈ ((sizeDeltas old new).map Prod.fst).toFinset := by
    intro key inside
    by_cases isNew : key ∈ new
    · exact newKeys key isNew
    · rw [List.mem_toFinset, List.mem_map]
      exact ⟨_, mem_sizeDeltas.mpr (Or.inr (Or.inr ⟨key, inside, isNew, rfl⟩)), rfl⟩
  rw [compareSizes, Dict.sum_ofList Prod.snd (fun key => new.value key - old.value key) weighs,
    Finset.sum_sub_distrib, printedTotal, Dict.total_eq_sum newKeys, Dict.total_eq_sum oldKeys]

/-! ### The totals -/

/-- Two tables are made, and in detail and by package the printed total is the difference of the
sizes of the trees and the sum of the differences. -/
def Agrees (percent : ℕ → ℕ → Text) (old new : Build) : Prop :=
  ∃ oldCsv newCsv, fileSizeCsv percent old = some oldCsv ∧ fileSizeCsv percent new = some newCsv ∧
    ∀ detail, ∃ oldSizes newSizes, readFileSizeCsv detail oldCsv = some oldSizes ∧
      readFileSizeCsv detail newCsv = some newSizes ∧
      printedTotal oldSizes newSizes = (new.target.regularSize : ℤ) - old.target.regularSize ∧
      printedTotal oldSizes newSizes =
        ((compareSizes oldSizes newSizes).entries.map fun entry => entry.2.2).sum

/-- A total that is right shows what the other sides of the equations have in common. -/
theorem Agrees.leaves_out {percent : ℕ → ℕ → Text} {old new : Build}
    (agrees : Agrees percent old new) :
    old.droppedSize = new.droppedSize ∧
      old.unlistedSize + new.extraSize = new.unlistedSize + old.extraSize := by
  obtain ⟨oldCsv, newCsv, oldGenerated, newGenerated, totals⟩ := agrees
  constructor
  · obtain ⟨oldSizes, newSizes, oldRead, newRead, isDifference, -⟩ := totals false
    obtain ⟨oldFound, oldIsFound, oldTotal⟩ := total_package oldGenerated
    obtain ⟨newFound, newIsFound, newTotal⟩ := total_package newGenerated
    cases oldRead.symm.trans oldIsFound
    cases newRead.symm.trans newIsFound
    rw [printedTotal] at isDifference
    omega
  · obtain ⟨oldSizes, newSizes, oldRead, newRead, isDifference, -⟩ := totals true
    obtain ⟨oldFound, oldIsFound, oldTotal⟩ := total_detail oldGenerated
    obtain ⟨newFound, newIsFound, newTotal⟩ := total_detail newGenerated
    cases oldRead.symm.trans oldIsFound
    cases newRead.symm.trans newIsFound
    rw [printedTotal] at isDifference
    omega

/-- The totals are right exactly when the script can write both tables, as much is left out by
package in both, and as much is left out in detail, less what is counted outside the walk. -/
theorem agrees_iff (percent : ℕ → ℕ → Text) (old new : Build) :
    Agrees percent old new ↔
      old.Complete ∧ new.Complete ∧ old.droppedSize = new.droppedSize ∧
        old.unlistedSize + new.extraSize = new.unlistedSize + old.extraSize := by
  constructor
  · intro agrees
    obtain ⟨oldCsv, newCsv, oldGenerated, newGenerated, -⟩ := id agrees
    exact ⟨fileSizeCsv_isSome_iff.mp (Option.isSome_of_mem oldGenerated),
      fileSizeCsv_isSome_iff.mp (Option.isSome_of_mem newGenerated), agrees.leaves_out⟩
  · rintro ⟨oldComplete, newComplete, dropped, listed⟩
    obtain ⟨oldCsv, oldGenerated⟩ :=
      Option.isSome_iff_exists.mp (fileSizeCsv_isSome_iff.mpr oldComplete)
    obtain ⟨newCsv, newGenerated⟩ :=
      Option.isSome_iff_exists.mp (fileSizeCsv_isSome_iff.mpr newComplete)
    refine ⟨oldCsv, newCsv, oldGenerated, newGenerated, fun detail => ?_⟩
    cases detail with
    | true =>
      obtain ⟨oldSizes, oldRead, oldTotal⟩ := total_detail oldGenerated
      obtain ⟨newSizes, newRead, newTotal⟩ := total_detail newGenerated
      refine ⟨oldSizes, newSizes, oldRead, newRead, ?_, (sum_compareSizes _ _).symm⟩
      rw [printedTotal]
      omega
    | false =>
      obtain ⟨oldSizes, oldRead, oldTotal⟩ := total_package oldGenerated
      obtain ⟨newSizes, newRead, newTotal⟩ := total_package newGenerated
      refine ⟨oldSizes, newSizes, oldRead, newRead, ?_, (sum_compareSizes _ _).symm⟩
      rw [printedTotal]
      omega

def busyboxList : Text := "busybox,./bin/busybox\n".toList

def plainBuild : Build where
  target := ⟨Dict.ofList [("bin/busybox".toList, 1000)], fun _ => none⟩
  packagesFileList := busyboxList

/-- The build with a file of a root filesystem overlay, which no package installs. -/
def overlaidBuild : Build where
  target := ⟨Dict.ofList [("bin/busybox".toList, 1000), ("etc/motd".toList, 200)], fun _ => none⟩
  packagesFileList := busyboxList

/-- The table has the file of the overlay, too. -/
theorem sum_genPackagesCsv_overlaid :
    ∃ csv, packageSizeCsv (fun _ _ => "100.0".toList) overlaidBuild = some csv ∧
      (csv.tail.map fun row => (row[1]?.bind readInt).getD 0).sum =
        overlaidBuild.target.regularSize := by
  have isSome : (packageSizeCsv (fun _ _ => "100.0".toList) overlaidBuild).isSome := by
    decide +kernel
  obtain ⟨csv, isCsv⟩ := Option.isSome_iff_exists.mp isSome
  obtain ⟨filesdict, isDict, generated⟩ := Option.bind_eq_some_iff.mp isCsv
  exact ⟨csv, isCsv, sum_genPackagesCsv isDict generated⟩

/-- The tree has grown by two hundred bytes, and they are in neither total. -/
theorem leaves_out_overlay :
    overlaidBuild.target.regularSize = plainBuild.target.regularSize + 200 ∧
      ¬Agrees (fun _ _ => "100.0".toList) plainBuild overlaidBuild := by
  refine ⟨by decide +kernel, fun agrees => ?_⟩
  have plain : plainBuild.droppedSize = 0 := by decide +kernel
  have overlaid : overlaidBuild.droppedSize = 200 := by decide +kernel
  have same := agrees.leaves_out.1
  rw [plain, overlaid] at same
  cases same

end Buildroot4G.Stats
