/-
This file compares the two sides of `size-stats`: the dictionary of the files comes from the list of
the build, the sizes of the packages from a walk of `target/`. The main result says when both tables
are written and the size of each package is that of its files: when no division is by zero, and as
much of the package is listed outside the walk as is walked outside the list.
-/

import Buildroot4G.Stats.Totals

namespace Buildroot4G.Stats

open Shell

/-! ### The rows of the files -/

/-- The size that is counted for a package. -/
def Build.packageSize (build : Build) (pkg : Text) : ℕ :=
  ∑ path ∈ build.target.paths with build.packageOf path = pkg, build.target.size path

/-- The row of a listed path. -/
def Build.row (percent : ℕ → ℕ → Text) (build : Build) (path : Text) : List Text :=
  [path, build.packageOf path, decimal (build.target.size path),
    decimal (build.packageSize (build.packageOf path)),
    percent (build.target.size path) (build.packageSize (build.packageOf path)),
    percent (build.target.size path) build.target.regularSize]

/-- The rows with the package of a row. -/
def rowsOf (csv : List (List Text)) (pkg : Option Text) : List (List Text) :=
  csv.tail.filter fun row => row[1]? = pkg

/-- The sum of the sizes of the files in some rows. -/
def sumOfSizes (rows : List (List Text)) : ℤ :=
  (rows.map fun row => (row[2]?.bind readInt).getD 0).sum

/-- Both tables are written, and the size of a package is the sum of the sizes in its rows. -/
def Consistent (percent : ℕ → ℕ → Text) (build : Build) : Prop :=
  ∃ files packages, fileSizeCsv percent build = some files ∧
    packageSizeCsv percent build = some packages ∧
    ∀ row ∈ files.tail, row[3]?.bind readInt = some (sumOfSizes (rowsOf files row[1]?))

/-- The table of the files has a row for each listed path that exists. -/
theorem fileSizeCsv_eq {percent : ℕ → ℕ → Text} {build : Build} {csv : List (List Text)}
    (generated : fileSizeCsv percent build = some csv) :
    ∃ paths : List Text, paths.Nodup ∧ paths.toFinset = build.listed ∧
      csv.tail = paths.map (build.row percent) := by
  obtain ⟨filesdict, isDict, generated⟩ := Option.bind_eq_some_iff.mp generated
  obtain ⟨rows, areRows, rfl⟩ := Option.map_eq_some_iff.mp generated
  refine ⟨filesdict.keys, filesdict.keys_nodup, keys_buildPackageDict isDict, ?_⟩
  have entries := (forall_entries isDict fun path pkg size =>
    pkg = build.packageOf path ∧ size = build.target.size path).mpr fun _ _ => ⟨rfl, rfl⟩
  have same := Fold.mapM_of_mapM areRows (g := some) (h := fun entry => build.row percent entry.1)
    fun entry inside row isRow => by
      rw [fileRow] at isRow
      split at isRow
      · cases isRow
      · obtain ⟨pkg, size⟩ := entries entry inside
        rw [← isRow, value_buildPackageSize isDict, total_buildPackageSize isDict, pkg, size]
        rfl
  have all : rows.mapM some = some (rows.map id) := List.mapM_pure
  rw [all, Option.some.injEq, List.map_id] at same
  rw [List.tail_cons, same, AList.keys, List.keys, List.map_map]
  rfl

theorem sumOfSizes_rowsOf {percent : ℕ → ℕ → Text} {build : Build} {csv : List (List Text)}
    {paths : List Text} (nodup : paths.Nodup) (areListed : paths.toFinset = build.listed)
    (rows : csv.tail = paths.map (build.row percent)) (pkg : Text) :
    sumOfSizes (rowsOf csv (some pkg)) =
      (∑ path ∈ build.listed with build.packageOf path = pkg, build.target.size path : ℕ) := by
  have ofPkg : (paths.map (build.row percent)).filter (fun row => decide (row[1]? = some pkg)) =
      (paths.filter fun path => build.packageOf path = pkg).map (build.row percent) := by
    rw [List.filter_map]
    refine congrArg (List.map _) (List.filter_congr fun path _ => ?_)
    rw [Function.comp_apply, decide_eq_decide]
    exact Option.some_inj
  have listed : (build.listed.filter fun path => build.packageOf path = pkg) =
      (paths.filter fun path => build.packageOf path = pkg).toFinset := by
    rw [← areListed]
    refine Finset.ext fun path => ?_
    simp only [List.mem_toFinset, List.mem_filter, Finset.mem_filter, decide_eq_true_eq]
  rw [sumOfSizes, rowsOf, rows, ofPkg, List.map_map, listed,
    List.sum_toFinset _ (nodup.filter _), Nat.cast_list_sum, List.map_map]
  refine congrArg List.sum (List.map_congr_left fun path _ => ?_)
  show (readInt (decimal (build.target.size path))).getD 0 = _
  rw [readInt_decimal]
  rfl

/-! ### The table of the packages -/

theorem buildPackageSize_entries_eq_nil {filesdict : Dict Text FileInfo} {tree : Tree} :
    (buildPackageSize filesdict tree).entries = [] ↔ tree.files.entries = [] := by
  rw [buildPackageSize]
  rcases List.eq_nil_or_concat tree.files.entries with empty | ⟨front, last, whole⟩
  · rw [empty]
    exact iff_of_true rfl rfl
  · rw [whole, List.concat_eq_append, List.foldl_append, List.foldl_cons, List.foldl_nil]
    refine iff_of_false ?_ (List.append_ne_nil_of_right_ne_nil _ (List.cons_ne_nil _ _))
    exact Dict.entries_set_ne_nil _ _ _

/-- A tree without files has an empty table; else the files have to have a size. -/
theorem packageSizeCsv_isSome_iff {percent : ℕ → ℕ → Text} {build : Build} :
    (packageSizeCsv percent build).isSome ↔
      (∀ line ∈ fileLines build.packagesFileList, line.count ',' = 1) ∧
        (build.target.paths.Nonempty → build.target.regularSize ≠ 0) := by
  rw [← buildPackageDict_isSome_iff, packageSizeCsv]
  cases isDict : buildPackageDict python2 build with
  | none => exact iff_of_false Bool.false_ne_true fun both => absurd both.1 Bool.false_ne_true
  | some filesdict =>
    have rows : ∀ entry ∈ (buildPackageSize filesdict build.target).entries,
        (packageRow percent (buildPackageSize filesdict build.target) entry.1 entry.2).isSome ↔
          build.target.regularSize ≠ 0 := by
      intro entry _
      rw [packageRow, total_buildPackageSize isDict]
      split
      · rename_i zero
        exact iff_of_false Bool.false_ne_true fun nonzero => nonzero zero
      · rename_i nonzero
        exact iff_of_true rfl nonzero
    have nonempty : build.target.paths.Nonempty ↔
        (buildPackageSize filesdict build.target).entries ≠ [] := by
      rw [ne_eq, buildPackageSize_entries_eq_nil, Tree.paths, List.toFinset_nonempty_iff,
        AList.keys, List.keys, ne_eq, List.map_eq_nil_iff]
    rw [Option.bind_some, genPackagesCsv, Option.isSome_map, Fold.mapM_isSome_iff, nonempty]
    constructor
    · intro all
      refine ⟨rfl, fun some' => ?_⟩
      obtain ⟨entry, inside⟩ := List.exists_mem_of_ne_nil _ some'
      exact (rows entry inside).mp (all entry inside)
    · rintro ⟨-, nonzero⟩ entry inside
      exact (rows entry inside).mpr (nonzero (List.ne_nil_of_mem inside))

/-! ### Both sides -/

/-- The two sides count the same for a package where what is walked and not listed has the size of
what is listed and not walked. -/
theorem packageSize_eq_iff (build : Build) (pkg : Text) :
    build.packageSize pkg =
        ∑ path ∈ build.listed with build.packageOf path = pkg, build.target.size path ↔
      ∑ path ∈ build.target.paths \ build.listed with build.packageOf path = pkg,
          build.target.size path =
        ∑ path ∈ build.listed \ build.target.paths with build.packageOf path = pkg,
          build.target.size path := by
  have walked := Finset.sum_inter_add_sum_sdiff
    (build.target.paths.filter fun path => build.packageOf path = pkg)
    (build.listed.filter fun path => build.packageOf path = pkg) build.target.size
  have listed := Finset.sum_inter_add_sum_sdiff
    (build.listed.filter fun path => build.packageOf path = pkg)
    (build.target.paths.filter fun path => build.packageOf path = pkg) build.target.size
  have outside : ∀ first second : Finset Text,
      (first.filter fun path => build.packageOf path = pkg) \
          second.filter (fun path => build.packageOf path = pkg) =
        (first \ second).filter fun path => build.packageOf path = pkg := by
    intro first second
    refine Finset.ext fun path => ?_
    simp only [Finset.mem_sdiff, Finset.mem_filter]
    tauto
  rw [outside] at walked listed
  rw [Finset.inter_comm] at listed
  rw [Build.packageSize, ← walked, ← listed]
  omega

/-- A file of the walk that is not listed is of no package. -/
theorem packageOf_of_not_listed {build : Build} {path : Text}
    (unlisted : path ∈ build.target.paths \ build.listed) : build.packageOf path = unknown := by
  obtain ⟨inside, notListed⟩ := Finset.mem_sdiff.mp unlisted
  have stat : (build.target.stat path).isSome := by
    rw [(size_of_mem_paths inside).1, AList.lookup_isSome]
    exact AList.mem_keys.mpr (List.mem_toFinset.mp inside)
  have noOwner : build.owner path = none := by
    by_contra owned
    exact notListed (mem_listed.mpr ⟨stat, owned⟩)
  rw [Build.packageOf, noOwner]
  rfl

/-- The packages with a row are counted right when nothing is listed outside the walk, a package
that is called `unknown` apart. -/
theorem forall_packages_iff (build : Build) :
    (∀ pkg ∈ build.packages,
      ∑ path ∈ build.target.paths \ build.listed with build.packageOf path = pkg,
          build.target.size path =
        ∑ path ∈ build.listed \ build.target.paths with build.packageOf path = pkg,
          build.target.size path) ↔
      (∀ path ∈ build.listed \ build.target.paths, build.packageOf path ≠ unknown →
        build.target.size path = 0) ∧
      (unknown ∈ build.packages → build.unlistedSize =
        ∑ path ∈ build.listed \ build.target.paths with build.packageOf path = unknown,
          build.target.size path) := by
  have noPackage : ∀ pkg, pkg ≠ unknown →
      (build.target.paths \ build.listed).filter (fun path => build.packageOf path = pkg) = ∅ :=
    fun pkg known => Finset.filter_eq_empty_iff.mpr fun path unlisted isPkg =>
      known (isPkg.symm.trans (packageOf_of_not_listed unlisted))
  have allUnknown : (build.target.paths \ build.listed).filter
      (fun path => build.packageOf path = unknown) = build.target.paths \ build.listed :=
    Finset.filter_true_of_mem fun path unlisted => packageOf_of_not_listed unlisted
  constructor
  · intro all
    refine ⟨fun path outside known => ?_, fun isPackage => ?_⟩
    · have isPackage : build.packageOf path ∈ build.packages :=
        Finset.mem_image_of_mem _ (Finset.mem_sdiff.mp outside).1
      have zero := all _ isPackage
      rw [noPackage _ known, Finset.sum_empty, eq_comm, Finset.sum_eq_zero_iff] at zero
      exact zero path (Finset.mem_filter.mpr ⟨outside, rfl⟩)
    · have same := all unknown isPackage
      rwa [allUnknown, ← Build.unlistedSize] at same
  · rintro ⟨zero, same⟩ pkg isPackage
    by_cases known : pkg = unknown
    · subst known
      rw [allUnknown, ← Build.unlistedSize, same isPackage]
    · rw [noPackage pkg known, Finset.sum_empty, eq_comm, Finset.sum_eq_zero_iff]
      intro path inside
      obtain ⟨outside, isPkg⟩ := Finset.mem_filter.mp inside
      exact zero path outside (isPkg.symm ▸ known)

/-- **Both tables are written and agree exactly when every package with a row has a file that is not
empty, there are no files or one that is not empty, and what is listed outside the walk is
empty.** -/
theorem consistent_iff (percent : ℕ → ℕ → Text) (build : Build) :
    Consistent percent build ↔
      build.Complete ∧ (build.target.paths.Nonempty → build.target.regularSize ≠ 0) ∧
        (∀ path ∈ build.listed \ build.target.paths, build.packageOf path ≠ unknown →
          build.target.size path = 0) ∧
        (unknown ∈ build.packages → build.unlistedSize =
          ∑ path ∈ build.listed \ build.target.paths with build.packageOf path = unknown,
            build.target.size path) := by
  have sums : ∀ files, fileSizeCsv percent build = some files →
      ((∀ row ∈ files.tail, row[3]?.bind readInt = some (sumOfSizes (rowsOf files row[1]?))) ↔
        ∀ pkg ∈ build.packages, build.packageSize pkg =
          ∑ path ∈ build.listed with build.packageOf path = pkg, build.target.size path) := by
    intro files generated
    obtain ⟨paths, nodup, areListed, rows⟩ := fileSizeCsv_eq generated
    rw [rows, List.forall_mem_map, Build.packages, Finset.forall_mem_image, ← areListed]
    simp only [List.mem_toFinset]
    refine forall₂_congr fun path _ => ?_
    have size : (build.row percent path)[3]?.bind readInt =
        some (build.packageSize (build.packageOf path) : ℤ) := readInt_decimal _
    have pkg : (build.row percent path)[1]? = some (build.packageOf path) := rfl
    rw [size, pkg, sumOfSizes_rowsOf nodup areListed rows, Option.some_inj, Nat.cast_inj, areListed]
  simp only [packageSize_eq_iff] at sums
  rw [← forall_packages_iff]
  constructor
  · rintro ⟨files, packages, isFiles, isPackages, agree⟩
    exact ⟨fileSizeCsv_isSome_iff.mp (Option.isSome_of_mem isFiles),
      (packageSizeCsv_isSome_iff.mp (Option.isSome_of_mem isPackages)).2,
      (sums files isFiles).mp agree⟩
  · rintro ⟨complete, nonzero, agree⟩
    have filesWritten : (fileSizeCsv percent build).isSome := fileSizeCsv_isSome_iff.mpr complete
    have packagesWritten : (packageSizeCsv percent build).isSome :=
      packageSizeCsv_isSome_iff.mpr ⟨complete.oneComma, nonzero⟩
    obtain ⟨files, isFiles⟩ := Option.isSome_iff_exists.mp filesWritten
    obtain ⟨packages, isPackages⟩ := Option.isSome_iff_exists.mp packagesWritten
    exact ⟨files, packages, isFiles, isPackages, (sums files isFiles).mpr agree⟩

/-- A build with a package whose only file is empty. -/
def emptyFileBuild : Build where
  target := ⟨Dict.ofList [("bin/busybox".toList, 1000), ("etc/empty".toList, 0)], fun _ => none⟩
  packagesFileList := "busybox,./bin/busybox\nempty,./etc/empty\n".toList

/-- The size of the empty file is divided by that of its package. -/
theorem divides_by_zero : ¬Consistent (fun _ _ => "100.0".toList) emptyFileBuild := by
  rintro ⟨files, packages, isFiles, -, -⟩
  have noFiles : fileSizeCsv (fun _ _ => "100.0".toList) emptyFileBuild = none := by decide +kernel
  rw [noFiles] at isFiles
  cases isFiles

end Buildroot4G.Stats
