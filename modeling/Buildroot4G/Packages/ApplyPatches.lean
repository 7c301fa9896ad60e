/-
This file models `support/scripts/apply-patches.sh`: the scan of a directory of patches, with its
series files, the archives that it unpacks on the way and the pipelines that apply the patches. A
pipeline has the status of `patch`, and the status of `tar` is not looked at. The file also says
what is selected, in which order, and that `ls` lists the names that are selected where these are
plain.

The commands that are called are parameters, also where a path that is not quoted is more than one
word. A file need not be readable, nor a directory open to the scan. A patch changes the sources and
not the patches; in a series file `..` is not followed.
-/

import Buildroot4G.Depends.Depth
import Buildroot4G.Fold
import Buildroot4G.Shell.Awk
import Buildroot4G.Shell.Path
import Mathlib.Data.Char
import Mathlib.Data.List.Lex
import Mathlib.Data.List.Sort

namespace Buildroot4G.ApplyPatches

open Shell

/-! ### The script -/

/-- A file, or a directory with its names, and what the script may do with it. -/
inductive Item where
  | file (readable : Bool) (content : Text)
  | dir (readable searchable : Bool) (items : List (Text × Item))

abbrev Items := List (Text × Item)

/-- The commands before the pipe, without their options. -/
inductive Uncomp where
  | cat
  | gunzip
  | bunzip
  | bunzip2
  | unxz
  | unzip
  | uncompress
  deriving DecidableEq

/-- The programs that are called, over the sources in the build directory. -/
structure Tools (σ : Type) where
  /-- What a command writes for a file that it can open, and whether that is the whole text. -/
  run : Uncomp → Text → Text × Bool
  /-- What `tar` unpacks from a file that it can open, and whether that is the whole archive. -/
  tar : Text → Items × Bool
  /-- What `ls` lists for a path that is more than one word or cannot be entered and read. -/
  elsewhere : Text → List Text → List Text
  /-- The words of `series_patches` for a path that is more than one word. -/
  otherSeries : Text → List Text
  /-- Whether `patch` succeeds, and the sources it leaves. -/
  patch : Text → σ → Bool × σ
  /-- Whether `find` has a reject in the sources or the unpacked archives. -/
  rejects : σ → List (Text × Items) → Bool

/-- A directory of patches: below the one that is given, or below that of an unpacked archive. -/
structure Place where
  archive : Option Text
  dirs : List Text

/-- What is done for an archive or a patch. -/
inductive Event where
  | unpacks (place : Place) (archive : Text) (whole : Bool)
  | applies (place : Place) (patch stream : Text) (whole : Bool)

structure State (σ : Type) where
  source : σ
  /-- The directories of the unpacked archives, the last one first. -/
  unpacked : List (Text × Items)
  appliedPatchesList : List Text
  stdout : List Text
  events : List Event

/-- How a scan ends early. -/
inductive Stop (σ : Type) where
  | exits (status : ℕ) (state : State σ)
  | unfinished

/-- The components of a path. -/
def components (path : Text) : List Text :=
  (path.splitOn '/').filter fun name => name ≠ [] ∧ name ≠ ['.']

/-- What is at the end of a path, through directories that can be searched. -/
def Item.descend : Item → List Text → Option Item
  | item, [] => some item
  | .file _ _, _ :: _ => none
  | .dir _ searchable items, name :: names =>
    if searchable then
      match items.lookup name with
      | none => none
      | some item => item.descend names
    else none

def Item.find (item : Item) (path : Text) : Option Item := item.descend (components path)

def Item.names : Item → List Text
  | .file _ _ => []
  | .dir _ _ items => items.map Prod.fst

/-- Whether a file can be read, or a directory entered and read. -/
def Item.isOpen : Item → Bool
  | .file readable _ => readable
  | .dir readable searchable _ => readable && searchable

/-- Whether the `grep` takes a name for that of an archive. -/
def isArchive (name : Text) : Bool :=
  ".tar".toList.isSuffixOf name || grep ".tar.".toList name || ".tbz".toList.isSuffixOf name ||
    ".tbz2".toList.isSuffixOf name || ".tgz".toList.isSuffixOf name

/-- The type of a patch and the command for it, by the name. -/
def patchType (patch : Text) : Option (Text × Uncomp) :=
  if ".gz".toList.isSuffixOf patch then some ("gzip".toList, .gunzip)
  else if ".bz".toList.isSuffixOf patch then some ("bzip".toList, .bunzip)
  else if ".bz2".toList.isSuffixOf patch then some ("bzip2".toList, .bunzip2)
  else if ".xz".toList.isSuffixOf patch then some ("xz".toList, .unxz)
  else if ".zip".toList.isSuffixOf patch then some ("zip".toList, .unzip)
  else if ".Z".toList.isSuffixOf patch then some ("compress".toList, .uncompress)
  else if grep ".diff".toList patch then some ("diff".toList, .cat)
  else if grep ".patch".toList patch then some ("patch".toList, .cat)
  else none

/-- The names that a pattern matches; a dot at their beginning is matched only by a dot. -/
def globMatches (pattern name : Text) : Bool :=
  (name.head? ≠ some '.' || pattern.head? = some '.') && Depends.fnmatch name pattern

/-- A pattern that matches no name stays. -/
def expand (names : List Text) (pattern : Text) : List Text :=
  let matched := names.filter (globMatches pattern)
  if matched = [] then [pattern] else matched

/-- `ls -d`, in a directory: the operands that exist, in the order of the C locale. -/
def listing (dir : Item) (patches : List Text) : List Text :=
  let operands := patches.flatMap (expand dir.names)
  let operands := if operands = [] then [['.']] else operands
  (operands.filter fun path => (dir.find path).isSome).insertionSort (· ≤ ·)

/-- The first fields of the lines of a series file that are no comments. -/
def seriesPatches : Item → List Text
  | .dir _ _ _ => []
  | .file _ content =>
    words (['\n'].intercalate (((content.splitOn '\n').filter fun line => line.head? ≠ some '#').map
      fun line => line.takeWhile fun c => c ≠ ' '))

/-- A path that is one word where it is not quoted, and no option. -/
def IsPlainPath (path : Text) : Prop :=
  IsWord path ∧ (∀ c ∈ path, c ∉ "*?[\\".toList) ∧ path.head? ≠ some '-'

instance (path : Text) : Decidable (IsPlainPath path) := inferInstanceAs (Decidable (_ ∧ _))

section Script

variable {σ : Type} (tools : Tools σ) (silent : Bool) (builddir patchdir : Text) (patches : Item)

/-- The path of a place. -/
def Place.path (place : Place) : Text :=
  place.dirs.foldl (fun path name => path ++ '/' :: name)
    (match place.archive with
    | none => patchdir
    | some archive => builddir ++ "/.patches-".toList ++ archive ++ "-unpacked".toList)

def State.echo (state : State σ) (line : Text) : State σ :=
  { state with stdout := state.stdout ++ [line] }

/-- The directory or the file at a place. -/
def State.item (state : State σ) (place : Place) : Option Item :=
  match place.archive with
  | none => patches.descend place.dirs
  | some archive =>
    (state.unpacked.lookup archive).bind fun items =>
      (Item.dir true true items).descend place.dirs

/-- What is at the end of a path from a place. -/
def State.find (state : State σ) (place : Place) (path : Text) : Option Item :=
  (state.item patches place).bind fun item => item.find path

/-- What is written to the pipe, and whether that is the whole patch: there is nothing for a
directory or a file that cannot be read, and `unzip -d` takes the name for that of a directory to
write to. -/
def Tools.stream (uncomp : Uncomp) : Item → Text × Bool
  | .dir _ _ _ => ([], false)
  | .file readable content =>
    if uncomp = .unzip then ((tools.run .unzip content).1, false)
    else if readable then tools.run uncomp content
    else ([], false)

/-- What is unpacked, and whether that is the whole archive. -/
def Tools.untar (readable : Bool) (content : Text) : Items × Bool :=
  if readable then tools.tar content else ([], false)

/-- The words of `series_patches`; nothing is read of a file that `grep` cannot open. -/
def Tools.seriesWords (path : Text) (series : Item) : List Text :=
  if IsPlainPath path then
    if series.isOpen then seriesPatches series else []
  else tools.otherSeries path

/-- The words of the listing of a directory. -/
def Tools.listed (path : Text) (dir : Item) (patches : List Text) : List Text :=
  words (['\n'].intercalate
    (if IsPlainPath path ∧ dir.isOpen = true then listing dir patches
    else tools.elsewhere path patches))

def applyPatch (place : Place) (patch : Text) (series : Bool) (state : State σ) :
    Except (Stop σ) (State σ) :=
  let path := place.path builddir patchdir ++ '/' :: patch
  match if series then some ("series".toList, .cat) else patchType patch with
  | none => .ok (state.echo ("Unsupported file type for ".toList ++ path ++ ", skipping".toList))
  | some (type, uncomp) =>
    let state :=
      if silent then state
      else (state.echo []).echo
        ("Applying ".toList ++ patch ++ " using ".toList ++ type ++ ": ".toList)
    match state.find patches place patch with
    | none => .error (.exits 1 (state.echo ("Error: missing patch file ".toList ++ path)))
    | some item =>
      let stream := tools.stream uncomp item
      let patched := tools.patch stream.1 state.source
      let state := { state with
        appliedPatchesList :=
          if IsPlainPath builddir then state.appliedPatchesList ++ [patch]
          else state.appliedPatchesList
        events := state.events ++ [.applies place patch stream.1 stream.2]
        source := patched.2 }
      if patched.1 then .ok state
      else .error (.exits 1
        (state.echo ("Patch failed!  Please fix ".toList ++ patch ++ "!".toList)))

/-- What is done for a name of the listing, where directories are scanned by `scan`. -/
def scanName (scan : Place → List Text → State σ → Except (Stop σ) (State σ)) (place : Place)
    (state : State σ) (i : Text) : Except (Stop σ) (State σ) :=
  match state.find patches place i with
  | some (.dir _ _ _) => scan { place with dirs := place.dirs ++ components i } [['*']] state
  | item =>
    if isArchive i then
      let unpacked := match item with
        | some (.file readable content) => tools.untar readable content
        | _ => ([], false)
      scan ⟨some (basename i), []⟩ [['*']] { state with
        unpacked := (basename i, unpacked.1) :: state.unpacked
        events := state.events ++ [.unpacks place i unpacked.2] }
    else applyPatch tools silent builddir patchdir patches place i false state

/-- `scan_patchdir`, as deep as a number says. -/
def scanPatchdir : ℕ → Place → List Text → State σ → Except (Stop σ) (State σ)
  | 0, _, _, _ => .error .unfinished
  | depth + 1, path, patterns, state =>
    match state.find patches path "series".toList with
    | some series =>
      (tools.seriesWords (path.path builddir patchdir) series).foldlM
        (fun state i => applyPatch tools silent builddir patchdir patches path i true state) state
    | none =>
      (((state.item patches path).map
        fun dir => tools.listed (path.path builddir patchdir) dir patterns).getD []).foldlM
          (scanName tools silent builddir patchdir patches (scanPatchdir depth) path) state

/-- The script, with the patterns as words, on sources without rejects. -/
def applyPatches (depth : ℕ) (patterns : List Text) (source : σ) :
    Except (Stop σ) (State σ) :=
  let state : State σ := ⟨source, [], [], [], []⟩
  match patches with
  | .file _ _ => .error (.exits 1
      (state.echo ("Aborting.  '".toList ++ patchdir ++ "' is not a directory.".toList)))
  | .dir _ _ _ => do
    let state ← scanPatchdir tools silent builddir patchdir patches depth ⟨none, []⟩ patterns state
    if tools.rejects state.source state.unpacked then
      .error (.exits 1 (state.echo "Aborting.  Reject files found.".toList))
    else .ok state

end Script

/-! ### The selection -/

/-- A directory that is scanned, with the archives whose directories are around it. -/
structure Dir where
  place : Place
  patterns : List Text
  enclosing : List Text
  item : Item

/-- What a selected name is. -/
inductive Entry where
  | skipped
  | patch (stream : Text) (whole : Bool)
  | subdir (dir : Dir)
  | archive (dir : Dir) (whole : Bool)

/-- The names that a pattern selects, each of them once, in the order of the C locale. -/
def Dir.selected (dir : Dir) : List Text :=
  (dir.item.names.filter fun name => dir.patterns.any fun pattern =>
    globMatches pattern name).insertionSort (· ≤ ·)

/-- The series file. -/
def Dir.series (dir : Dir) : Option Item := dir.item.find "series".toList

/-- The events of a list, from those of its items. -/
def gather {α β : Type} (events : α → Option (List β)) : List α → Option (List β)
  | [] => some []
  | item :: rest => do
    let first ← events item
    let others ← gather events rest
    some (first ++ others)

/-- The event, where nothing is missing. -/
def Event.completed : Event → Event
  | .unpacks place archive _ => .unpacks place archive true
  | .applies place patch stream _ => .applies place patch stream true

def Event.whole : Event → Bool
  | .unpacks _ _ whole => whole
  | .applies _ _ _ whole => whole

/-- The directory that an entry is scanned as. -/
def Entry.dirs : Entry → List Dir
  | .subdir sub => [sub]
  | .archive sub _ => [sub]
  | _ => []

/-- Whether nothing of an archive or a patch is missing. -/
def Entry.whole : Entry → Bool
  | .patch _ whole => whole
  | .archive _ whole => whole
  | _ => true

/-- The events of an entry, from those of directories. -/
def Entry.events (traverse : Dir → Option (List Event)) (place : Place) (name : Text) :
    Entry → Option (List Event)
  | .skipped => some []
  | .patch stream whole => some [.applies place name stream whole]
  | .subdir sub => traverse sub
  | .archive sub whole => (traverse sub).map fun events => .unpacks place name whole :: events

section Selection

variable {σ : Type} (tools : Tools σ)

def Dir.entry (dir : Dir) (name : Text) : Entry :=
  match dir.item.find name with
  | none => .skipped
  | some (.dir readable searchable items) =>
    .subdir ⟨{ dir.place with dirs := dir.place.dirs ++ components name }, [['*']], dir.enclosing,
      .dir readable searchable items⟩
  | some (.file readable content) =>
    if isArchive name then
      .archive ⟨⟨some (basename name), []⟩, [['*']], basename name :: dir.enclosing,
        .dir true true (tools.untar readable content).1⟩ (tools.untar readable content).2
    else match patchType name with
      | none => .skipped
      | some (_, uncomp) =>
        .patch (tools.stream uncomp (.file readable content)).1
          (tools.stream uncomp (.file readable content)).2

/-- What is piped for a patch of a series file. -/
def Dir.seriesStream (dir : Dir) (patch : Text) : Text × Bool :=
  match dir.item.find patch with
  | none => ([], false)
  | some item => tools.stream .cat item

/-- The archives and the patches below a directory, as deep as a number says: those of the series
file, or else those of the selected names. -/
def traverse : ℕ → Dir → Option (List Event)
  | 0, _ => none
  | depth + 1, dir =>
    match dir.series with
    | some series => some ((seriesPatches series).dedup.map fun patch =>
        .applies dir.place patch (dir.seriesStream tools patch).1 (dir.seriesStream tools patch).2)
    | none => gather (fun name => (dir.entry tools name).events (traverse depth) dir.place name)
        dir.selected

/-- Every selected patch is completely decompressed and applied once, in the order of the series
file or of the names. -/
def Complete (dir : Dir) (events : List Event) : Prop :=
  ∃ depth selected, traverse tools depth dir = some selected ∧
    events = selected.map Event.completed

/-- The directories that are scanned from a directory. -/
def Dir.subdirs (dir : Dir) : List Dir :=
  match dir.series with
  | some _ => []
  | none => dir.selected.flatMap fun name => (dir.entry tools name).dirs

/-- One directory is scanned from another, perhaps through others. -/
def Reaches : Dir → Dir → Prop :=
  Relation.ReflTransGen fun dir sub => sub ∈ dir.subdirs tools

/-- Every archive of the directory is unpacked completely, and every patch of it gives its text. -/
def WholeDir (dir : Dir) : Prop :=
  match dir.series with
  | some series => ∀ patch ∈ seriesPatches series, (dir.seriesStream tools patch).2 = true
  | none => ∀ name ∈ dir.selected, (dir.entry tools name).whole = true

end Selection

/-- A name that the shell and `ls` take as it is. -/
def PlainName (name : Text) : Prop :=
  IsWord name ∧ (∀ c ∈ name, c ∉ "*?[\\/".toList) ∧ name ≠ ".".toList ∧ name ≠ "..".toList

instance (name : Text) : Decidable (PlainName name) := inferInstanceAs (Decidable (_ ∧ _))

/-- A series file can be read, and its patches are different and below its directory. Without a
series file the directory is open, the names are plain, no two patterns select one name, and no
archive has the name of one around it. -/
def PlainDir (dir : Dir) : Prop :=
  match dir.series with
  | some (.dir _ _ _) => False
  | some (.file readable content) =>
    readable = true ∧
    (seriesPatches (.file readable content)).Nodup ∧
    ∀ patch ∈ seriesPatches (.file readable content),
      (∀ c ∈ patch, c ∉ "*?[\\".toList) ∧ "..".toList ∉ components patch
  | none =>
    dir.item.isOpen = true ∧ dir.item.names.Nodup ∧ (∀ name ∈ dir.item.names, PlainName name) ∧
    dir.patterns ≠ [] ∧
    (∀ pattern ∈ dir.patterns,
      IsWord pattern ∧ '/' ∉ pattern ∧ pattern ≠ ".".toList ∧ pattern ≠ "..".toList) ∧
    dir.patterns.Pairwise (fun pattern other => ∀ name ∈ dir.item.names,
      ¬(globMatches pattern name = true ∧ globMatches other name = true)) ∧
    ∀ name ∈ dir.selected,
      match dir.item.find name with
      | some (.file _ _) => isArchive name = true → basename name ∉ dir.enclosing
      | _ => True

/-! ### The paths -/

/-- A path stays one word behind which plain names come. -/
theorem IsPlainPath.append {path more : Text} (plain : IsPlainPath path)
    (noBlank : ∀ c ∈ more, isBlank c = false) (noGlob : ∀ c ∈ more, c ∉ "*?[\\".toList) :
    IsPlainPath (path ++ more) := by
  obtain ⟨⟨nonempty, free⟩, noPattern, noOption⟩ := plain
  refine ⟨⟨List.append_ne_nil_of_left_ne_nil nonempty _, ?_⟩, ?_, ?_⟩
  · exact List.forall_mem_append.mpr ⟨free, noBlank⟩
  · exact List.forall_mem_append.mpr ⟨noPattern, noGlob⟩
  · rwa [List.head?_append_of_ne_nil _ nonempty]

/-! ### The listing -/

theorem components_of_not_mem {name : Text} (noSlash : '/' ∉ name) (nonempty : name ≠ [])
    (noDot : name ≠ ".".toList) : components name = [name] := by
  have whole : name.splitOn '/' = [name] := by
    rw [List.splitOn_eq_splitOnP]
    exact List.splitOnP_eq_singleton fun c member =>
      beq_eq_false_iff_ne.mpr fun isSlash => noSlash (isSlash ▸ member)
  rw [components, whole, List.filter_cons_of_pos]
  · rfl
  · exact decide_eq_true ⟨nonempty, noDot⟩

theorem PlainName.components {name : Text} (plain : PlainName name) :
    ApplyPatches.components name = [name] :=
  components_of_not_mem (fun member => plain.2.1 '/' member (by decide)) plain.1.1 plain.2.2.1

/-- A name of a directory that is open is found. -/
theorem isSome_find_iff {item : Item} (isOpen : item.isOpen = true) {name : Text}
    (single : components name = [name]) : (item.find name).isSome ↔ name ∈ item.names := by
  rw [Item.find, single]
  cases item with
  | file readable content => simp [Item.descend, Item.names]
  | dir readable searchable items =>
    rw [Item.isOpen, Bool.and_eq_true] at isOpen
    rw [Item.names, Item.descend, if_pos isOpen.2]
    induction items with
    | nil => simp
    | cons head rest inductionHypothesis =>
      obtain ⟨other, item⟩ := head
      rw [List.lookup_cons, List.map_cons, List.mem_cons]
      by_cases same : name = other
      · simp [same, Item.descend]
      · have differs : (name == other) = false := beq_eq_false_iff_ne.mpr same
        rw [differs]
        simpa [same] using inductionHypothesis

theorem fnmatchFrom_self {name : Text} (plain : ∀ c ∈ name, c ∉ "*?[\\/".toList) :
    Depends.fnmatchFrom name.length name name = true := by
  induction name with
  | nil => rfl
  | cons c rest inductionHypothesis =>
    have here := plain c List.mem_cons_self
    have star : c ≠ '*' := fun same => here (same ▸ by decide)
    have mark : c ≠ '?' := fun same => here (same ▸ by decide)
    have bracket : c ≠ '[' := fun same => here (same ▸ by decide)
    have later := inductionHypothesis fun d member => plain d (List.mem_cons_of_mem c member)
    rw [List.length_cons, Depends.fnmatchFrom]
    · simpa using later
    · exact star
    · exact mark
    · exact bracket

theorem PlainName.globMatches {name : Text} (plain : PlainName name) :
    ApplyPatches.globMatches name name = true := by
  rw [ApplyPatches.globMatches, Depends.fnmatch, fnmatchFrom_self plain.2.1]
  by_cases dot : name.head? = some '.' <;> simp [dot]

theorem words_intercalate_newline {names : List Text} (areWords : ∀ name ∈ names, IsWord name) :
    words (['\n'].intercalate names) = names := by
  induction names with
  | nil => rfl
  | cons name rest inductionHypothesis =>
    have here := (areWords name List.mem_cons_self).words
    have later := inductionHypothesis fun other member =>
      areWords other (List.mem_cons_of_mem name member)
    cases rest with
    | nil => rwa [List.intercalate_singleton]
    | cons next tail =>
      rw [List.intercalate_cons_cons, List.append_assoc, List.singleton_append,
        words_append_cons name _ rfl, here, later]
      rfl

/-- What is listed for a pattern are the names that it matches. -/
theorem filter_expand {item : Item} (isOpen : item.isOpen = true)
    (plain : ∀ name ∈ item.names, PlainName name) {pattern : Text}
    (single : ApplyPatches.components pattern = [pattern]) :
    (expand item.names pattern).filter (fun path => (item.find path).isSome) =
      item.names.filter (globMatches pattern) := by
  rw [expand]
  split_ifs with none'
  · rw [none', List.filter_eq_nil_iff]
    intro name member found
    rw [List.mem_singleton.mp member, isSome_find_iff isOpen single] at found
    have matched : pattern ∈ item.names.filter (globMatches pattern) :=
      List.mem_filter.mpr ⟨found, (plain pattern found).globMatches⟩
    rw [none'] at matched
    cases matched
  · rw [List.filter_eq_self]
    intro name member
    have inside := List.mem_of_mem_filter member
    exact (isSome_find_iff isOpen (plain name inside).components).mpr inside

/-- `ls` lists the names that are selected, where no two patterns select one name. -/
theorem listing_eq {dir : Dir} (isOpen : dir.item.isOpen = true) (nodup : dir.item.names.Nodup)
    (plain : ∀ name ∈ dir.item.names, PlainName name) (nonempty : dir.patterns ≠ [])
    (single : ∀ pattern ∈ dir.patterns, components pattern = [pattern])
    (once : dir.patterns.Pairwise fun pattern other => ∀ name ∈ dir.item.names,
      ¬(globMatches pattern name = true ∧ globMatches other name = true)) :
    listing dir.item dir.patterns = dir.selected := by
  have some' : dir.patterns.flatMap (expand dir.item.names) ≠ [] := by
    obtain ⟨pattern, others, patterns⟩ := List.exists_cons_of_ne_nil nonempty
    rw [patterns, List.flatMap_cons]
    refine List.append_ne_nil_of_left_ne_nil ?_ _
    rw [expand]
    split_ifs with none'
    · exact List.cons_ne_nil _ _
    · exact none'
  have listed : (dir.patterns.flatMap (expand dir.item.names)).filter
        (fun path => (dir.item.find path).isSome) =
      dir.patterns.flatMap fun pattern => dir.item.names.filter (globMatches pattern) := by
    rw [List.filter_flatMap]
    exact List.flatMap_congr fun pattern member => filter_expand isOpen plain
      (single pattern member)
  have perm : (dir.patterns.flatMap fun pattern => dir.item.names.filter (globMatches pattern)).Perm
      (dir.item.names.filter fun name => dir.patterns.any fun pattern =>
        globMatches pattern name) := by
    refine (List.perm_ext_iff_of_nodup ?_ (nodup.filter _)).mpr fun name => ?_
    · refine List.nodup_flatMap.mpr ⟨fun pattern _ => nodup.filter _, once.imp ?_⟩
      intro pattern other disjoint name left right
      exact disjoint name (List.mem_of_mem_filter left)
        ⟨(List.mem_filter.mp left).2, (List.mem_filter.mp right).2⟩
    · simp only [List.mem_flatMap, List.mem_filter, List.any_eq_true]
      constructor
      · rintro ⟨pattern, member, inside, matched⟩
        exact ⟨inside, pattern, member, matched⟩
      · rintro ⟨inside, pattern, member, matched⟩
        exact ⟨pattern, member, inside, matched⟩
  rw [listing, Dir.selected]
  rw [if_neg some', listed]
  refine List.Perm.eq_of_sortedLE List.sortedLE_insertionSort List.sortedLE_insertionSort ?_
  exact (List.perm_insertionSort _ _).trans (perm.trans (List.perm_insertionSort _ _).symm)

/-- The names of the loop are those that are selected. -/
theorem listed_eq {σ : Type} (tools : Tools σ) {path : Text} (plainPath : IsPlainPath path)
    {dir : Dir} (plain : PlainDir dir) (noSeries : dir.series = none) :
    tools.listed path dir.item dir.patterns = dir.selected := by
  rw [PlainDir, noSeries] at plain
  obtain ⟨isOpen, nodup, names, nonempty, patterns, once, -⟩ := plain
  rw [Tools.listed, if_pos ⟨plainPath, isOpen⟩,
    listing_eq isOpen nodup names nonempty (fun pattern member => ?_) once]
  · refine words_intercalate_newline fun name member => ?_
    rw [Dir.selected, List.mem_insertionSort] at member
    exact (names name (List.mem_of_mem_filter member)).1
  · obtain ⟨isWord, noSlash, noDot, -⟩ := patterns pattern member
    exact components_of_not_mem noSlash isWord.1 noDot

end Buildroot4G.ApplyPatches
