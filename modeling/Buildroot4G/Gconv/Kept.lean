/-
This file proves what of a `gconv-modules` file is left by `expunge-gconv-modules`: a reader
finds exactly the entries and aliases of the installed modules if and only if, among the
entries of the installed modules, each has the cost of the last entry with its source, and
no name has a colon.
-/

import Buildroot4G.Gconv.Expunge

namespace Buildroot4G.Gconv

open Shell

/-! ### Reading the output -/

/-- The cost that is printed for a charset. -/
def price (input charset : Text) : Text := showInt (awkInt ((collect input).mod2cost charset))

theorem isWord_showInt (number : Int) : IsWord (showInt number) := by
  refine ⟨?_, ?_⟩
  · cases number with
    | ofNat n => exact (isNumber_decimal n).1
    | negSucc n => exact List.cons_ne_nil _ _
  · intro c member
    by_contra blank
    rw [Bool.not_eq_false] at blank
    refine not_mem_showInt (not_isDigit_of_isBlank blank) ?_ number member
    rintro rfl
    cases blank

theorem colon_not_mem_price (input charset : Text) : ':' ∉ price input charset :=
  not_mem_showInt rfl (by decide) _

/-- Fields between tabs have no newline. -/
theorem newline_not_mem_intercalate {fields : List Text}
    (noBlank : ∀ field ∈ fields, NoBlank field) : '\n' ∉ ['\t'].intercalate fields := by
  induction fields with
  | nil => exact List.not_mem_nil
  | cons field rest inductionHypothesis =>
    have here : '\n' ∉ field := by
      intro member
      cases noBlank field List.mem_cons_self _ member
    have later := inductionHypothesis fun other member =>
      noBlank other (List.mem_cons_of_mem field member)
    cases rest with
    | nil => rwa [List.intercalate_singleton]
    | cons next tail =>
      rw [List.intercalate_cons_cons]
      simp [here, later]

section Lines

variable {fromset toset file cost name realname : Text}

theorem noBlank_moduleLine (source : NoBlank fromset) (target : NoBlank toset)
    (plain : NoBlank file) (cost : Text) :
    ∀ field ∈ ["module".toList, fromset, toset, file, showInt (awkInt cost)], NoBlank field := by
  have number := (isWord_showInt (awkInt cost)).2
  have directive : NoBlank "module".toList := by decide
  simp only [List.forall_mem_cons]
  exact ⟨directive, source, target, plain, number, nofun⟩

theorem noBlank_aliasLine (isName : NoBlank name) (isReal : NoBlank realname) :
    ∀ field ∈ ["alias".toList, name, realname], NoBlank field := by
  have directive : NoBlank "alias".toList := by decide
  simp only [List.forall_mem_cons]
  exact ⟨directive, isName, isReal, nofun⟩

theorem readAlias_moduleLine (source : NoBlank fromset) (target : NoBlank toset)
    (plain : NoBlank file) : readAlias (moduleLine fromset toset file cost) = none := by
  refine if_neg fun isAlias => ?_
  rw [field, moduleLine, words_intercalate (noBlank_moduleLine source target plain cost)] at isAlias
  cases isAlias.1

theorem readEntry_aliasLine (isName : NoBlank name) (isReal : NoBlank realname) :
    readEntry (aliasLine name realname) = none := by
  refine if_neg fun isModule => ?_
  rw [field, aliasLine, words_intercalate (noBlank_aliasLine isName isReal)] at isModule
  cases isModule.1

theorem readAlias_aliasLine (isName : IsWord name) (isReal : IsWord realname) :
    readAlias (aliasLine name realname) = some ⟨name, realname⟩ := by
  have fields : words (aliasLine name realname) = ["alias".toList, name, realname] := by
    rw [aliasLine, words_intercalate (noBlank_aliasLine isName.2 isReal.2)]
    simp [isName.1, isReal.1]
  simp only [readAlias, field, fields]
  exact if_pos ⟨rfl, isReal.1⟩

/-- A line whose charsets are not empty is read as it was printed. -/
theorem readEntry_moduleLine (source : IsWord fromset) (target : IsWord toset)
    (plain : IsWord file) :
    readEntry (moduleLine fromset toset file cost) =
      some ⟨fromset, toset, file, showInt (awkInt cost)⟩ := by
  have number := isWord_showInt (awkInt cost)
  have fields : words (moduleLine fromset toset file cost) =
      ["module".toList, fromset, toset, file, showInt (awkInt cost)] := by
    rw [moduleLine, words_intercalate (noBlank_moduleLine source.2 target.2 plain.2 cost)]
    simp [source.1, target.1, plain.1, number.1]
  simp only [readEntry, field, fields]
  exact if_pos ⟨rfl, plain.1⟩

/-- A line with an empty charset is read as one whose target is the file, if at all. -/
theorem readEntry_moduleLine_empty (source : NoBlank fromset) (target : NoBlank toset)
    (plain : IsWord file) (empty : fromset = [] ∨ toset = []) {entry : Entry}
    (reads : readEntry (moduleLine fromset toset file cost) = some entry) :
    (entry.fromset = fromset ∨ entry.fromset = toset) ∧ entry.toset = file ∧
      entry.file = showInt (awkInt cost) := by
  have number := isWord_showInt (awkInt cost)
  have fields : words (moduleLine fromset toset file cost) =
      ["module".toList, fromset, toset, file, showInt (awkInt cost)].filter
        fun field => !field.isEmpty :=
    words_intercalate (noBlank_moduleLine source target plain.2 cost)
  simp only [readEntry, field, fields] at reads
  rcases empty with rfl | rfl
  · by_cases none : toset = []
    · subst none
      simp [plain.1, number.1] at reads
    · simp [plain.1, number.1, none] at reads
      subst reads
      exact ⟨Or.inr rfl, rfl, rfl⟩
  · by_cases none : fromset = []
    · subst none
      simp [plain.1, number.1] at reads
    · simp [plain.1, number.1, none] at reads
      subst reads
      exact ⟨Or.inl rfl, rfl, rfl⟩

end Lines

/-- The parts of a pair have no colon and no blank. -/
theorem part_of_cset {cset : Text} (noBlank : NoBlank cset) (n : ℕ) :
    NoBlank ((cset.splitOn ':').getD n []) ∧ ':' ∉ (cset.splitOn ':').getD n [] := by
  rw [List.getD_eq_getElem?_getD]
  cases found : (cset.splitOn ':')[n]? with
  | none => exact ⟨nofun, List.not_mem_nil⟩
  | some part =>
    have member := List.mem_of_getElem? found
    refine ⟨fun c inside => noBlank c ?_, not_mem_of_mem_splitOn member⟩
    rw [List.splitOn_eq_splitOnP] at member
    exact (infix_of_mem_splitOnP _ cset part member).subset inside

/-- The parts of a pair without other colons. -/
theorem splitOn_pair {source target : Text} (noSource : ':' ∉ source) (noTarget : ':' ∉ target) :
    (source ++ ':' :: target).splitOn ':' = [source, target] := by
  rw [List.splitOn_append_cons_self_of_not_mem noSource, List.splitOn_eq_singleton noTarget]

/-! ### The output -/

section Output

variable {files input : Text}

theorem isWord_internal : IsWord internal := by decide

/-- The lines of the output that a reader takes for entries or aliases, and the others. -/
theorem mem_printed {line : Text} :
    line ∈ printed files input ↔ ∃ file ∈ words files,
      line = "# Modules and aliases for: ".toList ++ file ∨
      (∃ mod ∈ words ((collect input).file2internals file),
        line ∈ printMod (collect input) file mod) ∨
      (∃ cset ∈ words ((collect input).file2cset file),
        line = printCset (collect input) file cset) ∨
      (line = [] ∧ (words ((collect input).file2internals file) ≠ [] ∨
        words ((collect input).file2cset file) ≠ [])) := by
  rw [printed, List.mem_flatMap]
  refine exists_congr fun file => and_congr_right fun _ => ?_
  rw [printFile, List.mem_cons, List.mem_append, List.mem_append, List.mem_append,
    List.mem_flatMap, List.mem_map]
  simp only [ne_eq, List.length_eq_zero_iff, List.mem_ite_nil_right, List.mem_cons,
    List.not_mem_nil, or_false, or_self]
  grind

/-- What a line of the output is printed for. -/
inductive Printed (files input : Text) : Text → Prop
  | comment {file : Text} (isFile : file ∈ words files) :
    Printed files input ("# Modules and aliases for: ".toList ++ file)
  | aliasOf {file mod name : Text} (isFile : file ∈ words files)
    (isMod : mod ∈ words ((collect input).file2internals file))
    (isName : name ∈ words ((collect input).aliases mod)) :
    Printed files input (aliasLine name mod)
  | source {file mod : Text} (isFile : file ∈ words files)
    (isMod : mod ∈ words ((collect input).file2internals file)) :
    Printed files input (moduleLine mod internal file ((collect input).mod2cost mod))
  | target {file mod : Text} (isFile : file ∈ words files)
    (isMod : mod ∈ words ((collect input).file2internals file)) :
    Printed files input (moduleLine internal mod file ((collect input).mod2cost mod))
  | cset {file cset : Text} (isFile : file ∈ words files)
    (isCset : cset ∈ words ((collect input).file2cset file)) :
    Printed files input (printCset (collect input) file cset)
  | blank : Printed files input []

theorem printed_of_mem {line : Text} (member : line ∈ printed files input) :
    Printed files input line := by
  obtain ⟨file, isFile, kind⟩ := mem_printed.mp member
  rcases kind with rfl | ⟨mod, isMod, kind⟩ | ⟨cset, isCset, rfl⟩ | ⟨rfl, -⟩
  · exact .comment isFile
  · rw [printMod, List.mem_append, List.mem_map] at kind
    simp only [List.mem_cons, List.not_mem_nil, or_false] at kind
    rcases kind with ⟨name, isName, rfl⟩ | rfl | rfl | rfl
    · exact .aliasOf isFile isMod isName
    · exact .source isFile isMod
    · exact .target isFile isMod
    · exact .blank
  · exact .cset isFile isCset
  · exact .blank

/-- No line that is printed has a newline in it. -/
theorem Printed.newline_not_mem {line : Text} (printed : Printed files input line) :
    '\n' ∉ line := by
  cases printed with
  | comment isFile =>
    intro inside
    rcases List.mem_append.mp inside with comment | name
    · revert comment
      decide
    · cases (isWord_of_mem_words isFile).2 _ name
  | aliasOf isFile isMod isName =>
    exact newline_not_mem_intercalate
      (noBlank_aliasLine (isWord_of_mem_words isName).2 (isWord_of_mem_words isMod).2)
  | source isFile isMod =>
    exact newline_not_mem_intercalate (noBlank_moduleLine (isWord_of_mem_words isMod).2
      isWord_internal.2 (isWord_of_mem_words isFile).2 _)
  | target isFile isMod =>
    exact newline_not_mem_intercalate (noBlank_moduleLine isWord_internal.2
      (isWord_of_mem_words isMod).2 (isWord_of_mem_words isFile).2 _)
  | cset isFile isCset =>
    have noBlank := (isWord_of_mem_words isCset).2
    exact newline_not_mem_intercalate (noBlank_moduleLine (part_of_cset noBlank 0).1
      (part_of_cset noBlank 1).1 (isWord_of_mem_words isFile).2 _)
  | blank => exact List.not_mem_nil

/-- The lines of the output. -/
theorem splitOn_expunge :
    (expunge files input).splitOn '\n' = printed files input ++ [[]] := by
  have oneLine (line) (member : line ∈ printed files input) : '\n' ∉ line :=
    (printed_of_mem member).newline_not_mem
  have split := splitOn_flatMap_lines (fun line : Text => line) oneLine
  rwa [List.map_id'] at split

theorem printed_of_mem_lines {line : Text} (member : line ∈ printed files input ++ [[]]) :
    Printed files input line := by
  rcases List.mem_append.mp member with printed | empty
  · exact printed_of_mem printed
  · rw [List.mem_singleton.mp empty]
    exact .blank

/-- A comment is neither an entry nor an alias. -/
theorem field_comment (file : Text) :
    field ("# Modules and aliases for: ".toList ++ file) 1 = ['#'] := by
  have split : words ("# Modules and aliases for: ".toList ++ file) =
      words ['#'] ++ words ("Modules and aliases for: ".toList ++ file) :=
    words_append_cons ['#'] ("Modules and aliases for: ".toList ++ file) rfl
  rw [field, split]
  rfl

/-- The entries of the output, by what they are printed for. -/
theorem mem_entries_expunge {entry : Entry} :
    entry ∈ entries (expunge files input) ↔ ∃ file ∈ words files,
      (∃ mod ∈ words ((collect input).file2internals file),
        entry = ⟨mod, internal, file, price input mod⟩ ∨
          entry = ⟨internal, mod, file, price input mod⟩) ∨
      ∃ cset ∈ words ((collect input).file2cset file),
        readEntry (printCset (collect input) file cset) = some entry := by
  rw [entries, splitOn_expunge, List.mem_filterMap]
  constructor
  · rintro ⟨line, member, reads⟩
    cases printed_of_mem_lines member with
    | comment isFile =>
      rw [readEntry, field_comment] at reads
      cases reads
    | aliasOf isFile isMod isName =>
      rw [readEntry_aliasLine (isWord_of_mem_words isName).2 (isWord_of_mem_words isMod).2] at reads
      cases reads
    | source isFile isMod =>
      rw [readEntry_moduleLine (isWord_of_mem_words isMod) isWord_internal
        (isWord_of_mem_words isFile)] at reads
      exact ⟨_, isFile, Or.inl ⟨_, isMod, Or.inl (Option.some.inj reads).symm⟩⟩
    | target isFile isMod =>
      rw [readEntry_moduleLine isWord_internal (isWord_of_mem_words isMod)
        (isWord_of_mem_words isFile)] at reads
      exact ⟨_, isFile, Or.inl ⟨_, isMod, Or.inr (Option.some.inj reads).symm⟩⟩
    | cset isFile isCset => exact ⟨_, isFile, Or.inr ⟨_, isCset, reads⟩⟩
    | blank => cases reads
  · rintro ⟨file, isFile, ⟨mod, isMod, same⟩ | ⟨cset, isCset, reads⟩⟩
    · have isWordFile := isWord_of_mem_words isFile
      have isWordMod := isWord_of_mem_words isMod
      have printed : ∀ line ∈ printMod (collect input) file mod,
          line ∈ Gconv.printed files input ++ [[]] := fun line kind =>
        List.mem_append_left _ (mem_printed.mpr ⟨file, isFile, Or.inr (Or.inl ⟨mod, isMod, kind⟩)⟩)
      rcases same with rfl | rfl
      · exact ⟨_, printed _ (List.mem_append_right _ List.mem_cons_self),
          readEntry_moduleLine isWordMod isWord_internal isWordFile⟩
      · exact ⟨_, printed _ (List.mem_append_right _ (List.mem_cons_of_mem _ List.mem_cons_self)),
          readEntry_moduleLine isWord_internal isWordMod isWordFile⟩
    · exact ⟨_, List.mem_append_left _
        (mem_printed.mpr ⟨file, isFile, Or.inr (Or.inr (Or.inl ⟨cset, isCset, rfl⟩))⟩), reads⟩

/-- The aliases of the output are those of the charsets that are printed. -/
theorem mem_aliases_expunge {entry : Alias} :
    entry ∈ aliases (expunge files input) ↔ entry ∈ aliases input ∧ ∃ file ∈ words files,
      entry.realname ∈ words ((collect input).file2internals file) := by
  rw [aliases, splitOn_expunge, List.mem_filterMap]
  constructor
  · rintro ⟨line, member, reads⟩
    cases printed_of_mem_lines member with
    | comment isFile =>
      rw [readAlias, field_comment] at reads
      cases reads
    | aliasOf isFile isMod isName =>
      have isWordMod := isWord_of_mem_words isMod
      rw [readAlias_aliasLine (isWord_of_mem_words isName) isWordMod] at reads
      obtain rfl := Option.some.inj reads
      exact ⟨(mem_words_aliases isWordMod.1).mp isName, _, isFile, isMod⟩
    | source isFile isMod =>
      rw [readAlias_moduleLine (isWord_of_mem_words isMod).2 isWord_internal.2
        (isWord_of_mem_words isFile).2] at reads
      cases reads
    | target isFile isMod =>
      rw [readAlias_moduleLine isWord_internal.2 (isWord_of_mem_words isMod).2
        (isWord_of_mem_words isFile).2] at reads
      cases reads
    | cset isFile isCset =>
      have noBlank := (isWord_of_mem_words isCset).2
      rw [printCset, readAlias_moduleLine (part_of_cset noBlank 0).1 (part_of_cset noBlank 1).1
        (isWord_of_mem_words isFile).2] at reads
      cases reads
    | blank => cases reads
  · rintro ⟨isAlias, file, isFile, isMod⟩
    obtain ⟨name, realname⟩ := entry
    have isWordMod := isWord_of_mem_words isMod
    have isName := (mem_words_aliases isWordMod.1).mpr isAlias
    refine ⟨_, List.mem_append_left _ (mem_printed.mpr
      ⟨file, isFile, Or.inr (Or.inl ⟨realname, isMod, List.mem_append_left _
        (List.mem_map_of_mem isName)⟩)⟩), ?_⟩
    exact readAlias_aliasLine (isWord_of_mem_words isName) isWordMod

end Output

/-! ### What is kept -/

/-- Each conversion to `INTERNAL` is listed in both directions at equal cost. -/
def BothWays (input : Text) : Prop :=
  ∀ charset file cost, ⟨charset, internal, file, cost⟩ ∈ entries input ↔
    ⟨internal, charset, file, cost⟩ ∈ entries input

theorem bothWays_iff {input : Text} :
    BothWays input ↔ ∀ entry ∈ entries input,
      (entry.toset = internal →
        ⟨internal, entry.fromset, entry.file, entry.cost⟩ ∈ entries input) ∧
      (entry.fromset = internal →
        ⟨entry.toset, internal, entry.file, entry.cost⟩ ∈ entries input) := by
  constructor
  · rintro bothWays ⟨fromset, toset, file, cost⟩ member
    constructor
    · rintro rfl
      exact (bothWays _ _ _).mp member
    · rintro rfl
      exact (bothWays _ _ _).mpr member
  · intro listed charset file cost
    exact ⟨fun member => (listed _ member).1 rfl, fun member => (listed _ member).2 rfl⟩

instance (input : Text) : Decidable (BothWays input) := decidable_of_iff' _ bothWays_iff

/-- The output has the entries of the installed files, and the aliases of the charsets that these
convert to `INTERNAL`. -/
structure Keeps (files : List Text) (input output : Text) : Prop where
  entries : ∀ entry : Entry,
    entry ∈ entries output ↔ entry ∈ entries input ∧ entry.file ∈ files
  aliases : ∀ entry : Alias,
    entry ∈ aliases output ↔ entry ∈ aliases input ∧
      ∃ file ∈ files, ∃ cost, ⟨entry.realname, internal, file, cost⟩ ∈ Gconv.entries input

/-- What an entry must be to be printed as it is: its cost is printed like the last one with its
source, and a pair of other charsets has no colon. -/
structure Entry.Regular (input : Text) (entry : Entry) : Prop where
  notInternal : entry.fromset = internal → entry.toset ≠ internal
  cost : entry.fromset ≠ internal →
    entry.cost = showInt (awkInt (lastCost input entry.fromset))
  noColon : entry.fromset ≠ internal → entry.toset ≠ internal →
    ':' ∉ entry.fromset ∧ ':' ∉ entry.toset

section Kept

variable {files input : Text}

theorem price_eq {charset : Text} (notInternal : charset ≠ internal) :
    price input charset = showInt (awkInt (lastCost input charset)) := by
  rw [price, mod2cost_eq notInternal]

/-- The line of a pair without colons is read as the pair. -/
theorem readEntry_printCset {source target file : Text} (isSource : IsWord source)
    (isTarget : IsWord target) (isFile : IsWord file) (noSource : ':' ∉ source)
    (noTarget : ':' ∉ target) :
    readEntry (printCset (collect input) file (source ++ ':' :: target)) =
      some ⟨source, target, file, price input source⟩ := by
  rw [printCset, splitOn_pair noSource noTarget]
  exact readEntry_moduleLine isSource isTarget isFile

/-- Where every entry of an installed file is regular, the output has these entries. -/
theorem entries_of_regular (bothWays : BothWays input)
    (regular : ∀ entry ∈ entries input, entry.file ∈ words files → entry.Regular input)
    (entry : Entry) :
    entry ∈ entries (expunge files input) ↔ entry ∈ entries input ∧ entry.file ∈ words files := by
  rw [mem_entries_expunge]
  have ofMod : ∀ file ∈ words files, ∀ mod ∈ words ((collect input).file2internals file),
      ⟨mod, internal, file, price input mod⟩ ∈ entries input := by
    intro file isFile mod isMod
    obtain ⟨notInternal, cost, member⟩ :=
      (mem_words_file2internals (isWord_of_mem_words isFile).1).mp isMod
    have sameCost : cost = showInt (awkInt (lastCost input mod)) :=
      (regular _ member isFile).cost notInternal
    rw [price_eq notInternal, ← sameCost]
    exact member
  constructor
  · rintro ⟨file, isFile, ⟨mod, isMod, rfl | rfl⟩ | ⟨cset, isCset, reads⟩⟩
    · exact ⟨ofMod file isFile mod isMod, isFile⟩
    · exact ⟨(bothWays mod file _).mp (ofMod file isFile mod isMod), isFile⟩
    · obtain ⟨pair, member, rfl, source, target, rfl⟩ :=
        (mem_words_file2cset (isWord_of_mem_words isFile).1).mp isCset
      obtain ⟨isSource, isTarget, isPairFile⟩ := isWord_of_mem_entries member
      have pairRegular := regular pair member isFile
      obtain ⟨noSource, noTarget⟩ := pairRegular.noColon source target
      rw [readEntry_printCset isSource isTarget isPairFile noSource noTarget, price_eq source,
        ← pairRegular.cost source] at reads
      obtain rfl := Option.some.inj reads
      exact ⟨member, isFile⟩
  · rintro ⟨member, isFile⟩
    obtain ⟨isSource, isTarget, isWordFile⟩ := isWord_of_mem_entries member
    have entryRegular := regular entry member isFile
    obtain ⟨fromset, toset, file, cost⟩ := entry
    refine ⟨file, isFile, ?_⟩
    by_cases source : fromset = internal
    · subst source
      have target := entryRegular.notInternal rfl
      have swapped := (bothWays toset file cost).mpr member
      have sameCost : cost = showInt (awkInt (lastCost input toset)) :=
        (regular _ swapped isFile).cost target
      refine Or.inl ⟨toset, (mem_words_file2internals isWordFile.1).mpr ⟨target, cost, swapped⟩,
        Or.inr ?_⟩
      rw [price_eq target, ← sameCost]
    · have sameCost : cost = showInt (awkInt (lastCost input fromset)) := entryRegular.cost source
      by_cases target : toset = internal
      · subst target
        refine Or.inl ⟨fromset, (mem_words_file2internals isWordFile.1).mpr ⟨source, cost, member⟩,
          Or.inl ?_⟩
        rw [price_eq source, ← sameCost]
      · obtain ⟨noSource, noTarget⟩ := entryRegular.noColon source target
        refine Or.inr ⟨fromset ++ ':' :: toset, (mem_words_file2cset isWordFile.1).mpr
          ⟨_, member, rfl, source, target, rfl⟩, ?_⟩
        rw [readEntry_printCset isSource isTarget isWordFile noSource noTarget, price_eq source,
          ← sameCost]

/-- An entry for a pair with a colon is in the output only when its target is the file of another
such entry, and its own file has no colon. -/
theorem colon_step (kept : ∀ entry : Entry,
      entry ∈ entries input → entry.file ∈ words files → entry ∈ entries (expunge files input))
    {entry : Entry} (member : entry ∈ entries input) (isFile : entry.file ∈ words files)
    (source : entry.fromset ≠ internal) (target : entry.toset ≠ internal)
    (colon : ':' ∈ entry.fromset ∨ ':' ∈ entry.toset) :
    ':' ∉ entry.file ∧ ':' ∈ entry.toset ∧ ∃ other ∈ entries input, other.file ∈ words files ∧
      other.fromset ≠ internal ∧ other.toset ≠ internal ∧
      (':' ∈ other.fromset ∨ ':' ∈ other.toset) ∧ other.file = entry.toset := by
  obtain ⟨file, isInstalled, ⟨mod, isMod, rfl | rfl⟩ | ⟨cset, isCset, reads⟩⟩ :=
    mem_entries_expunge.mp (kept entry member isFile)
  · exact absurd rfl target
  · exact absurd rfl source
  · have isWordFile := isWord_of_mem_words isInstalled
    have noBlank := (isWord_of_mem_words isCset).2
    obtain ⟨noBlankSource, noSource⟩ := part_of_cset noBlank 0
    obtain ⟨noBlankTarget, noTarget⟩ := part_of_cset noBlank 1
    rw [printCset] at reads
    by_cases empty : (cset.splitOn ':').getD 0 [] = [] ∨ (cset.splitOn ':').getD 1 [] = []
    · obtain ⟨part, isTarget, isPrice⟩ :=
        readEntry_moduleLine_empty noBlankSource noBlankTarget isWordFile empty reads
      have noSource : ':' ∉ entry.fromset := by
        rcases part with same | same <;> rwa [same]
      refine ⟨?_, colon.resolve_left noSource, ?_⟩
      · rw [isPrice]
        exact colon_not_mem_price input _
      · obtain ⟨other, isEntry, rfl, otherSource, otherTarget, rfl⟩ :=
          (mem_words_file2cset isWordFile.1).mp isCset
        refine ⟨other, isEntry, isInstalled, otherSource, otherTarget, ?_, isTarget.symm⟩
        by_contra none
        rw [not_or] at none
        obtain ⟨isWordSource, isWordTarget, -⟩ := isWord_of_mem_entries isEntry
        rw [splitOn_pair none.1 none.2] at empty
        exact empty.elim isWordSource.1 isWordTarget.1
    · rw [not_or] at empty
      rw [readEntry_moduleLine ⟨empty.1, noBlankSource⟩ ⟨empty.2, noBlankTarget⟩ isWordFile]
        at reads
      obtain rfl := Option.some.inj reads
      exact absurd colon (not_or.mpr ⟨noSource, noTarget⟩)

/-- Where the output has the entries of the installed files, all these are regular. -/
theorem regular_of_entries
    (kept : ∀ entry : Entry,
      entry ∈ entries input → entry.file ∈ words files → entry ∈ entries (expunge files input))
    {entry : Entry} (member : entry ∈ entries input) (isFile : entry.file ∈ words files) :
    entry.Regular input := by
  have noColon : ∀ entry ∈ entries input, entry.file ∈ words files → entry.fromset ≠ internal →
      entry.toset ≠ internal → ':' ∉ entry.fromset ∧ ':' ∉ entry.toset := by
    intro entry member isFile source target
    by_contra colon
    rw [not_and_or, not_not, not_not] at colon
    -- The file of the other entry is the target of this one, which has a colon.
    obtain ⟨-, inTarget, other, isEntry, isInstalled, otherSource, otherTarget, otherColon, same⟩ :=
      colon_step kept member isFile source target colon
    refine (colon_step kept isEntry isInstalled otherSource otherTarget otherColon).1 ?_
    rwa [same]
  have asPrinted := mem_entries_expunge.mp (kept entry member isFile)
  obtain ⟨file, isInstalled, ⟨mod, isMod, rfl | rfl⟩ | ⟨cset, isCset, reads⟩⟩ := asPrinted
  · have notInternal :=
      ((mem_words_file2internals (isWord_of_mem_words isInstalled).1).mp isMod).1
    exact ⟨fun same => absurd same notInternal, price_eq, fun _ target => absurd rfl target⟩
  · have notInternal :=
      ((mem_words_file2internals (isWord_of_mem_words isInstalled).1).mp isMod).1
    exact ⟨fun _ => notInternal, fun source => absurd rfl source, fun source => absurd rfl source⟩
  · obtain ⟨pair, isEntry, rfl, source, target, rfl⟩ :=
      (mem_words_file2cset (isWord_of_mem_words isInstalled).1).mp isCset
    obtain ⟨isSource, isTarget, isWordFile⟩ := isWord_of_mem_entries isEntry
    obtain ⟨noSource, noTarget⟩ := noColon pair isEntry isInstalled source target
    rw [readEntry_printCset isSource isTarget isWordFile noSource noTarget] at reads
    obtain rfl := Option.some.inj reads
    exact ⟨fun same => absurd same source, price_eq, fun _ _ => ⟨noSource, noTarget⟩⟩

/-- The output has exactly the entries and aliases of the installed modules, if and only if every
entry of an installed module has the cost of the last entry with its source, no pair has a
colon, and nothing converts `INTERNAL` to itself. -/
theorem expunge_keeps_iff (files input : Text) (bothWays : BothWays input) :
    Keeps (words files) input (expunge files input) ↔
      ∀ entry ∈ entries input, entry.file ∈ words files → entry.Regular input := by
  constructor
  · intro keeps entry member isFile
    exact regular_of_entries
      (fun entry member isFile => (keeps.entries entry).mpr ⟨member, isFile⟩) member isFile
  · intro regular
    refine ⟨entries_of_regular bothWays regular, fun entry => ?_⟩
    rw [mem_aliases_expunge]
    refine and_congr_right fun _ => exists_congr fun file => and_congr_right fun isFile => ?_
    rw [mem_words_file2internals (isWord_of_mem_words isFile).1]
    refine ⟨fun ⟨_, converts⟩ => converts, fun ⟨cost, member⟩ => ⟨?_, cost, member⟩⟩
    exact fun same => (regular _ member isFile).notInternal same rfl

/-- A charset with an alias, converted by one module. -/
def latin9 : Text :=
  ("alias\tLATIN-9//\tISO-8859-15//\nmodule\tISO-8859-15//\tINTERNAL\tISO8859-15\t1\n" ++
    "module\tINTERNAL\tISO-8859-15//\tISO8859-15\t1\n").toList

/-- The module of the charset is installed. -/
theorem expunge_keeps_iff_latin9 : BothWays latin9 ∧
    (Keeps (words "IBM850 ISO8859-15".toList) latin9 (expunge "IBM850 ISO8859-15".toList latin9) ↔
      ∀ entry ∈ entries latin9, entry.file ∈ words "IBM850 ISO8859-15".toList →
        entry.Regular latin9) :=
  ⟨by decide +kernel, expunge_keeps_iff _ _ (by decide +kernel)⟩

/-- A module that is not installed converts the charset to another one, at cost 2. -/
theorem cost_of_other_module :
    ∃ files input, BothWays input ∧ ¬ Keeps (words files) input (expunge files input) := by
  refine ⟨"ISO8859-15".toList, latin9 ++ "module\tISO-8859-15//\tUTF-8//\tLATIN-UTF8\t2\n".toList,
    by decide +kernel, fun keeps => ?_⟩
  have kept := (keeps.entries ⟨"ISO-8859-15//".toList, internal, "ISO8859-15".toList,
    "1".toList⟩).mpr (by decide +kernel)
  revert kept
  decide +kernel

end Kept

end Buildroot4G.Gconv
