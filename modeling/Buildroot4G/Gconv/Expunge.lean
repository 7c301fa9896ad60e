/-
This file models `support/scripts/expunge-gconv-modules`: an awk program that collects the
directives of a `gconv-modules` file in arrays and prints those of the installed modules
again. It proves what each element of the arrays is, in terms of the directives of the
input, and which directives a reader finds in the output.
-/

import Buildroot4G.Shell.Awk
import Buildroot4G.Shell.Number

namespace Buildroot4G.Gconv

open Shell

/-- The name of the representation that modules convert to and from. -/
def internal : Text := "INTERNAL".toList

/-! ### The awk program -/

/-- The arrays; an element that was never set is empty. -/
structure Arrays where
  aliases : Text → Text
  file2internals : Text → Text
  file2cset : Text → Text
  mod2cost : Text → Text

def Arrays.empty : Arrays := ⟨fun _ => [], fun _ => [], fun _ => [], fun _ => []⟩

def isAlias (line : Text) : Bool := field line 1 = "alias".toList

/-- The patterns of the two rules for modules. -/
def isInternal (line : Text) : Bool :=
  field line 1 = "module".toList ∧ field line 2 ≠ internal ∧ field line 3 = internal

def isCset (line : Text) : Bool :=
  field line 1 = "module".toList ∧ field line 2 ≠ internal ∧ field line 3 ≠ internal

/-- The rules, which are tried on every line in turn. -/
def Arrays.line (arrays : Arrays) (line : Text) : Arrays where
  aliases :=
    if isAlias line then appendTo arrays.aliases (field line 3) (field line 2) else arrays.aliases
  file2internals :=
    if isInternal line then appendTo arrays.file2internals (field line 4) (field line 2)
    else arrays.file2internals
  file2cset :=
    if isCset line then
      appendTo arrays.file2cset (field line 4) (field line 2 ++ ':' :: field line 3)
    else arrays.file2cset
  mod2cost :=
    if isInternal line || isCset line then
      Function.update arrays.mod2cost (field line 2) (field line 5)
    else arrays.mod2cost

/-- The arrays after the input. What follows the last newline has no fields when it is empty, so
that no rule applies to it. -/
def collect (input : Text) : Arrays := (input.splitOn '\n').foldl Arrays.line Arrays.empty

/-- The line `alias\t%s\t%s`. -/
def aliasLine (name realname : Text) : Text :=
  ['\t'].intercalate ["alias".toList, name, realname]

/-- The line `module\t%s\t%s\t%s\t%d`. -/
def moduleLine (fromset toset file cost : Text) : Text :=
  ['\t'].intercalate ["module".toList, fromset, toset, file, showInt (awkInt cost)]

/-- The lines that are printed for a charset of a file. -/
def printMod (arrays : Arrays) (file mod : Text) : List Text :=
  (words (arrays.aliases mod)).map (fun name => aliasLine name mod) ++
    [moduleLine mod internal file (arrays.mod2cost mod),
      moduleLine internal mod file (arrays.mod2cost mod), []]

/-- The line that is printed for a pair of charsets of a file. -/
def printCset (arrays : Arrays) (file cset : Text) : Text :=
  let cs := cset.splitOn ':'
  moduleLine (cs.getD 0 []) (cs.getD 1 []) file (arrays.mod2cost (cs.getD 0 []))

/-- The lines that are printed for a file. -/
def printFile (arrays : Arrays) (file : Text) : List Text :=
  let mods := words (arrays.file2internals file)
  let csets := words (arrays.file2cset file)
  ("# Modules and aliases for: ".toList ++ file) ::
    (mods.flatMap (printMod arrays file) ++ (if mods.length ≠ 0 then [[]] else []) ++
      csets.map (printCset arrays file) ++ if csets.length ≠ 0 then [[], []] else [])

/-- The lines of the output, for the text of the variable `files`. -/
def printed (files input : Text) : List Text := (words files).flatMap (printFile (collect input))

def expunge (files input : Text) : Text :=
  (printed files input).flatMap fun line => line ++ ['\n']

/-! ### Reading a `gconv-modules` file -/

/-- The operands of a `module` directive; a cost that is missing is empty. -/
structure Entry where
  fromset : Text
  toset : Text
  file : Text
  cost : Text
  deriving DecidableEq

/-- The operands of an `alias` directive. -/
structure Alias where
  name : Text
  realname : Text
  deriving DecidableEq

/-- A module directive with a file. -/
def readEntry (line : Text) : Option Entry :=
  if field line 1 = "module".toList ∧ field line 4 ≠ [] then
    some ⟨field line 2, field line 3, field line 4, field line 5⟩
  else none

def readAlias (line : Text) : Option Alias :=
  if field line 1 = "alias".toList ∧ field line 3 ≠ [] then
    some ⟨field line 2, field line 3⟩
  else none

/-- The module entries of a file. -/
def entries (text : Text) : List Entry := (text.splitOn '\n').filterMap readEntry

/-- The aliases of a file. -/
def aliases (text : Text) : List Alias := (text.splitOn '\n').filterMap readAlias

/-- The cost on the last module line whose source is a charset. -/
def lastCost (text charset : Text) : Text :=
  (((text.splitOn '\n').filter fun line =>
    decide (field line 1 = "module".toList) && decide (field line 2 = charset)).getLast?.map
      fun line => field line 5).getD []

/-! ### What the arrays hold -/

section Arrays

variable {input : Text}

theorem mem_entries {entry : Entry} :
    entry ∈ entries input ↔ ∃ line ∈ input.splitOn '\n',
      field line 1 = "module".toList ∧ field line 4 ≠ [] ∧
        entry = ⟨field line 2, field line 3, field line 4, field line 5⟩ := by
  rw [entries, List.mem_filterMap]
  refine exists_congr fun line => and_congr_right fun _ => ?_
  rw [readEntry, Option.ite_none_right_eq_some, Option.some.injEq, and_assoc, @eq_comm _ entry]

theorem mem_aliases {entry : Alias} :
    entry ∈ aliases input ↔ ∃ line ∈ input.splitOn '\n',
      field line 1 = "alias".toList ∧ field line 3 ≠ [] ∧
        entry = ⟨field line 2, field line 3⟩ := by
  rw [aliases, List.mem_filterMap]
  refine exists_congr fun line => and_congr_right fun _ => ?_
  rw [readAlias, Option.ite_none_right_eq_some, Option.some.injEq, and_assoc, @eq_comm _ entry]

/-- The operands of an entry are words. -/
theorem isWord_of_mem_entries {entry : Entry} (member : entry ∈ entries input) :
    IsWord entry.fromset ∧ IsWord entry.toset ∧ IsWord entry.file := by
  obtain ⟨line, -, -, nonempty, rfl⟩ := mem_entries.mp member
  exact ⟨isWord_field (field_ne_nil (by decide) nonempty),
    isWord_field (field_ne_nil (by decide) nonempty), isWord_field nonempty⟩

/-- The names collected for a real name are its aliases. -/
theorem mem_words_aliases {realname name : Text} (nonempty : realname ≠ []) :
    name ∈ words ((collect input).aliases realname) ↔ ⟨name, realname⟩ ∈ aliases input := by
  have folded : (collect input).aliases = (input.splitOn '\n').foldl (fun array line =>
      if isAlias line then appendTo array (field line 3) (field line 2) else array) fun _ => [] :=
    (List.foldl_hom Arrays.aliases fun _ _ => rfl).symm
  have isWord : ∀ line ∈ input.splitOn '\n', isAlias line = true → field line 3 = realname →
      IsWord (field line 2) := by
    rintro line - - rfl
    exact isWord_field (field_ne_nil (by decide) nonempty)
  rw [folded, words_foldl_appendTo isAlias (fun line => field line 3) (fun line => field line 2) _ _
    realname isWord, mem_aliases]
  simp only [words_nil, List.nil_append, List.mem_map, List.mem_filter, Bool.and_eq_true,
    decide_eq_true_eq, isAlias]
  constructor
  · rintro ⟨line, ⟨member, isAlias, rfl⟩, rfl⟩
    exact ⟨line, member, isAlias, nonempty, rfl⟩
  · rintro ⟨line, member, isAlias, -, same⟩
    obtain ⟨rfl, rfl⟩ := Alias.mk.inj same
    exact ⟨line, ⟨member, isAlias, rfl⟩, rfl⟩

/-- The charsets collected for a file are those it converts to `INTERNAL`. -/
theorem mem_words_file2internals {file mod : Text} (nonempty : file ≠ []) :
    mod ∈ words ((collect input).file2internals file) ↔
      mod ≠ internal ∧ ∃ cost, ⟨mod, internal, file, cost⟩ ∈ entries input := by
  have folded : (collect input).file2internals = (input.splitOn '\n').foldl (fun array line =>
      if isInternal line then appendTo array (field line 4) (field line 2) else array)
        fun _ => [] :=
    (List.foldl_hom Arrays.file2internals fun _ _ => rfl).symm
  have isWord : ∀ line ∈ input.splitOn '\n', isInternal line = true → field line 4 = file →
      IsWord (field line 2) := by
    rintro line - - rfl
    exact isWord_field (field_ne_nil (by decide) nonempty)
  rw [folded, words_foldl_appendTo isInternal (fun line => field line 4)
    (fun line => field line 2) _ _ file isWord]
  simp only [words_nil, List.nil_append, List.mem_map, List.mem_filter, Bool.and_eq_true,
    decide_eq_true_eq, isInternal, mem_entries]
  constructor
  · rintro ⟨line, ⟨member, ⟨isModule, source, target⟩, rfl⟩, rfl⟩
    exact ⟨source, field line 5, line, member, isModule, nonempty, by rw [target]⟩
  · rintro ⟨source, cost, line, member, isModule, -, same⟩
    obtain ⟨rfl, target, rfl, -⟩ := Entry.mk.inj same
    exact ⟨line, ⟨member, ⟨isModule, source, target.symm⟩, rfl⟩, rfl⟩

/-- The pairs collected for a file are those it converts directly. -/
theorem mem_words_file2cset {file cset : Text} (nonempty : file ≠ []) :
    cset ∈ words ((collect input).file2cset file) ↔
      ∃ entry ∈ entries input, entry.file = file ∧ entry.fromset ≠ internal ∧
        entry.toset ≠ internal ∧ cset = entry.fromset ++ ':' :: entry.toset := by
  have folded : (collect input).file2cset = (input.splitOn '\n').foldl (fun array line =>
      if isCset line then
        appendTo array (field line 4) (field line 2 ++ ':' :: field line 3)
      else array) fun _ => [] :=
    (List.foldl_hom Arrays.file2cset fun _ _ => rfl).symm
  have isWord : ∀ line ∈ input.splitOn '\n', isCset line = true → field line 4 = file →
      IsWord (field line 2 ++ ':' :: field line 3) := by
    intro line _ _ _
    refine ⟨List.append_ne_nil_of_right_ne_nil _ (List.cons_ne_nil _ _), ?_⟩
    refine List.forall_mem_append.mpr ⟨noBlank_field line 2, ?_⟩
    exact List.forall_mem_cons.mpr ⟨rfl, noBlank_field line 3⟩
  rw [folded, words_foldl_appendTo isCset (fun line => field line 4)
    (fun line => field line 2 ++ ':' :: field line 3) _ _ file isWord]
  simp only [words_nil, List.nil_append, List.mem_map, List.mem_filter, Bool.and_eq_true,
    decide_eq_true_eq, isCset]
  constructor
  · rintro ⟨line, ⟨member, ⟨isModule, source, target⟩, rfl⟩, rfl⟩
    exact ⟨_, mem_entries.mpr ⟨line, member, isModule, nonempty, rfl⟩, rfl, source, target, rfl⟩
  · rintro ⟨entry, isEntry, rfl, source, target, rfl⟩
    obtain ⟨line, member, isModule, -, rfl⟩ := mem_entries.mp isEntry
    exact ⟨line, ⟨member, ⟨isModule, source, target⟩, rfl⟩, rfl⟩

/-- The cost collected for a charset is the last one of a module line with that source. -/
theorem mod2cost_eq {charset : Text} (notInternal : charset ≠ internal) :
    (collect input).mod2cost charset = lastCost input charset := by
  have folded : (collect input).mod2cost = (input.splitOn '\n').foldl (fun array line =>
      if isInternal line || isCset line then
        Function.update array (field line 2) (field line 5)
      else array) fun _ => [] :=
    (List.foldl_hom Arrays.mod2cost fun _ _ => rfl).symm
  rw [folded, foldl_update (fun line => isInternal line || isCset line)
    (fun line => field line 2) (fun line => field line 5), lastCost]
  have same : (input.splitOn '\n').filter (fun line =>
      (isInternal line || isCset line) && decide (field line 2 = charset)) =
      (input.splitOn '\n').filter fun line =>
        decide (field line 1 = "module".toList) && decide (field line 2 = charset) := by
    refine List.filter_congr fun line _ => ?_
    rw [Bool.eq_iff_iff]
    simp only [isInternal, isCset, Bool.and_eq_true, Bool.or_eq_true, decide_eq_true_eq]
    constructor
    · rintro ⟨⟨isModule, -⟩ | ⟨isModule, -⟩, source⟩ <;> exact ⟨isModule, source⟩
    · rintro ⟨isModule, rfl⟩
      by_cases target : field line 3 = internal
      · exact ⟨Or.inl ⟨isModule, notInternal, target⟩, rfl⟩
      · exact ⟨Or.inr ⟨isModule, notInternal, target⟩, rfl⟩
  rw [same]

end Arrays

end Buildroot4G.Gconv
