/-
This file reads back what `conf_write` wrote. Every symbol that was written gets the value that it
had, no other one gets a value, and no line is warned about. A choice gets its value with that of
its symbols.

Two things could break this, and are excluded: a comment that reads as a symbol that is not set, and
a string with a newline. The values are carried along the list of the symbols that were written,
each of which has one line.
-/

import Buildroot4G.Kconf.Lines
import Mathlib.Data.List.Nodup

namespace Buildroot4G.Kconf

open Shell

variable {ν : Type} [DecidableEq ν] {symbols : Symbols ν} {config : Text}
  {values : Values symbols.toTable} {sym : ν} {reading : Reading ν}

/-! ### The symbols of a file -/

/-- The symbol that a line is written for. -/
def printedSymbol (symbols : Symbols ν) : Entry ν → Option ν
  | .title _ _ => none
  | .symbol sym => if (symbols.type sym).isPrinted then some sym else none

/-- The symbols with a line, in the order of their lines. -/
def writtenSymbols (symbols : Symbols ν) (entries : List (Entry ν)) (writes : ν → Bool) : List ν :=
  (written symbols entries writes).filterMap (printedSymbol symbols)

theorem writtenSymbols_cons_symbol (entries : List (Entry ν)) (writes : ν → Bool) :
    writtenSymbols symbols (.symbol sym :: entries) writes =
      if symbols.isChoice sym ∨ ¬writes sym then writtenSymbols symbols entries writes
      else (printedSymbol symbols (.symbol sym)).toList ++
        writtenSymbols symbols entries (Function.update writes sym false) := by
  rw [writtenSymbols, written]
  split
  · rfl
  · cases printed : printedSymbol symbols (.symbol sym) with
    | none => exact List.filterMap_cons_none printed
    | some sym' => exact List.filterMap_cons_some printed

theorem writtenSymbols_cons_title (prompt : Text) (visible : Bool) (entries : List (Entry ν))
    (writes : ν → Bool) :
    writtenSymbols symbols (.title prompt visible :: entries) writes =
      writtenSymbols symbols entries writes := by
  cases visible <;> rfl

omit [DecidableEq ν] in
theorem mem_printedSymbol {other : ν} :
    other ∈ (printedSymbol symbols (.symbol sym)).toList ↔
      other = sym ∧ (symbols.type sym).isPrinted = true := by
  rw [printedSymbol]
  split <;> simp_all

/-- The symbols with a line are those of the menus that are to be written and have a type for it. -/
theorem mem_writtenSymbols (entries : List (Entry ν)) (writes : ν → Bool) :
    sym ∈ writtenSymbols symbols entries writes ↔
      .symbol sym ∈ entries ∧ writes sym = true ∧ symbols.isChoice sym = false ∧
        (symbols.type sym).isPrinted = true := by
  induction entries generalizing writes with
  | nil => simp [writtenSymbols, written]
  | cons entry entries inductionHypothesis =>
    cases entry with
    | title prompt visible =>
      rw [writtenSymbols_cons_title, inductionHypothesis]
      simp
    | symbol first =>
      rw [writtenSymbols_cons_symbol]
      split
      · rename_i skipped
        rw [inductionHypothesis]
        simp only [List.mem_cons, Entry.symbol.injEq]
        constructor
        · rintro ⟨member, rest⟩
          exact ⟨Or.inr member, rest⟩
        · rintro ⟨rfl | member, writes', notChoice, printed⟩
          · simp [writes', notChoice] at skipped
          · exact ⟨member, writes', notChoice, printed⟩
      · rename_i writes'
        simp only [not_or, Bool.not_eq_true] at writes'
        rw [List.mem_append, mem_printedSymbol, inductionHypothesis]
        simp only [List.mem_cons, Entry.symbol.injEq]
        by_cases same : sym = first
        · subst same
          simp [writes']
        · simp [same]

/-- No symbol has two lines. -/
theorem nodup_writtenSymbols (entries : List (Entry ν)) (writes : ν → Bool) :
    (writtenSymbols symbols entries writes).Nodup := by
  induction entries generalizing writes with
  | nil => exact List.nodup_nil
  | cons entry entries inductionHypothesis =>
    cases entry with
    | title prompt visible =>
      rw [writtenSymbols_cons_title]
      exact inductionHypothesis writes
    | symbol first =>
      rw [writtenSymbols_cons_symbol]
      split
      · exact inductionHypothesis writes
      · refine List.nodup_append.mpr ⟨?_, inductionHypothesis _, ?_⟩
        · rw [printedSymbol]
          split
          · exact List.nodup_singleton first
          · exact List.nodup_nil
        · rintro other member _ later rfl
          obtain ⟨rfl, -⟩ := mem_printedSymbol.mp member
          obtain ⟨-, writes', -⟩ := (mem_writtenSymbols entries _).mp later
          rw [Function.update_self] at writes'
          cases writes'

/-! ### The whole file -/

/-- What a line of a symbol does. -/
def give (symbols : Symbols ν) (values : Values symbols.toTable) (reading : Reading ν) (sym : ν) :
    Reading ν :=
  setChoice symbols sym (reading.put sym (stored symbols values sym))

theorem give_defs_of_ne {other : ν} (differs : other ≠ sym)
    (noChoice : symbols.choiceOf sym ≠ some other) :
    (give symbols values reading sym).defs other = reading.defs other := by
  have before : (reading.put sym (stored symbols values sym)).defs other = reading.defs other :=
    Function.update_of_ne differs _ _
  rw [give, setChoice]
  cases isChoice : symbols.choiceOf sym with
  | none => exact before
  | some choice =>
    have differs' : other ≠ choice := fun same => noChoice (same ▸ isChoice)
    rw [← before]
    dsimp only
    split
    · exact Function.update_of_ne differs' _ _
    · split <;> exact Function.update_of_ne differs' _ _
    · split <;> exact Function.update_of_ne differs' _ _

/-- The lines of the entries give the symbols their values, one after the other. -/
theorem foldl_entryLines (choices : ∀ sym choice, symbols.choiceOf sym = some choice →
      symbols.isChoice choice = true) (entries : List (Entry ν))
    (titles : ∀ prompt visible, .title prompt visible ∈ entries →
      Remark config ("# ".toList ++ prompt))
    (readables : ∀ sym ∈ entries.filterMap (printedSymbol symbols),
      Readable symbols config values sym ∧ symbols.isChoice sym = false)
    (nodup : (entries.filterMap (printedSymbol symbols)).Nodup) (reading : Reading ν)
    (fresh : ∀ sym ∈ entries.filterMap (printedSymbol symbols), reading.defs sym = unset) :
    ((entries.flatMap (entryLines symbols config values)).map endLine).foldl
        (readLine symbols config) reading =
      (entries.filterMap (printedSymbol symbols)).foldl (give symbols values) reading := by
  induction entries generalizing reading with
  | nil => rfl
  | cons entry entries inductionHypothesis =>
    have titles' : ∀ prompt visible, .title prompt visible ∈ entries →
        Remark config ("# ".toList ++ prompt) := fun prompt visible member =>
      titles prompt visible (List.mem_cons_of_mem _ member)
    rw [List.flatMap_cons, List.map_append, List.foldl_append]
    cases isSymbol : printedSymbol symbols entry with
    | none =>
      have rest := List.filterMap_cons_none (l := entries) isSymbol
      rw [rest] at readables nodup fresh ⊢
      rw [← inductionHypothesis titles' readables nodup reading fresh]
      refine congrArg (List.foldl (readLine symbols config) · _) ?_
      cases entry with
      | title prompt visible =>
        simp only [entryLines, List.map_cons, List.map_nil, List.foldl_cons, List.foldl_nil]
        rw [readLine_blank, readLine_remark (remark_hash config) rfl,
          readLine_remark (titles prompt visible List.mem_cons_self) rfl,
          readLine_remark (remark_hash config) rfl]
      | symbol sym =>
        rw [printedSymbol] at isSymbol
        split at isSymbol
        · cases isSymbol
        · rename_i noLine
          rw [entryLines, if_neg noLine]
          rfl
    | some sym =>
      have rest := List.filterMap_cons_some (l := entries) isSymbol
      rw [rest] at readables nodup fresh ⊢
      rw [List.nodup_cons] at nodup
      obtain ⟨readable, notChoice⟩ := readables sym List.mem_cons_self
      have isEntry : entry = .symbol sym ∧ (symbols.type sym).isPrinted = true := by
        cases entry with
        | title => cases isSymbol
        | symbol first =>
          rw [printedSymbol] at isSymbol
          split at isSymbol
          · rename_i printed
            cases isSymbol
            exact ⟨rfl, printed⟩
          · cases isSymbol
      rw [isEntry.1, entryLines, if_pos isEntry.2, List.map_singleton, List.foldl_cons,
        List.foldl_nil, List.foldl_cons,
        readLine_printSymbol readable (fresh sym List.mem_cons_self) isEntry.2]
      refine inductionHypothesis titles' (fun other member =>
        readables other (List.mem_cons_of_mem _ member)) nodup.2 _ fun other member => ?_
      have differs : other ≠ sym := fun same => nodup.1 (same ▸ member)
      have noChoice : symbols.choiceOf sym ≠ some other := by
        intro isChoice
        have notChoice' := (readables other (List.mem_cons_of_mem _ member)).2
        rw [choices sym other isChoice] at notChoice'
        cases notChoice'
      exact (give_defs_of_ne differs noChoice).trans (fresh other (List.mem_cons_of_mem _ member))

/-- The value of a choice is its symbol that is `y`; it is not `y` itself without one. -/
def Chosen (symbols : Symbols ν) (values : Values symbols.toTable) (given : List ν) (choice : ν)
    (value : Def ν) : Prop :=
  (∃ sym ∈ given, symbols.choiceOf sym = some choice ∧ values.tri sym = .yes ∧ value.tri = .yes ∧
      value.val = some (.inr sym)) ∨
    (∀ sym ∈ given, symbols.choiceOf sym = some choice → values.tri sym ≠ .yes) ∧
      value.val = none ∧ value.tri ≠ .yes ∧
      (value.tri = .mod → ∃ sym ∈ given, symbols.choiceOf sym = some choice ∧
        values.tri sym = .mod)

/-- Some symbols have their values, and no other symbol has one. -/
structure Given (symbols : Symbols ν) (values : Values symbols.toTable) (given : List ν)
    (reading : Reading ν) : Prop where
  warnings : reading.warnings = 0
  changes : reading.changes = 0
  value : ∀ sym, symbols.isChoice sym = false →
    reading.defs sym = if sym ∈ given then stored symbols values sym else unset
  chosen : ∀ choice, symbols.isChoice choice = true →
    Chosen symbols values given choice (reading.defs choice)

/-- A choice with a symbol that is `y` has no other symbol that is not `n`. -/
def Exclusive (symbols : Symbols ν) (values : Values symbols.toTable) (given : List ν) : Prop :=
  ∀ first ∈ given, ∀ second ∈ given, ∀ choice, symbols.choiceOf first = some choice →
    symbols.choiceOf second = some choice → values.tri first = .yes → second ≠ first →
    values.tri second = .no

theorem exprOr_no (value : Tristate) : exprOr value .no = value := by
  cases value <;> rfl

theorem exprOr_eq_yes {first second : Tristate} :
    exprOr first second = .yes ↔ first = .yes ∨ second = .yes := by
  cases first <;> cases second <;> decide

/-- What a symbol makes of the value of its choice. -/
def joined (values : Values symbols.toTable) (sym : ν) (value : Def ν) : Def ν where
  tri := exprOr value.tri (values.tri sym)
  val := if values.tri sym = .yes then some (.inr sym) else value.val
  isSet := value.isSet

/-- A symbol gives its value to its choice, without a warning where the choice has none that is as
large. -/
theorem give_of_choice {choice : ν} (isChoice : symbols.choiceOf sym = some choice)
    (differs : choice ≠ sym) (noMod : values.tri sym = .mod → (reading.defs choice).tri ≠ .yes)
    (noYes : values.tri sym = .yes → (reading.defs choice).tri = .no) :
    give symbols values reading sym =
      (reading.put sym (stored symbols values sym)).put choice
        (joined values sym (reading.defs choice)) := by
  have ofSym : (reading.put sym (stored symbols values sym)).defs sym = stored symbols values sym :=
    Function.update_self _ _ _
  have tri : (stored symbols values sym).tri = values.tri sym := rfl
  have ofChoice : (reading.put sym (stored symbols values sym)).defs choice = reading.defs choice :=
    Function.update_of_ne differs _ _
  rw [give, setChoice, isChoice, joined]
  simp only [ofSym, ofChoice, tri]
  cases value : values.tri sym with
  | no => rfl
  | mod => exact if_neg (noMod value)
  | yes => simp only [noYes value, ne_eq, not_true_eq_false, if_false, if_true]

variable {given : List ν}

omit [DecidableEq ν] in
/-- What a choice is after one more of its symbols. -/
theorem chosen_give {choice : ν} (exclusive : Exclusive symbols values (sym :: given))
    (new : sym ∉ given) (isChoice : symbols.choiceOf sym = some choice) {value : Def ν}
    (chosen : Chosen symbols values given choice value) :
    (values.tri sym = .mod → value.tri ≠ .yes) ∧ (values.tri sym = .yes → value.tri = .no) ∧
      Chosen symbols values (sym :: given) choice (joined values sym value) := by
  have others : ∀ other ∈ given, symbols.choiceOf other = some choice →
      (values.tri other = .yes → values.tri sym = .no) ∧
        (values.tri sym = .yes → values.tri other = .no) := by
    intro other member isChoice'
    have differs : sym ≠ other := fun same => new (same ▸ member)
    exact ⟨fun isYes => exclusive other (List.mem_cons_of_mem _ member) sym List.mem_cons_self
        choice isChoice' isChoice isYes differs,
      fun isYes => exclusive sym List.mem_cons_self other (List.mem_cons_of_mem _ member) choice
        isChoice isChoice' isYes differs.symm⟩
  rcases chosen with
    ⟨other, member, isChoice', isYes, triYes, isVal⟩ | ⟨noYes, noVal, notYes, ofMod⟩
  · have isNo := (others other member isChoice').1 isYes
    rw [joined, isNo, exprOr_no, triYes]
    exact ⟨nofun, nofun,
      Or.inl ⟨other, List.mem_cons_of_mem _ member, isChoice', isYes, rfl, isVal⟩⟩
  · have noYes' : values.tri sym ≠ .yes → ∀ other ∈ sym :: given,
        symbols.choiceOf other = some choice → values.tri other ≠ .yes := by
      rintro isNot other member isChoice'
      rcases List.mem_cons.mp member with rfl | below
      · exact isNot
      · exact noYes other below isChoice'
    refine ⟨fun _ => notYes, fun isYes => ?_, ?_⟩
    · cases isTri : value.tri with
      | no => rfl
      | yes => exact absurd isTri notYes
      | mod =>
        obtain ⟨other, member, isChoice', isMod⟩ := ofMod isTri
        rw [(others other member isChoice').2 isYes] at isMod
        cases isMod
    · rw [joined]
      cases isTri : values.tri sym with
      | yes =>
        refine Or.inl ⟨sym, List.mem_cons_self, isChoice, isTri, ?_, rfl⟩
        exact exprOr_eq_yes.mpr (Or.inr rfl)
      | no =>
        rw [exprOr_no]
        refine Or.inr ⟨noYes' (by rw [isTri]; decide), noVal, notYes, fun isMod => ?_⟩
        obtain ⟨other, member, rest⟩ := ofMod isMod
        exact ⟨other, List.mem_cons_of_mem _ member, rest⟩
      | mod =>
        exact Or.inr ⟨noYes' (by rw [isTri]; decide), noVal,
          fun isYes => (exprOr_eq_yes.mp isYes).elim notYes nofun,
          fun _ => ⟨sym, List.mem_cons_self, isChoice, isTri⟩⟩

omit [DecidableEq ν] in
/-- Other symbols are nothing to a choice. -/
theorem Chosen.cons {choice : ν} {value : Def ν} (other : symbols.choiceOf sym ≠ some choice)
    (chosen : Chosen symbols values given choice value) :
    Chosen symbols values (sym :: given) choice value := by
  rcases chosen with ⟨first, member, rest⟩ | ⟨noYes, noVal, notYes, ofMod⟩
  · exact Or.inl ⟨first, List.mem_cons_of_mem _ member, rest⟩
  · refine Or.inr ⟨fun first member isChoice => ?_, noVal, notYes, fun isMod => ?_⟩
    · rcases List.mem_cons.mp member with rfl | below
      · exact absurd isChoice other
      · exact noYes first below isChoice
    · obtain ⟨first, member, rest⟩ := ofMod isMod
      exact ⟨first, List.mem_cons_of_mem _ member, rest⟩

/-- One more symbol. -/
theorem given_give (choices : ∀ sym choice, symbols.choiceOf sym = some choice →
      symbols.isChoice choice = true)
    (exclusive : Exclusive symbols values (sym :: given)) (new : sym ∉ given)
    (notChoice : symbols.isChoice sym = false) (isGiven : Given symbols values given reading) :
    Given symbols values (sym :: given) (give symbols values reading sym) := by
  have ofSym : ∀ other, symbols.isChoice other = false →
      (reading.put sym (stored symbols values sym)).defs other =
        if other ∈ sym :: given then stored symbols values other else unset := by
    intro other notChoice'
    by_cases same : other = sym
    · rw [same, if_pos List.mem_cons_self]
      exact Function.update_self _ _ _
    · refine (Function.update_of_ne same _ _).trans ((isGiven.value other notChoice').trans ?_)
      simp only [List.mem_cons, same, false_or]
  have choiceNe : ∀ choice, symbols.isChoice choice = true → choice ≠ sym := by
    rintro choice isChoice rfl
    rw [notChoice] at isChoice
    cases isChoice
  cases isChoice : symbols.choiceOf sym with
  | none =>
    have same : give symbols values reading sym = reading.put sym (stored symbols values sym) := by
      rw [give, setChoice, isChoice]
    rw [same]
    refine ⟨isGiven.warnings, isGiven.changes, ofSym, fun choice isChoice' => ?_⟩
    have before : (reading.put sym (stored symbols values sym)).defs choice = reading.defs choice :=
      Function.update_of_ne (choiceNe choice isChoice') _ _
    rw [before]
    exact (isGiven.chosen choice isChoice').cons (by rw [isChoice]; nofun)
  | some own =>
    have ownChoice := choices sym own isChoice
    obtain ⟨noMod, noYes, chosen⟩ :=
      chosen_give exclusive new isChoice (isGiven.chosen own ownChoice)
    rw [give_of_choice isChoice (choiceNe own ownChoice) noMod noYes]
    refine ⟨isGiven.warnings, isGiven.changes, fun other notChoice' => ?_,
      fun choice isChoice' => ?_⟩
    · have differs : other ≠ own := by
        rintro rfl
        rw [notChoice'] at ownChoice
        cases ownChoice
      exact (Function.update_of_ne differs _ _).trans (ofSym other notChoice')
    · by_cases same : choice = own
      · rw [same]
        have now : ∀ value, ((reading.put sym (stored symbols values sym)).put own value).defs own =
            value := fun value => Function.update_self _ _ _
        rw [now]
        exact chosen
      · have before : ∀ value,
            ((reading.put sym (stored symbols values sym)).put own value).defs choice =
              reading.defs choice := fun value =>
          (Function.update_of_ne same _ _).trans
            (Function.update_of_ne (choiceNe choice isChoice') _ _)
        rw [before]
        refine (isGiven.chosen choice isChoice').cons fun isOwn => same ?_
        exact Option.some.inj (isOwn.symm.trans isChoice)

/-- All symbols, one after the other. -/
theorem given_foldl (choices : ∀ sym choice, symbols.choiceOf sym = some choice →
      symbols.isChoice choice = true) (rest : List ν)
    (exclusive : Exclusive symbols values (rest.reverse ++ given))
    (nodup : (rest.reverse ++ given).Nodup)
    (notChoice : ∀ sym ∈ rest, symbols.isChoice sym = false)
    (isGiven : Given symbols values given reading) :
    Given symbols values (rest.reverse ++ given) (rest.foldl (give symbols values) reading) := by
  induction rest generalizing given reading with
  | nil => exact isGiven
  | cons sym rest inductionHypothesis =>
    have next : (sym :: rest).reverse ++ given = rest.reverse ++ sym :: given := by simp
    rw [next] at exclusive nodup ⊢
    have below := (List.nodup_append.mp nodup).2.1
    refine inductionHypothesis exclusive nodup
      (fun other member => notChoice other (List.mem_cons_of_mem _ member)) ?_
    refine given_give choices (fun first member second member' => ?_) (List.nodup_cons.mp below).1
      (notChoice sym List.mem_cons_self) isGiven
    exact exclusive first (List.mem_append_right _ member) second (List.mem_append_right _ member')

/-! ### A file is read back -/

/-- A symbol of the menus with a line in the file. -/
def Written (symbols : Symbols ν) (writes : ν → Bool) (menu : Menu ν) (sym : ν) : Prop :=
  .symbol sym ∈ menu.entries ∧ writes sym = true ∧ symbols.isChoice sym = false ∧
    (symbols.type sym).isPrinted = true

/-- A configuration that can be read back: its symbols can, no choice has two values, and no comment
reads as a symbol that is not set. -/
structure Writable (symbols : Symbols ν) (config : Text) (values : Values symbols.toTable)
    (writes : ν → Bool) (prompt : Text) (menu : Menu ν) : Prop where
  choices : ∀ sym choice, symbols.choiceOf sym = some choice → symbols.isChoice choice = true
  readable : ∀ sym, Written symbols writes menu sym → Readable symbols config values sym
  exclusive : ∀ first second choice, Written symbols writes menu first →
    Written symbols writes menu second → symbols.choiceOf first = some choice →
    symbols.choiceOf second = some choice → values.tri first = .yes → second ≠ first →
    values.tri second = .no
  titles : ∀ title, .title title true ∈ menu.entries → Remark config ("# ".toList ++ title)
  comments : ∀ line ∈ (heading prompt).splitOn '\n', Remark config (commentLine line)

theorem mem_written_title {title : Text} {visible : Bool} (entries : List (Entry ν))
    (writes : ν → Bool) (member : .title title visible ∈ written symbols entries writes) :
    visible = true ∧ .title title visible ∈ entries := by
  induction entries generalizing writes with
  | nil => cases member
  | cons entry entries inductionHypothesis =>
    have later : ∀ writes, Entry.title title visible ∈ written symbols entries writes →
        visible = true ∧ .title title visible ∈ entry :: entries := fun writes below =>
      ⟨(inductionHypothesis writes below).1,
        List.mem_cons_of_mem _ (inductionHypothesis writes below).2⟩
    cases entry with
    | title first shown =>
      rw [written] at member
      split at member
      · rename_i isShown
        rcases List.mem_cons.mp member with same | below
        · cases same
          exact ⟨isShown, List.mem_cons_self⟩
        · exact later _ below
      · exact later _ member
    | symbol sym =>
      rw [written] at member
      split at member
      · exact later _ member
      · rcases List.mem_cons.mp member with same | below
        · cases same
        · exact later _ below

/-- The lines of the file. -/
def fileLines (symbols : Symbols ν) (config : Text) (values : Values symbols.toTable)
    (writes : ν → Bool) (prompt : Text) (menu : Menu ν) : List Text :=
  ((heading prompt).splitOn '\n').map commentLine ++
    (written symbols menu.entries writes).flatMap (entryLines symbols config values)

theorem confWrite_eq (symbols : Symbols ν) (config : Text) (values : Values symbols.toTable)
    (writes : ν → Bool) (prompt : Text) (menu : Menu ν) :
    confWrite symbols config values writes prompt menu =
      (fileLines symbols config values writes prompt menu).flatMap endLine := by
  have walked : walkMenus menu.count menu [] = menu.entries := by
    rw [walkMenus_eq menu.count menu [] (by simp [entriesBehind, length_entries]) fun _ => rfl]
    exact List.append_nil _
  rw [confWrite, walked, writeEntries_eq, fileLines, List.flatMap_append, List.flatMap_map]
  rfl

theorem head_commentLine (line : Text) : (commentLine line).head? = some '#' := by
  rw [commentLine]
  split <;> rfl

omit [DecidableEq ν] in
/-- No line has an end of a line in it. -/
theorem oneLine_entryLines {entry : Entry ν}
    (titles : ∀ title visible, entry = .title title visible → Remark config ("# ".toList ++ title))
    (readable : ∀ sym, printedSymbol symbols entry = some sym →
      Readable symbols config values sym) :
    ∀ line ∈ entryLines symbols config values entry, '\n' ∉ line := by
  intro line member
  cases entry with
  | title title visible =>
    have oneLine := (titles title visible rfl).1
    simp only [entryLines, List.mem_cons, List.not_mem_nil, or_false] at member
    rcases member with rfl | rfl | rfl | rfl
    · decide
    · decide
    · exact oneLine
    · decide
  | symbol sym =>
    rw [entryLines] at member
    split at member
    · rename_i printed
      rw [List.mem_singleton.mp member]
      exact oneLine_printSymbol (readable sym (if_pos printed)) printed
    · cases member

section File

variable {writes : ν → Bool} {prompt : Text} {menu : Menu ν}

theorem Writable.readable_written (writable : Writable symbols config values writes prompt menu)
    (member : sym ∈ writtenSymbols symbols menu.entries writes) :
    Readable symbols config values sym ∧ symbols.isChoice sym = false := by
  have isWritten := (mem_writtenSymbols menu.entries writes).mp member
  exact ⟨writable.readable sym isWritten, isWritten.2.2.1⟩

theorem Writable.remark_title (writable : Writable symbols config values writes prompt menu)
    {title : Text} {visible : Bool}
    (member : .title title visible ∈ written symbols menu.entries writes) :
    Remark config ("# ".toList ++ title) := by
  obtain ⟨rfl, entry⟩ := mem_written_title menu.entries writes member
  exact writable.titles title entry

theorem Writable.oneLine (writable : Writable symbols config values writes prompt menu) :
    ∀ line ∈ fileLines symbols config values writes prompt menu, '\n' ∉ line := by
  intro line member
  rcases List.mem_append.mp member with ofHeading | ofEntry
  · obtain ⟨comment, isComment, rfl⟩ := List.mem_map.mp ofHeading
    exact (writable.comments comment isComment).1
  · obtain ⟨entry, isEntry, isLine⟩ := List.mem_flatMap.mp ofEntry
    refine oneLine_entryLines (fun title visible same => ?_) (fun sym printed => ?_) line isLine
    · exact writable.remark_title (same ▸ isEntry)
    · exact (writable.readable_written (List.mem_filterMap.mpr ⟨entry, isEntry, printed⟩)).1

/-- Comments that say nothing of a symbol are nothing. -/
theorem foldl_comments {lines : List Text}
    (remarks : ∀ line ∈ lines, Remark config (commentLine line)) (reading : Reading ν) :
    (lines.map (endLine ∘ commentLine)).foldl (readLine symbols config) reading = reading := by
  induction lines with
  | nil => rfl
  | cons line rest inductionHypothesis =>
    rw [List.map_cons, List.foldl_cons, Function.comp_apply,
      readLine_remark (remarks line List.mem_cons_self) (head_commentLine line)]
    exact inductionHypothesis fun other member => remarks other (List.mem_cons_of_mem _ member)

omit [DecidableEq ν] in
theorem resetDefs_of_not_choice (notChoice : symbols.isChoice sym = false) :
    (resetDefs symbols).defs sym = unset := by
  simp only [resetDefs, unset, notChoice]

theorem given_resetDefs (values : Values symbols.toTable) :
    Given symbols values [] (resetDefs symbols) :=
  ⟨rfl, rfl, fun _ notChoice => resetDefs_of_not_choice notChoice,
    fun _ _ => Or.inr ⟨nofun, rfl, nofun, nofun⟩⟩

/-- What is read back, along the list of the symbols that were written. -/
theorem Writable.given_written (writable : Writable symbols config values writes prompt menu) :
    Given symbols values (writtenSymbols symbols menu.entries writes).reverse
      (confReadSimple symbols config (confWrite symbols config values writes prompt menu)) := by
  have nodup : (writtenSymbols symbols menu.entries writes).Nodup :=
    nodup_writtenSymbols menu.entries writes
  have notChoice : ∀ sym ∈ writtenSymbols symbols menu.entries writes,
      symbols.isChoice sym = false := fun sym member => (writable.readable_written member).2
  have isWritten : ∀ sym ∈ (writtenSymbols symbols menu.entries writes).reverse ++ [],
      Written symbols writes menu sym := by
    intro sym member
    rw [List.append_nil, List.mem_reverse] at member
    exact (mem_writtenSymbols menu.entries writes).mp member
  have run := given_foldl writable.choices (writtenSymbols symbols menu.entries writes)
    (fun first member second member' choice => writable.exclusive first second choice
      (isWritten first member) (isWritten second member'))
    (by rw [List.append_nil]; exact List.nodup_reverse.mpr nodup) notChoice (given_resetDefs values)
  rw [List.append_nil] at run
  rw [confReadSimple, confWrite_eq, getLines_flatMap writable.oneLine, fileLines, List.map_append,
    List.map_map, List.foldl_append, foldl_comments writable.comments,
    foldl_entryLines writable.choices _ (fun _ _ => writable.remark_title)
      (fun _ => writable.readable_written) nodup _ fun sym member =>
        resetDefs_of_not_choice (notChoice sym member)]
  exact run

/-- A file that was written is read back: without a warning, every symbol with a line gets its
value, and no other one gets a value. A choice gets the symbol that is `y`. -/
theorem confRead_confWrite (writable : Writable symbols config values writes prompt menu) :
    let reading := confReadSimple symbols config
      (confWrite symbols config values writes prompt menu)
    reading.warnings = 0 ∧ reading.changes = 0 ∧
      (∀ sym, Written symbols writes menu sym → reading.defs sym = stored symbols values sym) ∧
      (∀ sym, ¬Written symbols writes menu sym → symbols.isChoice sym = false →
        reading.defs sym = unset) ∧
      ∀ sym choice, Written symbols writes menu sym → symbols.choiceOf sym = some choice →
        values.tri sym = .yes →
          (reading.defs choice).tri = .yes ∧ (reading.defs choice).val = some (.inr sym) := by
  have given := writable.given_written
  have isGiven : ∀ sym, sym ∈ (writtenSymbols symbols menu.entries writes).reverse ↔
      Written symbols writes menu sym := fun sym => by
    rw [List.mem_reverse]
    exact mem_writtenSymbols menu.entries writes
  refine ⟨given.warnings, given.changes, fun sym isWritten => ?_,
    fun sym notWritten notChoice => ?_, fun sym choice isWritten ofChoice isYes => ?_⟩
  · rw [given.value sym isWritten.2.2.1, if_pos ((isGiven sym).mpr isWritten)]
  · rw [given.value sym notChoice, if_neg fun member => notWritten ((isGiven sym).mp member)]
  · rcases given.chosen choice (writable.choices sym choice ofChoice) with
      ⟨chosen, member, ofChoice', isYes', triYes, isVal⟩ | ⟨noYes, -⟩
    · have same : sym = chosen := by
        by_contra differs
        have isNo := writable.exclusive chosen sym choice ((isGiven chosen).mp member) isWritten
          ofChoice' ofChoice isYes' differs
        rw [isYes] at isNo
        cases isNo
      rw [same]
      exact ⟨triYes, isVal⟩
    · exact absurd isYes (noYes sym ((isGiven sym).mpr isWritten) ofChoice)

end File

/-! ### A configuration -/

/-- The symbols of a small configuration: a choice of an architecture, and a name. -/
inductive Sample where
  | arch
  | arm
  | mips
  | name
  deriving DecidableEq

def sampleName : Sample → Text
  | .arch => []
  | .arm => "BR2_arm".toList
  | .mips => "BR2_mips".toList
  | .name => "BR2_NAME".toList

def sample : Symbols Sample where
  type sym := if sym = .name then .string else .boolean
  isConst _ := false
  const_type _ impossible := absurd impossible Bool.false_ne_true
  name := sampleName
  isChoice sym := decide (sym = .arch)
  choiceOf sym := if sym = .arm ∨ sym = .mips then some .arch else none
  find text := [Sample.arm, .mips, .name].find? fun sym => sampleName sym = text

def sampleTri : Sample → Tristate
  | .arch => .yes
  | .arm => .yes
  | _ => .no

theorem sampleTri_ne (sym : Sample) : sampleTri sym ≠ .mod := by
  cases sym <;> decide

theorem sampleTri_name (sym : Sample) (noBoolean : sample.type sym ≠ .boolean) :
    sampleTri sym = .no := by
  cases sym <;> first | rfl | exact absurd rfl noBoolean

def sampleValues : Values sample.toTable where
  tri := sampleTri
  val _ := "a\"b\\c".toList
  modules := false
  boolean_ne id _ := sampleTri_ne id
  ne_of_modules _ id := sampleTri_ne id
  untyped id noBoolean _ := sampleTri_name id noBoolean
  const_inj _ _ impossible := absurd impossible Bool.false_ne_true
  const_ne _ impossible := absurd impossible Bool.false_ne_true

def sampleMenu : Menu Sample :=
  .menu (.title "Target options".toList true)
    (.menu (.symbol .arch) (.menu (.symbol .arm) .null (.menu (.symbol .mips) .null .null)) .null)
    (.menu (.symbol .name) .null .null)

theorem readable_sample (sym : Sample) (noChoice : sym ≠ .arch) :
    Readable sample [] sampleValues sym := by
  have oneLine : '\n' ∉ "a\"b\\c".toList := by decide
  refine ⟨?_, ?_, fun _ => oneLine, fun isNumber => ?_⟩
  · cases sym <;> first | exact absurd rfl noChoice | decide
  · cases sym <;> first | exact absurd rfl noChoice | decide
  · cases sym <;> rcases isNumber with type | type <;> cases type

theorem writable_sample :
    Writable sample [] sampleValues (fun _ => true) "Buildroot".toList sampleMenu := by
  have noArch : ∀ sym, Written sample (fun _ => true) sampleMenu sym → sym ≠ .arch :=
    fun sym isWritten same => absurd isWritten.2.2.1 (by rw [same]; decide)
  refine ⟨?_, fun sym isWritten => readable_sample sym (noArch sym isWritten), ?_, ?_, by decide⟩
  · intro sym choice isChoice
    cases sym <;> cases isChoice <;> rfl
  · intro first second choice isWritten isWritten' _ _ isYes differs
    have notArch := noArch first isWritten
    have notArch' := noArch second isWritten'
    cases first <;> cases isYes <;> first | exact absurd rfl notArch | skip
    cases second <;> first | rfl | exact absurd rfl notArch' | exact absurd rfl differs
  · intro title member
    simp only [sampleMenu, Menu.entries, List.mem_cons, List.mem_append, List.not_mem_nil,
      Entry.title.injEq, reduceCtorEq, or_false, and_true, List.cons_append] at member
    rw [member]
    decide

/-- The file of the configuration gives `BR2_NAME` its quotes and backslashes back, and the choice
its architecture. -/
theorem confRead_confWrite_sample :
    let reading := confReadSimple sample []
      (confWrite sample [] sampleValues (fun _ => true) "Buildroot".toList sampleMenu)
    reading.warnings = 0 ∧ reading.changes = 0 ∧
      (∀ sym, Written sample (fun _ => true) sampleMenu sym →
        reading.defs sym = stored sample sampleValues sym) ∧
      (∀ sym, ¬Written sample (fun _ => true) sampleMenu sym → sample.isChoice sym = false →
        reading.defs sym = unset) ∧
      ∀ sym choice, Written sample (fun _ => true) sampleMenu sym →
        sample.choiceOf sym = some choice → sampleValues.tri sym = .yes →
          (reading.defs choice).tri = .yes ∧ (reading.defs choice).val = some (.inr sym) :=
  confRead_confWrite writable_sample

end Buildroot4G.Kconf
