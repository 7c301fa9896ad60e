/-
This file models `conf_write` of `support/kconfig/confdata.c`: the walk over the tree of menus, and
the text of a configuration that it writes. The menus are linked as in the code, by their first
entry and their next neighbour; the walk goes back by the menus above. It reaches every entry once
and in order, and what it writes is a list of lines.

The prefix of the symbols, `CONFIG_`, may be set in the environment, so it is a parameter.
-/

import Buildroot4G.Kconf.Expr

namespace Buildroot4G.Kconf

open Shell

/-! ### The tree of menus -/

/-- What a menu is for: a symbol, or a title that may be visible. -/
inductive Entry (ν : Type) where
  | symbol (sym : ν)
  | title (prompt : Text) (visible : Bool)

/-- `struct menu`, linked by `list` and `next`. -/
inductive Menu (ν : Type) where
  | null
  | menu (entry : Entry ν) (list next : Menu ν)

variable {ν : Type}

/-- The entries, from the first one to the last one. -/
def Menu.entries : Menu ν → List (Entry ν)
  | .null => []
  | .menu entry list next => entry :: (list.entries ++ next.entries)

/-- The next neighbour of the closest menu above that has one. -/
def nextOfParents : List (Menu ν) → Menu ν × List (Menu ν)
  | [] => (.null, [])
  | .menu _ _ (.menu entry list next) :: parents => (.menu entry list next, parents)
  | _ :: parents => nextOfParents parents

/-- The menu behind one, with those above it: its first entry, or its next neighbour, or the one of
a menu above. -/
def nextMenu : Menu ν → List (Menu ν) → Menu ν × List (Menu ν)
  | .null, parents => (.null, parents)
  | .menu entry (.menu first list next) after, parents =>
    (.menu first list next, .menu entry (.menu first list next) after :: parents)
  | .menu _ .null (.menu first list next), parents => (.menu first list next, parents)
  | .menu _ .null .null, parents => nextOfParents parents

/-- The walk of `conf_write`; it is without fuel at the last entry. -/
def walkMenus : ℕ → Menu ν → List (Menu ν) → List (Entry ν)
  | _, .null, _ => []
  | 0, _, _ => []
  | fuel + 1, .menu entry list next, parents =>
    entry :: walkMenus fuel (nextMenu (.menu entry list next) parents).1
      (nextMenu (.menu entry list next) parents).2

/-- The entries behind the menus above. -/
def entriesBehind : List (Menu ν) → List (Entry ν)
  | [] => []
  | .menu _ _ next :: parents => next.entries ++ entriesBehind parents
  | .null :: parents => entriesBehind parents

/-- Where the way back ends, nothing is left. -/
theorem nextOfParents_spec (parents : List (Menu ν)) :
    (nextOfParents parents).1.entries ++ entriesBehind (nextOfParents parents).2 =
        entriesBehind parents ∧
      ((nextOfParents parents).1 = .null → entriesBehind (nextOfParents parents).2 = []) := by
  induction parents with
  | nil => exact ⟨rfl, fun _ => rfl⟩
  | cons parent parents inductionHypothesis =>
    cases parent with
    | null => exact inductionHypothesis
    | menu entry list next =>
      cases next with
      | null => exact inductionHypothesis
      | menu => exact ⟨rfl, nofun⟩

theorem nextMenu_spec (entry : Entry ν) (list next : Menu ν) (parents : List (Menu ν)) :
    (nextMenu (.menu entry list next) parents).1.entries ++
          entriesBehind (nextMenu (.menu entry list next) parents).2 =
        list.entries ++ next.entries ++ entriesBehind parents ∧
      ((nextMenu (.menu entry list next) parents).1 = .null →
        entriesBehind (nextMenu (.menu entry list next) parents).2 = []) := by
  cases list with
  | menu => exact ⟨(List.append_assoc _ _ _).symm, nofun⟩
  | null =>
    cases next with
    | menu => exact ⟨rfl, nofun⟩
    | null => exact nextOfParents_spec parents

/-- The walk reaches every entry once, in order. -/
theorem walkMenus_eq (fuel : ℕ) (menu : Menu ν) (parents : List (Menu ν))
    (enough : (menu.entries ++ entriesBehind parents).length ≤ fuel)
    (ends : menu = .null → entriesBehind parents = []) :
    walkMenus fuel menu parents = menu.entries ++ entriesBehind parents := by
  induction fuel generalizing menu parents with
  | zero =>
    cases menu with
    | null =>
      rw [ends rfl]
      rfl
    | menu entry list next =>
      simp only [Menu.entries, List.cons_append, List.length_cons] at enough
      omega
  | succ fuel inductionHypothesis =>
    cases menu with
    | null =>
      rw [ends rfl]
      rfl
    | menu entry list next =>
      obtain ⟨behind, ends'⟩ := nextMenu_spec entry list next parents
      simp only [Menu.entries, List.cons_append, List.length_cons] at enough ⊢
      rw [walkMenus, inductionHypothesis _ _ (by rw [behind]; omega) ends', behind]

/-- The number of the menus. -/
def Menu.count : Menu ν → ℕ
  | .null => 0
  | .menu _ list next => list.count + next.count + 1

theorem length_entries (menu : Menu ν) : menu.entries.length = menu.count := by
  induction menu with
  | null => rfl
  | menu entry list next ofList ofNext =>
    rw [Menu.entries, Menu.count, List.length_cons, List.length_append, ofList, ofNext]

/-! ### What is written -/

/-- What is known of the symbols beside their types: their names, which of them are choices, and the
choice that a symbol is a value of. `find` is `sym_find`. -/
structure Symbols (ν : Type) extends Table ν where
  name : ν → Text
  isChoice : ν → Bool
  choiceOf : ν → Option ν
  find : Text → Option ν

variable [DecidableEq ν]

def endLine (line : Text) : Text := line ++ ['\n']

/-- `sym_escape_string_value`. -/
def escape (value : Text) : Text :=
  ['"'] ++ (value.flatMap fun c => if c = '"' ∨ c = '\\' then ['\\', c] else [c]) ++ ['"']

/-- The line of `kconfig_print_symbol`, without an argument. -/
def printSymbol (config name : Text) (type : SymbolType) (value : Text) : Text :=
  if (type = .boolean ∨ type = .tristate) ∧ value.head? = some 'n' then
    "# ".toList ++ config ++ name ++ " is not set".toList
  else config ++ name ++ "=".toList ++ value

/-- A line of `kconfig_print_comment`. -/
def commentLine (line : Text) : Text := if line = [] then "#".toList else "# ".toList ++ line

/-- `kconfig_print_comment`. -/
def printComment (value : Text) : Text :=
  (value.splitOn '\n').flatMap fun line => endLine (commentLine line)

/-- `conf_write_symbol`. -/
def writeSymbol (symbols : Symbols ν) (config : Text) (values : Values symbols.toTable) (sym : ν) :
    Text :=
  match symbols.type sym with
  | .other => []
  | .unknown => []
  | .string => endLine (printSymbol config (symbols.name sym) .string
      (escape (Symbol.stringValue values (.entry sym))))
  | type => endLine (printSymbol config (symbols.name sym) type
      (Symbol.stringValue values (.entry sym)))

/-- One entry of the walk. A symbol is written when `SYMBOL_WRITE` is set, which ends it. -/
def writeEntry (symbols : Symbols ν) (config : Text) (values : Values symbols.toTable) :
    Entry ν → (ν → Bool) → Text × (ν → Bool)
  | .title prompt visible, writes =>
    (if visible then "\n#\n# ".toList ++ prompt ++ "\n#\n".toList else [], writes)
  | .symbol sym, writes =>
    if symbols.isChoice sym ∨ ¬writes sym then ([], writes)
    else (writeSymbol symbols config values sym, Function.update writes sym false)

def writeEntries (symbols : Symbols ν) (config : Text) (values : Values symbols.toTable) :
    List (Entry ν) → (ν → Bool) → Text
  | [], _ => []
  | entry :: rest, writes =>
    (writeEntry symbols config values entry writes).1 ++
      writeEntries symbols config values rest (writeEntry symbols config values entry writes).2

/-- The text of `conf_write_heading`, whose buffer has 256 bytes. -/
def heading (prompt : Text) : Text :=
  ("\nAutomatically generated file; DO NOT EDIT.\n".toList ++ prompt ++ ['\n']).take 255

/-- The file that `conf_write` leaves. -/
def confWrite (symbols : Symbols ν) (config : Text) (values : Values symbols.toTable)
    (writes : ν → Bool) (prompt : Text) (menu : Menu ν) : Text :=
  printComment (heading prompt) ++
    writeEntries symbols config values (walkMenus menu.count menu []) writes

end Buildroot4G.Kconf
