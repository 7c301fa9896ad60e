/-
This file models how `gen-manual-lists.py` tells the packages from the other symbols of the
configuration. One function maps the name of a package to its symbols; the test goes the other way
and makes a regular expression of the symbol, in which an underscore stands for any character, case
does not count and `host` may come first. The main result says when the two agree on a symbol.

Texts are byte strings, whose case is that of the ASCII letters.
-/

import Buildroot4G.Shell.Placeholder
import Mathlib.Data.List.Forall2

namespace Buildroot4G.Manual

open Shell

/-- An item of the configuration, with what the lists read of it. The name of a symbol is one
token of `kconfiglib`. -/
structure Item where
  isSymbol : Bool
  name : Text
  prompts : List Text
  selectedSymbols : List Text
  token : ∀ c ∈ name, c.isAlphanum || c = '_' || c = '.' || c = '/' || c = '-'
  deriving DecidableEq

/-- What the script works on: the names of the files below the package directory, the symbols of
the configuration in the order of their definitions, and `re.compile` with `re.IGNORECASE`, which
fails for a text that is no expression. -/
structure Buildroot where
  files : List Text
  config : List Item
  compile : Text → Option (Text → Bool)

/-- The types of packages. -/
inductive Kind where
  | real
  | virtual
  deriving DecidableEq

def packagePrefix : Text := "BR2_PACKAGE_".toList

def packagePrefixes : List Text := [packagePrefix, "BR2_PACKAGE_HOST_".toList]

/-- `re.sub("[-+.]", "_", …)` and `upper()` for a character. -/
def symbolChar (c : Char) : Char :=
  if c = '-' || c = '+' || c = '.' then '_' else c.toUpper

/-- `_get_package_symbols`. -/
def getPackageSymbols (packageName : Text) : List Text :=
  packagePrefixes.map fun before => before ++ packageName.map symbolChar

def withoutHost (name : Text) : Text :=
  if "HOST_".toList <+: name then name.drop 5 else name

/-- `_get_pkg_name`; the rest of a name is on its line. -/
def getPkgName : Text → Text
  | [] => []
  | c :: rest =>
    if packagePrefix <+: c :: rest then withoutHost ((c :: rest).drop packagePrefix.length)
    else c :: getPkgName rest

/-- The names of the packages: those of the `.mk` files, without `.mk`. -/
def packageList (files : List Text) : List Text :=
  (files.filter fun file => ".mk".toList <:+ file).map (replaceAll ".mk".toList [])

/-- `re.sub("_", ".", …)`. -/
def dotted (pattern : Text) : Text := pattern.map fun c => if c = '_' then '.' else c

/-- `_exists_virt_symbol`. The expression has the characters of the name as they are. -/
def existsVirtSymbol (buildroot : Buildroot) (pkgName : Text) : Option Bool :=
  (buildroot.compile (dotted ("BR2_PACKAGE_HAS_".toList ++ pkgName ++ ['$']))).map fun isMatch =>
    buildroot.config.any fun sym => isMatch sym.name

/-- A character of the dotted name of a symbol matches one of a text. -/
def matchesChar (c d : Char) : Bool :=
  if c = '_' || c = '.' then d ≠ '\n' else c.toUpper = d.toUpper

/-- The dotted name of a symbol and `$` match a text, which may end with a newline. -/
def matchesName : Text → Text → Bool
  | [], rest => rest = [] || rest = ['\n']
  | _ :: _, [] => false
  | c :: name, d :: text => matchesChar c d && matchesName name text

/-- The expression of a symbol, `"^(HOST_)?" + pkg_name + "$"` with dots, matches a text. -/
def matchesPkg (pkgName text : Text) : Bool :=
  matchesName ("HOST_".toList ++ pkgName) text || matchesName pkgName text

/-- The loop over the packages. -/
def anyPackage (buildroot : Buildroot) (kind : Kind) (pkgName : Text) : List Text → Option Bool
  | [] => some false
  | pkg :: rest =>
    match kind with
    | .real =>
      if matchesPkg pkgName pkg then
        match existsVirtSymbol buildroot pkg with
        | none => none
        | some false => some true
        | some true => anyPackage buildroot kind pkgName rest
      else anyPackage buildroot kind pkgName rest
    | .virtual =>
      if matchesPkg pkgName ("has_".toList ++ pkg) then some true
      else anyPackage buildroot kind pkgName rest

/-- `_is_package`; without a value where an expression is not valid. -/
def isPackage (buildroot : Buildroot) (symbol : Item) (kind : Kind) : Option Bool :=
  if !symbol.isSymbol then some false
  else if kind = .real ∧ symbol.prompts = [] then some false
  else if kind = .virtual ∧ symbol.prompts ≠ [] then some false
  else if ¬∃ before ∈ packagePrefixes, before <+: symbol.name then some false
  else anyPackage buildroot kind (getPkgName symbol.name) (packageList buildroot.files)

def isRealPackage (buildroot : Buildroot) (symbol : Item) : Option Bool :=
  isPackage buildroot symbol .real

def isVirtualPackage (buildroot : Buildroot) (symbol : Item) : Option Bool :=
  isPackage buildroot symbol .virtual

/-! ### What the two directions say -/

/-- One of the packages has the symbol. -/
def Mapped (buildroot : Buildroot) (symbol : Item) : Prop :=
  ∃ pkg ∈ packageList buildroot.files, symbol.name ∈ getPackageSymbols pkg

/-- The test finds the symbols of the packages, and no others. -/
def Agrees (buildroot : Buildroot) (symbol : Item) : Prop :=
  isRealPackage buildroot symbol = some true ↔ Mapped buildroot symbol

/-- A character of a symbol stands for one of a package: an underscore or a dot for any but a
newline, and any other for itself in either case. -/
def StandsFor (c d : Char) : Prop :=
  (c = '_' ∨ c = '.') ∧ d ≠ '\n' ∨ (c ≠ '_' ∧ c ≠ '.') ∧ c.toUpper = d.toUpper

/-- A text reads as the name in a symbol, but perhaps for a newline at the end. -/
def ReadsAs (name text : Text) : Prop :=
  ∃ body, (text = body ∨ text = body ++ ['\n']) ∧ List.Forall₂ StandsFor name body

/-- A package resembles the name in a symbol: it reads as the name, or as the name behind `HOST`
and any character. -/
def Resembles (name pkg : Text) : Prop :=
  ReadsAs ("HOST_".toList ++ name) pkg ∨ ReadsAs name pkg

/-- A package makes a valid expression. -/
def Valid (buildroot : Buildroot) (pkg : Text) : Prop := existsVirtSymbol buildroot pkg ≠ none

/-! ### The expression of a symbol -/

theorem matchesChar_iff (c d : Char) : matchesChar c d = true ↔ StandsFor c d := by
  rw [matchesChar, StandsFor]
  split_ifs with wildcard
  · rw [Bool.or_eq_true, decide_eq_true_iff, decide_eq_true_iff] at wildcard
    rw [decide_eq_true_iff]
    tauto
  · rw [Bool.or_eq_true, decide_eq_true_iff, decide_eq_true_iff] at wildcard
    rw [decide_eq_true_iff]
    tauto

theorem matchesName_iff (name text : Text) : matchesName name text = true ↔ ReadsAs name text := by
  induction name generalizing text with
  | nil =>
    rw [matchesName, Bool.or_eq_true, decide_eq_true_iff, decide_eq_true_iff]
    constructor
    · intro ends
      exact ⟨[], ends, List.Forall₂.nil⟩
    · rintro ⟨body, ends, stand⟩
      rw [List.forall₂_nil_left_iff.mp stand] at ends
      exact ends
  | cons c name inductionHypothesis =>
    cases text with
    | nil =>
      refine iff_of_false Bool.false_ne_true ?_
      rintro ⟨body, ends, stand⟩
      cases stand
      rcases ends with ends | ends <;> cases ends
    | cons d text =>
      rw [matchesName, Bool.and_eq_true, matchesChar_iff, inductionHypothesis]
      constructor
      · rintro ⟨first, body, ends, stand⟩
        refine ⟨d :: body, ?_, List.Forall₂.cons first stand⟩
        rcases ends with rfl | rfl
        · exact Or.inl rfl
        · exact Or.inr rfl
      · rintro ⟨body, ends, stand⟩
        cases stand with
        | cons first stand =>
          rcases ends with ends | ends
          · obtain ⟨rfl, rfl⟩ := List.cons.inj ends
            exact ⟨first, _, Or.inl rfl, stand⟩
          · obtain ⟨rfl, rfl⟩ := List.cons.inj ends
            exact ⟨first, _, Or.inr rfl, stand⟩

theorem matchesPkg_iff (name pkg : Text) : matchesPkg name pkg = true ↔ Resembles name pkg := by
  rw [matchesPkg, Bool.or_eq_true, matchesName_iff, matchesName_iff, Resembles]

instance (name pkg : Text) : Decidable (Resembles name pkg) :=
  decidable_of_iff _ (matchesPkg_iff name pkg)

/-! ### The symbols of a package -/

theorem toUpper_toUpper (c : Char) : c.toUpper.toUpper = c.toUpper := by
  by_cases lower : 'a'.val ≤ c.val ∧ c.val ≤ 'z'.val
  · have isUpper : c.toUpper = _ := dif_pos lower
    have upper : c.toUpper.val = c.val + ('A'.val - 'a'.val) := by rw [isUpper]
    have notLower : ¬('a'.val ≤ c.toUpper.val ∧ c.toUpper.val ≤ 'z'.val) := by
      rw [upper]
      grind
    exact dif_neg notLower
  · have same : c.toUpper = c := dif_neg lower
    rw [same]
    exact same

/-- A character of a package is one that its symbol's stands for. -/
theorem standsFor_symbolChar (d : Char) : StandsFor (symbolChar d) d := by
  rw [symbolChar]
  split_ifs with replaced
  · refine Or.inl ⟨Or.inl rfl, ?_⟩
    rintro rfl
    exact absurd replaced (by decide)
  · by_cases wildcard : d.toUpper = '_' ∨ d.toUpper = '.'
    · refine Or.inl ⟨wildcard, ?_⟩
      rintro rfl
      exact absurd wildcard (by decide)
    · exact Or.inr ⟨not_or.mp wildcard, toUpper_toUpper d⟩

theorem readsAs_map_symbolChar (pkg : Text) : ReadsAs (pkg.map symbolChar) pkg := by
  refine ⟨pkg, Or.inl rfl, ?_⟩
  rw [List.forall₂_map_left_iff]
  exact List.forall₂_same.mpr fun d _ => standsFor_symbolChar d

theorem getPkgName_append (rest : Text) :
    getPkgName (packagePrefix ++ rest) = withoutHost rest := by
  have isPrefix : packagePrefix <+: 'B' :: ("R2_PACKAGE_".toList ++ rest) :=
    List.prefix_append packagePrefix rest
  rw [show packagePrefix ++ rest = 'B' :: ("R2_PACKAGE_".toList ++ rest) from rfl, getPkgName,
    if_pos isPrefix]
  rfl

/-- The expression of a symbol of a package matches the package. -/
theorem resembles_of_mem {name pkg : Text} (member : name ∈ getPackageSymbols pkg) :
    Resembles (getPkgName name) pkg := by
  have reads := readsAs_map_symbolChar pkg
  rw [getPackageSymbols, packagePrefixes, List.map_cons, List.map_cons, List.map_nil] at member
  rcases List.mem_cons.mp member with rfl | member
  · rw [getPkgName_append, withoutHost]
    split_ifs with host
    · obtain ⟨rest, whole⟩ := host
      rw [← whole] at reads ⊢
      exact Or.inl reads
    · exact Or.inr reads
  · rw [List.mem_singleton.mp member, show "BR2_PACKAGE_HOST_".toList = packagePrefix ++
      "HOST_".toList from rfl, List.append_assoc, getPkgName_append, withoutHost,
      if_pos (List.prefix_append _ _)]
    exact Or.inr reads

/-! ### The loop over the packages -/

/-- The loop ends at the first package that resembles the name. -/
theorem anyPackage_eq_true_iff {buildroot : Buildroot} {pkgs : List Text}
    (noVirtual : ∀ pkg ∈ pkgs, existsVirtSymbol buildroot pkg ≠ some true) (name : Text) :
    anyPackage buildroot .real name pkgs = some true ↔
      ∃ pkg, pkgs.find? (fun pkg => Resembles name pkg) = some pkg ∧ Valid buildroot pkg := by
  induction pkgs with
  | nil =>
    refine iff_of_false (by rw [anyPackage]; decide) ?_
    rintro ⟨pkg, impossible, -⟩
    cases impossible
  | cons pkg rest inductionHypothesis =>
    rw [anyPackage]
    by_cases fits : Resembles name pkg
    · rw [if_pos ((matchesPkg_iff name pkg).mpr fits),
        List.find?_cons_of_pos (by rw [decide_eq_true_iff]; exact fits)]
      cases found : existsVirtSymbol buildroot pkg with
      | none =>
        refine iff_of_false (fun impossible => nomatch impossible) ?_
        rintro ⟨other, same, valid⟩
        rw [← Option.some.inj same, Valid, found] at valid
        exact valid rfl
      | some isVirtual =>
        cases isVirtual with
        | true => exact absurd found (noVirtual pkg List.mem_cons_self)
        | false => exact iff_of_true rfl ⟨pkg, rfl, by rw [Valid, found]; exact fun h => nomatch h⟩
    · rw [if_neg fun isMatch => fits ((matchesPkg_iff name pkg).mp isMatch),
        List.find?_cons_of_neg (by rw [decide_eq_true_iff]; exact fits),
        inductionHypothesis fun other member => noVirtual other (List.mem_cons_of_mem _ member)]

/-- The test and the map agree on a symbol exactly when the first package that resembles it, if
there is one, makes a valid expression just when some package has the symbol. -/
theorem isRealPackage_agrees_iff (buildroot : Buildroot) (symbol : Item)
    (isSymbol : symbol.isSymbol = true) (prompt : symbol.prompts ≠ [])
    (hasPrefix : ∃ before ∈ packagePrefixes, before <+: symbol.name)
    (noVirtual : ∀ pkg ∈ packageList buildroot.files,
      existsVirtSymbol buildroot pkg ≠ some true) :
    Agrees buildroot symbol ↔
      ∀ pkg, (packageList buildroot.files).find?
          (fun pkg => Resembles (getPkgName symbol.name) pkg) = some pkg →
        (Valid buildroot pkg ↔ Mapped buildroot symbol) := by
  have tested : isRealPackage buildroot symbol =
      anyPackage buildroot .real (getPkgName symbol.name) (packageList buildroot.files) := by
    rw [isRealPackage, isPackage, isSymbol, if_neg (by decide), if_neg (by tauto),
      if_neg (by tauto), if_neg (not_not.mpr hasPrefix)]
  rw [Agrees, tested, anyPackage_eq_true_iff noVirtual]
  cases first : (packageList buildroot.files).find?
      (fun pkg => Resembles (getPkgName symbol.name) pkg) with
  | none =>
    refine iff_of_true (iff_of_false ?_ ?_) ?_
    · rintro ⟨pkg, impossible, -⟩
      cases impossible
    · rintro ⟨pkg, member, isSymbolOf⟩
      have none := List.find?_eq_none.mp first pkg member
      rw [decide_eq_true_iff] at none
      exact none (resembles_of_mem isSymbolOf)
    · intro pkg impossible
      cases impossible
  | some pkg =>
    constructor
    · intro agree other same
      rw [← Option.some.inj same, ← agree]
      exact ⟨fun valid => ⟨pkg, rfl, valid⟩, fun ⟨found, isFound, valid⟩ =>
        Option.some.inj isFound ▸ valid⟩
    · intro condition
      rw [← condition pkg rfl]
      exact ⟨fun ⟨found, isFound, valid⟩ => Option.some.inj isFound ▸ valid,
        fun valid => ⟨pkg, rfl, valid⟩⟩

instance (buildroot : Buildroot) (symbol : Item) : Decidable (Mapped buildroot symbol) :=
  inferInstanceAs (Decidable (∃ pkg ∈ packageList buildroot.files, _))

def fooBarSymbol : Item :=
  ⟨true, "BR2_PACKAGE_FOO_BAR".toList, ["foo bar".toList], [], by decide⟩

/-- A configuration of one symbol. The expressions of its package have letters, dots and a `$`. -/
def fooBarBuildroot (file : String) : Buildroot :=
  ⟨["Config.in".toList, file.toList], [fooBarSymbol],
    fun pattern => some (matchesName pattern.dropLast)⟩

theorem isRealPackage_agrees_iff_foo_bar :
    Agrees (fooBarBuildroot "foo-bar.mk") fooBarSymbol ↔
      ∀ pkg, (packageList (fooBarBuildroot "foo-bar.mk").files).find?
          (fun pkg => Resembles (getPkgName fooBarSymbol.name) pkg) = some pkg →
        (Valid (fooBarBuildroot "foo-bar.mk") pkg ↔
          Mapped (fooBarBuildroot "foo-bar.mk") fooBarSymbol) :=
  isRealPackage_agrees_iff (fooBarBuildroot "foo-bar.mk") fooBarSymbol rfl (by decide)
    (by decide) (by decide)

/-- The underscore of an option of `foo` stands for a letter of another package. -/
theorem not_agrees_fooxbar : ¬Agrees (fooBarBuildroot "fooxbar.mk") fooBarSymbol := by
  intro agree
  have tested : isRealPackage (fooBarBuildroot "fooxbar.mk") fooBarSymbol = some true := by decide
  exact absurd (agree.mp tested) (by decide)

end Buildroot4G.Manual
