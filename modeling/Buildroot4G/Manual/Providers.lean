/-
This file models how `gen-manual-lists.py` lists the providers of a virtual package: it walks from
the symbol up the selects to the symbols with a prompt, and for each of these cuts the name down to
a package. The walk meets a symbol as often as there are ways to it, and the cut of a name that
does not begin with `BR2` never ends. The main result says that the list is right exactly when
neither happens, for every acyclic graph of selects.

A symbol is its entry in the order of the definitions, which has it once for each definition;
symbols are compared by their names, which `kconfiglib` keeps unique, and the selected symbols are
a set.
-/

import Buildroot4G.Digraph
import Buildroot4G.Fold
import Buildroot4G.Manual.PackageTest
import Mathlib.Data.List.TakeWhile

namespace Buildroot4G.Manual

open Shell

/-- Why there is no result: the fuel is used up, or an expression is not valid. -/
inductive Stop where
  | running
  | invalid
  deriving DecidableEq

/-- `_symbol_is_legacy`. -/
def symbolIsLegacy (symbol : Item) : Bool := "BR2_LEGACY".toList ∈ symbol.selectedSymbols

def getSymbol (buildroot : Buildroot) (name : Text) : Option Item :=
  buildroot.config.find? fun symbol => symbol.name = name

def testReal (buildroot : Buildroot) (symbol : Item) : Except Stop Bool :=
  match isRealPackage buildroot symbol with
  | some isReal => .ok isReal
  | none => .error .invalid

/-- `name.rsplit("_", 1)[0]`. -/
def rsplit (name : Text) : Text :=
  match name.reverse.dropWhile fun c => c ≠ '_' with
  | [] => name
  | _ :: before => before.reverse

def br2 : Text := "BR2".toList

/-- The loop of `_get_parent_package`. -/
def parentLoop (buildroot : Buildroot) : ℕ → Text → Except Stop (Option Item)
  | 0, name => if name = br2 then .ok none else .error .running
  | fuel + 1, name =>
    if name = br2 then .ok none
    else
      let name := rsplit name
      match getSymbol buildroot name with
      | none => parentLoop buildroot fuel name
      | some s => do
        if ← testReal buildroot s then .ok (some s) else parentLoop buildroot fuel name

/-- `_get_parent_package`. -/
def getParentPackage (buildroot : Buildroot) (fuel : ℕ) (sym : Item) :
    Except Stop (Option Item) := do
  if ← testReal buildroot sym then .ok none else parentLoop buildroot fuel sym.name

/-- `_get_symbol_label`, without the mark of deprecated symbols. -/
def getSymbolLabel (symbol : Item) : Text := symbol.prompts.headD []

/-- The text that is listed for a provider. -/
def providerLabel (buildroot : Buildroot) (fuel : ℕ) (sym : Item) : Except Stop Text := do
  match ← getParentPackage buildroot fuel sym with
  | none => .ok (getSymbolLabel sym)
  | some parentPkg =>
    .ok (getSymbolLabel parentPkg ++ " (w/ ".toList ++ getSymbolLabel sym ++ ")".toList)

section Loop

variable (label : Item → Except Stop Text) (recur : Item → Except Stop (List Text))

/-- The body of the loop of `_get_providers`. -/
def providersFrom (symbol sym : Item) : Except Stop (List Text) :=
  if !sym.isSymbol then .ok []
  else if symbolIsLegacy sym then .ok []
  else if symbol.name ∈ sym.selectedSymbols then
    if sym.prompts ≠ [] then do
      let l ← label sym
      .ok [l]
    else recur sym
  else .ok []

/-- The loop of `_get_providers`. -/
def collect (symbol : Item) : List Item → Except Stop (List Text)
  | [] => .ok []
  | sym :: rest => do
    let providers ← providersFrom label recur symbol sym
    let others ← collect symbol rest
    .ok (providers ++ others)

end Loop

/-- `_get_providers`. -/
def getProviders (buildroot : Buildroot) : ℕ → Item → Except Stop (List Text)
  | 0, _ => .error .running
  | fuel + 1, symbol =>
    collect (providerLabel buildroot fuel) (getProviders buildroot fuel) symbol buildroot.config

/-! ### What the list is for -/

/-- A symbol that is not legacy selects another one. -/
def Supports (symbol sym : Item) : Prop :=
  sym.isSymbol = true ∧ symbolIsLegacy sym = false ∧ symbol.name ∈ sym.selectedSymbols

instance (symbol sym : Item) : Decidable (Supports symbol sym) :=
  inferInstanceAs (Decidable (_ ∧ _ ∧ _))

/-- A symbol with a prompt reaches another one by selects, passing only through symbols without a
prompt. -/
inductive Provides (buildroot : Buildroot) : Item → Item → Prop
  | direct {symbol sym : Item} (inConfig : sym ∈ buildroot.config) (supports : Supports symbol sym)
      (prompt : sym.prompts ≠ []) : Provides buildroot symbol sym
  | through {symbol sym provider : Item} (inConfig : sym ∈ buildroot.config)
      (supports : Supports symbol sym) (noPrompt : sym.prompts = [])
      (later : Provides buildroot sym provider) : Provides buildroot symbol provider

/-- The building of the providers ends, and lists each of them once. -/
def ListsProviders (buildroot : Buildroot) (symbol : Item) : Prop :=
  ∃ fuel labels, getProviders buildroot fuel symbol = .ok labels ∧
    ∃ providers : List Item, providers.Nodup ∧
      (∀ provider, provider ∈ providers ↔ Provides buildroot symbol provider) ∧
      List.Forall₂ (fun provider label => ∃ fuel, providerLabel buildroot fuel provider = .ok label)
        providers labels

/-- A chain of selects from a provider down to a symbol, by the places of the definitions. -/
inductive Way (buildroot : Buildroot) : Item → List ℕ → Item → Prop
  | direct {symbol sym : Item} {place : ℕ} (isAt : buildroot.config[place]? = some sym)
      (supports : Supports symbol sym) (prompt : sym.prompts ≠ []) :
      Way buildroot symbol [place] sym
  | through {symbol sym provider : Item} {place : ℕ} {places : List ℕ}
      (isAt : buildroot.config[place]? = some sym) (supports : Supports symbol sym)
      (noPrompt : sym.prompts = []) (later : Way buildroot sym places provider) :
      Way buildroot symbol (place :: places) provider

/-- There are no two chains of definitions from the same provider. -/
def OneWay (buildroot : Buildroot) (symbol : Item) : Prop :=
  ∀ provider places places', Way buildroot symbol places provider →
    Way buildroot symbol places' provider → places = places'

/-- A name is cut down to `BR2` at last. -/
def BeginsWithBr2 (name : Text) : Prop := name = br2 ∨ br2 ++ ['_'] <+: name

/-- One symbol of the configuration selects another. -/
def Selects (buildroot : Buildroot) (first second : Item) : Prop :=
  first ∈ buildroot.config ∧ second.name ∈ first.selectedSymbols

variable {buildroot : Buildroot}

/-! ### Cutting a name -/

theorem rsplit_cases (name : Text) :
    '_' ∉ name ∧ rsplit name = name ∨
      ∃ before last, name = before ++ '_' :: last ∧ rsplit name = before := by
  by_cases inside : '_' ∈ name
  · obtain ⟨last, before, reversed, free⟩ :=
      List.eq_append_cons_of_mem (List.mem_reverse.mpr inside)
    have notUnderscore : ∀ c ∈ last, decide (c ≠ '_') = true := fun c member =>
      decide_eq_true fun isUnderscore => free (isUnderscore ▸ member)
    have whole := congrArg List.reverse reversed
    rw [List.reverse_reverse, List.reverse_append, List.reverse_cons, List.append_assoc,
      List.singleton_append] at whole
    refine Or.inr ⟨before.reverse, last.reverse, whole, ?_⟩
    rw [rsplit, reversed, List.dropWhile_append_of_pos notUnderscore,
      List.dropWhile_cons_of_neg (by decide)]
  · have free : ∀ c ∈ name.reverse, decide (c ≠ '_') = true := fun c member =>
      decide_eq_true fun isUnderscore => inside (isUnderscore ▸ List.mem_reverse.mp member)
    exact Or.inl ⟨inside, by rw [rsplit, List.dropWhile_eq_nil_iff.mpr free]⟩

/-- The cut keeps whether a name begins with `BR2`, until it is that. -/
theorem beginsWithBr2_rsplit {name : Text} (notYet : name ≠ br2) :
    BeginsWithBr2 (rsplit name) ↔ BeginsWithBr2 name := by
  rcases rsplit_cases name with ⟨-, same⟩ | ⟨before, last, rfl, isBefore⟩
  · rw [same]
  · have cut : before ++ ['_'] <+: before ++ '_' :: last :=
      ⟨last, by rw [List.append_assoc, List.singleton_append]⟩
    rw [isBefore, BeginsWithBr2, BeginsWithBr2, or_iff_right notYet]
    constructor
    · rintro (rfl | begins)
      · exact cut
      · exact begins.trans (List.prefix_append before _)
    · intro begins
      rcases List.prefix_or_prefix_of_prefix begins cut with shorter | longer
      · rcases List.prefix_concat_iff.mp shorter with same | inside
        · exact Or.inl (List.append_inj' same rfl).1.symm
        · exact Or.inr inside
      · rcases List.prefix_concat_iff.mp longer with same | inside
        · exact Or.inl (List.append_inj' same rfl).1
        · exact absurd (inside.subset (List.mem_append_right before List.mem_cons_self)) (by decide)

theorem length_rsplit_lt {name : Text} (begins : br2 ++ ['_'] <+: name) :
    (rsplit name).length < name.length := by
  rcases rsplit_cases name with ⟨noUnderscore, -⟩ | ⟨before, last, rfl, isBefore⟩
  · exact absurd (begins.subset (List.mem_append_right br2 List.mem_cons_self)) noUnderscore
  · rw [isBefore, List.length_append, List.length_cons]
    omega

theorem beginsWithBr2_of_isRealPackage {symbol : Item}
    (isReal : isRealPackage buildroot symbol = some true) : BeginsWithBr2 symbol.name := by
  have hasPrefix : ∃ before ∈ packagePrefixes, before <+: symbol.name := by
    by_contra noPrefix
    rw [isRealPackage, isPackage, if_pos noPrefix] at isReal
    split_ifs at isReal <;> cases isReal
  obtain ⟨before, member, begins⟩ := hasPrefix
  have short : ∀ before ∈ packagePrefixes, br2 ++ ['_'] <+: before := by decide
  exact Or.inr ((short before member).trans begins)

/-! ### The search for a parent package -/

/-- The names of the `.mk` files make valid expressions. -/
def AllValid (buildroot : Buildroot) : Prop :=
  ∀ pkg ∈ packageList buildroot.files, Valid buildroot pkg

theorem exists_testReal (valid : AllValid buildroot) (symbol : Item) :
    ∃ isReal, testReal buildroot symbol = .ok isReal := by
  have loop : ∀ pkgs : List Text, (∀ pkg ∈ pkgs, Valid buildroot pkg) → ∀ name,
      ∃ isReal, anyPackage buildroot .real name pkgs = some isReal := by
    intro pkgs
    induction pkgs with
    | nil => exact fun _ _ => ⟨false, rfl⟩
    | cons pkg rest inductionHypothesis =>
      intro valid name
      have later := inductionHypothesis (fun other member =>
        valid other (List.mem_cons_of_mem _ member)) name
      rw [anyPackage]
      split_ifs
      · cases found : existsVirtSymbol buildroot pkg with
        | none => exact absurd found (valid pkg List.mem_cons_self)
        | some isVirtual =>
          cases isVirtual with
          | true => exact later
          | false => exact ⟨true, rfl⟩
      · exact later
  have tested : ∃ isReal, isRealPackage buildroot symbol = some isReal := by
    rw [isRealPackage, isPackage]
    split_ifs
    any_goals exact ⟨false, rfl⟩
    exact loop _ valid _
  obtain ⟨isReal, isTested⟩ := tested
  exact ⟨isReal, by rw [testReal, isTested]⟩

theorem isRealPackage_of_testReal {symbol : Item} {isReal : Bool}
    (tested : testReal buildroot symbol = .ok isReal) :
    isRealPackage buildroot symbol = some isReal := by
  rw [testReal] at tested
  split at tested
  · rename_i found
    rw [found, Except.ok.inj tested]
  · cases tested

theorem parentLoop_succ (buildroot : Buildroot) (fuel : ℕ) {name : Text} (notYet : name ≠ br2) :
    parentLoop buildroot (fuel + 1) name =
      match getSymbol buildroot (rsplit name) with
      | none => parentLoop buildroot fuel (rsplit name)
      | some s => testReal buildroot s >>= fun isReal =>
        if isReal then .ok (some s) else parentLoop buildroot fuel (rsplit name) := by
  rw [parentLoop, if_neg notYet]

theorem parentLoop_br2 (fuel : ℕ) : parentLoop buildroot fuel br2 = .ok none := by
  cases fuel <;> rfl

/-- The search from a name that begins with `BR2` ends. -/
theorem exists_parentLoop (valid : AllValid buildroot) {name : Text}
    (begins : BeginsWithBr2 name) :
    ∃ fuel result, parentLoop buildroot fuel name = .ok result := by
  induction size : name.length using Nat.strong_induction_on generalizing name with
  | _ bound inductionHypothesis =>
    by_cases isBr2 : name = br2
    · exact ⟨0, none, by rw [isBr2, parentLoop_br2]⟩
    · have longer := begins.resolve_left isBr2
      obtain ⟨fuel, result, ends⟩ := inductionHypothesis (rsplit name).length
        (size ▸ length_rsplit_lt longer) ((beginsWithBr2_rsplit isBr2).mpr begins) rfl
      have next := parentLoop_succ buildroot fuel isBr2
      cases found : getSymbol buildroot (rsplit name) with
      | none =>
        rw [found] at next
        exact ⟨fuel + 1, result, next.trans ends⟩
      | some s =>
        obtain ⟨isReal, tested⟩ := exists_testReal valid s
        rw [found] at next
        dsimp only at next
        rw [tested] at next
        cases isReal with
        | true => exact ⟨fuel + 1, some s, next⟩
        | false => exact ⟨fuel + 1, result, next.trans ends⟩

/-- The search from another name does not. -/
theorem parentLoop_ne_ok {name : Text} (notBegins : ¬BeginsWithBr2 name) (fuel : ℕ)
    (result : Option Item) : parentLoop buildroot fuel name ≠ .ok result := by
  induction fuel generalizing name with
  | zero =>
    rw [parentLoop, if_neg fun isBr2 => notBegins (Or.inl isBr2)]
    exact fun impossible => nomatch impossible
  | succ fuel inductionHypothesis =>
    have notYet : name ≠ br2 := fun isBr2 => notBegins (Or.inl isBr2)
    have later := inductionHypothesis fun begins =>
      notBegins ((beginsWithBr2_rsplit notYet).mp begins)
    rw [parentLoop_succ buildroot fuel notYet]
    cases found : getSymbol buildroot (rsplit name) with
    | none => exact later
    | some s =>
      intro ends
      obtain ⟨isReal, tested, ends⟩ := Fold.bind_eq_ok.mp ends
      cases isReal with
      | false => exact later ends
      | true =>
        have named : s.name = rsplit name := by
          have := List.find?_some found
          rwa [decide_eq_true_iff] at this
        have begins := beginsWithBr2_of_isRealPackage (isRealPackage_of_testReal tested)
        rw [named, beginsWithBr2_rsplit notYet] at begins
        exact notBegins begins

/-- A label is made exactly of a name that begins with `BR2`. -/
theorem exists_providerLabel_iff (valid : AllValid buildroot) (sym : Item) :
    (∃ fuel label, providerLabel buildroot fuel sym = .ok label) ↔ BeginsWithBr2 sym.name := by
  obtain ⟨isReal, tested⟩ := exists_testReal valid sym
  constructor
  · rintro ⟨fuel, label, ends⟩
    obtain ⟨parent, isParent, -⟩ := Fold.bind_eq_ok.mp ends
    rw [getParentPackage, tested] at isParent
    cases isReal with
    | true => exact beginsWithBr2_of_isRealPackage (isRealPackage_of_testReal tested)
    | false =>
      by_contra notBegins
      exact parentLoop_ne_ok notBegins fuel parent isParent
  · intro begins
    have parent : ∃ fuel parent, getParentPackage buildroot fuel sym = .ok parent := by
      cases isReal with
      | true => exact ⟨0, none, by rw [getParentPackage, tested]; rfl⟩
      | false =>
        obtain ⟨fuel, parent, ends⟩ := exists_parentLoop valid begins
        exact ⟨fuel, parent, by rw [getParentPackage, tested]; exact ends⟩
    obtain ⟨fuel, parent, isParent⟩ := parent
    cases parent with
    | none => exact ⟨fuel, _, by rw [providerLabel, isParent]; rfl⟩
    | some parentPkg => exact ⟨fuel, _, by rw [providerLabel, isParent]; rfl⟩

/-! ### More fuel -/

theorem parentLoop_mono {fuel : ℕ} {name : Text} {result : Option Item}
    (ends : parentLoop buildroot fuel name = .ok result) :
    parentLoop buildroot (fuel + 1) name = .ok result := by
  induction fuel generalizing name with
  | zero =>
    by_cases isBr2 : name = br2
    · rw [isBr2, parentLoop_br2] at ends
      rw [isBr2, parentLoop_br2, ends]
    · rw [parentLoop, if_neg isBr2] at ends
      cases ends
  | succ fuel inductionHypothesis =>
    by_cases isBr2 : name = br2
    · rw [isBr2, parentLoop_br2] at ends
      rw [isBr2, parentLoop_br2, ends]
    · rw [parentLoop_succ buildroot _ isBr2] at ends ⊢
      cases found : getSymbol buildroot (rsplit name) with
      | none =>
        rw [found] at ends
        exact inductionHypothesis ends
      | some s =>
        rw [found] at ends
        obtain ⟨isReal, tested, ends⟩ := Fold.bind_eq_ok.mp ends
        refine Fold.bind_eq_ok.mpr ⟨isReal, tested, ?_⟩
        cases isReal with
        | true => exact ends
        | false => exact inductionHypothesis ends

theorem providerLabel_mono {fuel : ℕ} {sym : Item} {label : Text}
    (ends : providerLabel buildroot fuel sym = .ok label) :
    providerLabel buildroot (fuel + 1) sym = .ok label := by
  obtain ⟨parent, isParent, labelled⟩ := Fold.bind_eq_ok.mp ends
  obtain ⟨isReal, tested, searched⟩ := Fold.bind_eq_ok.mp isParent
  refine Fold.bind_eq_ok.mpr ⟨parent, Fold.bind_eq_ok.mpr ⟨isReal, tested, ?_⟩, labelled⟩
  cases isReal with
  | true => exact searched
  | false => exact parentLoop_mono searched

section Collect

variable {label label' : Item → Except Stop Text} {recur recur' : Item → Except Stop (List Text)}

theorem providersFrom_of_not_supports {symbol sym : Item} (noSupport : ¬Supports symbol sym) :
    providersFrom label recur symbol sym = .ok [] := by
  rw [providersFrom]
  cases isSymbol : sym.isSymbol with
  | false => rfl
  | true =>
    cases legacy : symbolIsLegacy sym with
    | true => rfl
    | false => exact if_neg fun selected => noSupport ⟨isSymbol, legacy, selected⟩

theorem providersFrom_of_supports {symbol sym : Item} (supports : Supports symbol sym) :
    providersFrom label recur symbol sym =
      if sym.prompts ≠ [] then label sym >>= fun l => .ok [l] else recur sym := by
  rw [providersFrom, supports.1, supports.2.1, if_neg (by decide), if_neg (by decide),
    if_pos supports.2.2]

/-- The loop ends when it does for every entry. -/
theorem exists_collect {symbol : Item} {syms : List Item}
    (each : ∀ sym ∈ syms, ∃ labels, providersFrom label recur symbol sym = .ok labels) :
    ∃ labels, collect label recur symbol syms = .ok labels := by
  induction syms with
  | nil => exact ⟨[], rfl⟩
  | cons sym rest inductionHypothesis =>
    obtain ⟨here, isHere⟩ := each sym List.mem_cons_self
    obtain ⟨others, areOthers⟩ := inductionHypothesis fun other member =>
      each other (List.mem_cons_of_mem _ member)
    exact ⟨here ++ others, Fold.bind_eq_ok.mpr ⟨here, isHere,
      Fold.bind_eq_ok.mpr ⟨others, areOthers, rfl⟩⟩⟩

theorem providersFrom_mono {symbol sym : Item} {labels : List Text}
    (labelMono : ∀ sym l, label sym = .ok l → label' sym = .ok l)
    (recurMono : ∀ sym ls, recur sym = .ok ls → recur' sym = .ok ls)
    (ends : providersFrom label recur symbol sym = .ok labels) :
    providersFrom label' recur' symbol sym = .ok labels := by
  by_cases supports : Supports symbol sym
  · rw [providersFrom_of_supports supports] at ends ⊢
    split_ifs at ends ⊢ with prompt
    · obtain ⟨l, isLabel, one⟩ := Fold.bind_eq_ok.mp ends
      exact Fold.bind_eq_ok.mpr ⟨l, labelMono sym l isLabel, one⟩
    · exact recurMono sym labels ends
  · rw [providersFrom_of_not_supports supports] at ends ⊢
    exact ends

theorem collect_mono {symbol : Item} {syms : List Item} {labels : List Text}
    (labelMono : ∀ sym l, label sym = .ok l → label' sym = .ok l)
    (recurMono : ∀ sym ls, recur sym = .ok ls → recur' sym = .ok ls)
    (ends : collect label recur symbol syms = .ok labels) :
    collect label' recur' symbol syms = .ok labels := by
  induction syms generalizing labels with
  | nil => exact ends
  | cons sym rest inductionHypothesis =>
    obtain ⟨here, isHere, ends⟩ := Fold.bind_eq_ok.mp ends
    obtain ⟨others, areOthers, whole⟩ := Fold.bind_eq_ok.mp ends
    exact Fold.bind_eq_ok.mpr ⟨here, providersFrom_mono labelMono recurMono isHere,
      Fold.bind_eq_ok.mpr ⟨others, inductionHypothesis areOthers, whole⟩⟩

end Collect

theorem getProviders_mono {fuel : ℕ} {symbol : Item} {labels : List Text}
    (ends : getProviders buildroot fuel symbol = .ok labels) :
    getProviders buildroot (fuel + 1) symbol = .ok labels := by
  induction fuel generalizing symbol labels with
  | zero => cases ends
  | succ fuel inductionHypothesis =>
    exact collect_mono (fun _ _ => providerLabel_mono) (fun _ _ => inductionHypothesis) ends

/-- Finitely many searches end with the same fuel. -/
theorem exists_fuel {α : Type} {ends : ℕ → α → Prop}
    (mono : ∀ fuel item, ends fuel item → ends (fuel + 1) item) {items : List α}
    (each : ∀ item ∈ items, ∃ fuel, ends fuel item) : ∃ fuel, ∀ item ∈ items, ends fuel item := by
  have add : ∀ more fuel item, ends fuel item → ends (fuel + more) item := by
    intro more
    induction more with
    | zero => exact fun _ _ end' => end'
    | succ more inductionHypothesis =>
      exact fun fuel item end' => mono _ item (inductionHypothesis fuel item end')
  induction items with
  | nil => exact ⟨0, fun item member => absurd member List.not_mem_nil⟩
  | cons item rest inductionHypothesis =>
    obtain ⟨first, isFirst⟩ := each item List.mem_cons_self
    obtain ⟨others, areOthers⟩ := inductionHypothesis fun other member =>
      each other (List.mem_cons_of_mem _ member)
    refine ⟨first + others, fun other member => ?_⟩
    rcases List.mem_cons.mp member with rfl | inRest
    · exact add others first other isFirst
    · rw [Nat.add_comm]
      exact add first others other (areOthers other inRest)

/-! ### The providers of a symbol -/

/-- What an entry of the configuration adds to the list. -/
def entryProviders (recur : Item → List Item) (symbol sym : Item) : List Item :=
  if Supports symbol sym then if sym.prompts ≠ [] then [sym] else recur sym else []

/-- The symbols that `_get_providers` lists by their labels. -/
def providersOf (buildroot : Buildroot) : ℕ → Item → List Item
  | 0, _ => []
  | fuel + 1, symbol =>
    buildroot.config.flatMap (entryProviders (providersOf buildroot fuel) symbol)

/-- A provider has a label. -/
def Labelled (buildroot : Buildroot) (provider : Item) (label : Text) : Prop :=
  ∃ fuel, providerLabel buildroot fuel provider = .ok label

theorem forall₂_collect {fuel : ℕ} {symbol : Item} {syms : List Item} {labels : List Text}
    (inner : ∀ sym labels, getProviders buildroot fuel sym = .ok labels →
      List.Forall₂ (Labelled buildroot) (providersOf buildroot fuel sym) labels)
    (ends : collect (providerLabel buildroot fuel) (getProviders buildroot fuel) symbol syms =
      .ok labels) :
    List.Forall₂ (Labelled buildroot)
      (syms.flatMap (entryProviders (providersOf buildroot fuel) symbol)) labels := by
  induction syms generalizing labels with
  | nil =>
    rw [← Except.ok.inj ends]
    exact List.Forall₂.nil
  | cons sym rest inductionHypothesis =>
    obtain ⟨here, isHere, ends⟩ := Fold.bind_eq_ok.mp ends
    obtain ⟨others, areOthers, whole⟩ := Fold.bind_eq_ok.mp ends
    rw [List.flatMap_cons, ← Except.ok.inj whole]
    refine List.rel_append ?_ (inductionHypothesis areOthers)
    rw [entryProviders]
    split_ifs with supports prompt
    · rw [providersFrom_of_supports supports, if_pos prompt] at isHere
      obtain ⟨l, isLabel, one⟩ := Fold.bind_eq_ok.mp isHere
      rw [← Except.ok.inj one]
      exact List.Forall₂.cons ⟨fuel, isLabel⟩ List.Forall₂.nil
    · rw [providersFrom_of_supports supports, if_neg prompt] at isHere
      exact inner sym here isHere
    · rw [providersFrom_of_not_supports supports] at isHere
      rw [← Except.ok.inj isHere]
      exact List.Forall₂.nil

theorem forall₂_getProviders {fuel : ℕ} {symbol : Item} {labels : List Text}
    (ends : getProviders buildroot fuel symbol = .ok labels) :
    List.Forall₂ (Labelled buildroot) (providersOf buildroot fuel symbol) labels := by
  induction fuel generalizing symbol labels with
  | zero => cases ends
  | succ fuel inductionHypothesis =>
    exact forall₂_collect (fun _ _ => inductionHypothesis) ends

/-- The loop over the configuration ends only when the walk above each entry does. -/
theorem exists_recur {fuel : ℕ} {symbol : Item} {labels : List Text}
    (ends : getProviders buildroot (fuel + 1) symbol = .ok labels) {sym : Item}
    (inConfig : sym ∈ buildroot.config) (supports : Supports symbol sym)
    (noPrompt : sym.prompts = []) : ∃ labels, getProviders buildroot fuel sym = .ok labels := by
  have each : ∀ syms : List Item, sym ∈ syms → ∀ labels,
      collect (providerLabel buildroot fuel) (getProviders buildroot fuel) symbol syms =
        .ok labels → ∃ labels, getProviders buildroot fuel sym = .ok labels := by
    intro syms
    induction syms with
    | nil => exact fun member => absurd member List.not_mem_nil
    | cons first rest inductionHypothesis =>
      intro member labels ends
      obtain ⟨here, isHere, ends⟩ := Fold.bind_eq_ok.mp ends
      obtain ⟨others, areOthers, -⟩ := Fold.bind_eq_ok.mp ends
      rcases List.mem_cons.mp member with rfl | inRest
      · rw [providersFrom_of_supports supports, if_neg (not_not.mpr noPrompt)] at isHere
        exact ⟨here, isHere⟩
      · exact inductionHypothesis inRest others areOthers
  exact each buildroot.config inConfig labels ends

theorem mem_entryProviders {recur : Item → List Item} {symbol sym provider : Item} :
    provider ∈ entryProviders recur symbol sym ↔
      Supports symbol sym ∧ (sym.prompts ≠ [] ∧ provider = sym ∨
        sym.prompts = [] ∧ provider ∈ recur sym) := by
  rw [entryProviders]
  split_ifs with supports prompt
  · rw [List.mem_singleton]
    tauto
  · tauto
  · exact iff_of_false List.not_mem_nil fun both => supports both.1

/-- A list that is complete has the providers. -/
theorem mem_providersOf {fuel : ℕ} {symbol : Item} {labels : List Text}
    (ends : getProviders buildroot fuel symbol = .ok labels) (provider : Item) :
    provider ∈ providersOf buildroot fuel symbol ↔ Provides buildroot symbol provider := by
  induction fuel generalizing symbol labels provider with
  | zero => cases ends
  | succ fuel inductionHypothesis =>
    have inner : ∀ sym ∈ buildroot.config, Supports symbol sym → sym.prompts = [] →
        ∃ labels, getProviders buildroot fuel sym = .ok labels :=
      fun sym inConfig supports noPrompt => exists_recur ends inConfig supports noPrompt
    rw [providersOf, List.mem_flatMap]
    constructor
    · rintro ⟨sym, inConfig, member⟩
      obtain ⟨supports, ⟨prompt, rfl⟩ | ⟨noPrompt, later⟩⟩ := mem_entryProviders.mp member
      · exact Provides.direct inConfig supports prompt
      · obtain ⟨labels, ends⟩ := inner sym inConfig supports noPrompt
        exact Provides.through inConfig supports noPrompt
          ((inductionHypothesis ends provider).mp later)
    · intro provides
      cases provides with
      | direct inConfig supports prompt =>
        exact ⟨_, inConfig, mem_entryProviders.mpr ⟨supports, Or.inl ⟨prompt, rfl⟩⟩⟩
      | through inConfig supports noPrompt later =>
        obtain ⟨labels, ends⟩ := inner _ inConfig supports noPrompt
        exact ⟨_, inConfig, mem_entryProviders.mpr
          ⟨supports, Or.inr ⟨noPrompt, (inductionHypothesis ends provider).mpr later⟩⟩⟩

/-! ### Ways and duplicates -/

theorem exists_way {symbol provider : Item} (provides : Provides buildroot symbol provider) :
    ∃ places, Way buildroot symbol places provider := by
  induction provides with
  | direct inConfig supports prompt =>
    obtain ⟨place, isAt⟩ := List.getElem?_of_mem inConfig
    exact ⟨[place], Way.direct isAt supports prompt⟩
  | through inConfig supports noPrompt _ inductionHypothesis =>
    obtain ⟨place, isAt⟩ := List.getElem?_of_mem inConfig
    obtain ⟨places, later⟩ := inductionHypothesis
    exact ⟨place :: places, Way.through isAt supports noPrompt later⟩

theorem Way.provides {symbol provider : Item} {places : List ℕ}
    (way : Way buildroot symbol places provider) : Provides buildroot symbol provider := by
  induction way with
  | direct isAt supports prompt =>
    exact Provides.direct (List.mem_of_getElem? isAt) supports prompt
  | through isAt supports noPrompt _ inductionHypothesis =>
    exact Provides.through (List.mem_of_getElem? isAt) supports noPrompt inductionHypothesis

/-- What an entry adds is what has a way through it. -/
theorem mem_entryProviders_iff_way {fuel : ℕ} {symbol sym provider : Item} {labels : List Text}
    {place : ℕ} (ends : getProviders buildroot (fuel + 1) symbol = .ok labels)
    (isAt : buildroot.config[place]? = some sym) :
    provider ∈ entryProviders (providersOf buildroot fuel) symbol sym ↔
      ∃ places, Way buildroot symbol (place :: places) provider := by
  rw [mem_entryProviders]
  constructor
  · rintro ⟨supports, ⟨prompt, rfl⟩ | ⟨noPrompt, later⟩⟩
    · exact ⟨[], Way.direct isAt supports prompt⟩
    · obtain ⟨inner, innerEnds⟩ :=
        exists_recur ends (List.mem_of_getElem? isAt) supports noPrompt
      obtain ⟨places, way⟩ := exists_way ((mem_providersOf innerEnds provider).mp later)
      exact ⟨places, Way.through isAt supports noPrompt way⟩
  · rintro ⟨places, way⟩
    cases way with
    | direct isAt' supports prompt =>
      rw [isAt] at isAt'
      cases isAt'
      exact ⟨supports, Or.inl ⟨prompt, rfl⟩⟩
    | through isAt' supports noPrompt later =>
      rw [isAt] at isAt'
      cases isAt'
      obtain ⟨inner, innerEnds⟩ :=
        exists_recur ends (List.mem_of_getElem? isAt) supports noPrompt
      exact ⟨supports, Or.inr ⟨noPrompt, (mem_providersOf innerEnds provider).mpr later.provides⟩⟩

theorem Way.exists_place {symbol provider : Item} {places : List ℕ}
    (way : Way buildroot symbol places provider) :
    ∃ place rest sym, places = place :: rest ∧ buildroot.config[place]? = some sym := by
  cases way with
  | direct isAt _ _ => exact ⟨_, _, _, rfl, isAt⟩
  | through isAt _ _ _ => exact ⟨_, _, _, rfl, isAt⟩

/-- A complete list has no duplicate exactly when no provider has two ways. -/
theorem nodup_providersOf_iff {fuel : ℕ} {symbol : Item} {labels : List Text}
    (ends : getProviders buildroot fuel symbol = .ok labels) :
    (providersOf buildroot fuel symbol).Nodup ↔ OneWay buildroot symbol := by
  induction fuel generalizing symbol labels with
  | zero => cases ends
  | succ fuel inductionHypothesis =>
    rw [providersOf, List.nodup_flatMap, List.pairwise_iff_getElem]
    constructor
    · rintro ⟨each, apart⟩ provider places places' way way'
      obtain ⟨place, rest, sym, rfl, isAt⟩ := way.exists_place
      obtain ⟨place', rest', sym', rfl, isAt'⟩ := way'.exists_place
      have member := (mem_entryProviders_iff_way ends isAt).mpr ⟨rest, way⟩
      have member' := (mem_entryProviders_iff_way ends isAt').mpr ⟨rest', way'⟩
      obtain ⟨inside, isSym⟩ := List.getElem?_eq_some_iff.mp isAt
      obtain ⟨inside', isSym'⟩ := List.getElem?_eq_some_iff.mp isAt'
      rw [← isSym] at member
      rw [← isSym'] at member'
      rcases Nat.lt_trichotomy place place' with less | rfl | more
      · exact absurd member' (apart place place' inside inside' less member)
      · refine congrArg (List.cons place) ?_
        cases way with
        | direct isAt'' _ prompt =>
          cases way' with
          | direct => rfl
          | through isAt' _ noPrompt _ =>
            rw [isAt''] at isAt'
            cases isAt'
            exact absurd noPrompt prompt
        | through isAt'' supports noPrompt later =>
          cases way' with
          | direct isAt' _ prompt =>
            rw [isAt''] at isAt'
            cases isAt'
            exact absurd noPrompt prompt
          | through isAt' _ _ later' =>
            rw [isAt''] at isAt'
            cases isAt'
            have inConfig := List.mem_of_getElem? isAt''
            obtain ⟨inner, innerEnds⟩ := exists_recur ends inConfig supports noPrompt
            have nodup := each _ inConfig
            rw [entryProviders, if_pos supports, if_neg (not_not.mpr noPrompt)] at nodup
            exact (inductionHypothesis innerEnds).mp nodup provider rest rest' later later'
      · exact absurd member (apart place' place inside' inside more member')
    · intro oneWay
      refine ⟨fun sym inConfig => ?_, fun place place' inside inside' less provider => ?_⟩
      · rw [entryProviders]
        split_ifs with supports prompt
        · exact List.nodup_singleton sym
        · obtain ⟨inner, innerEnds⟩ :=
            exists_recur ends inConfig supports (not_not.mp prompt)
          obtain ⟨place, isAt⟩ := List.getElem?_of_mem inConfig
          refine (inductionHypothesis innerEnds).mpr fun provider places places' way way' => ?_
          have same := oneWay provider _ _ (Way.through isAt supports (not_not.mp prompt) way)
            (Way.through isAt supports (not_not.mp prompt) way')
          exact (List.cons.inj same).2
        · exact List.nodup_nil
      · intro member member'
        obtain ⟨rest, way⟩ :=
          (mem_entryProviders_iff_way ends (List.getElem?_eq_getElem inside)).mp member
        obtain ⟨rest', way'⟩ :=
          (mem_entryProviders_iff_way ends (List.getElem?_eq_getElem inside')).mp member'
        exact Nat.ne_of_lt less (List.cons.inj (oneWay provider _ _ way way')).1

/-! ### The walk ends -/

/-- In an acyclic configuration the walk ends when the search for a parent of each provider does. -/
theorem exists_getProviders (valid : AllValid buildroot)
    (acyclic : Digraph.Acyclic (Selects buildroot)) (symbol : Item)
    (named : ∀ provider, Provides buildroot symbol provider → BeginsWithBr2 provider.name) :
    ∃ fuel labels, getProviders buildroot fuel symbol = .ok labels := by
  have finite : (Digraph.sources (Selects buildroot)).Finite :=
    buildroot.config.finite_toSet.subset fun _ ⟨_, selects⟩ => selects.1
  induction symbol using acyclic.induction_above finite with
  | step symbol inductionHypothesis =>
    have each : ∀ sym ∈ buildroot.config, ∃ fuel, ∃ labels,
        providersFrom (providerLabel buildroot fuel) (getProviders buildroot fuel) symbol sym =
          .ok labels := by
      intro sym inConfig
      by_cases supports : Supports symbol sym
      · by_cases prompt : sym.prompts = []
        · obtain ⟨fuel, labels, ends⟩ := inductionHypothesis sym
            (.single ⟨inConfig, supports.2.2⟩) fun provider later =>
              named provider (Provides.through inConfig supports prompt later)
          refine ⟨fuel, labels, ?_⟩
          rw [providersFrom_of_supports supports, if_neg (not_not.mpr prompt), ends]
        · obtain ⟨fuel, label, ends⟩ := (exists_providerLabel_iff valid sym).mpr
            (named sym (Provides.direct inConfig supports prompt))
          refine ⟨fuel, [label], ?_⟩
          rw [providersFrom_of_supports supports, if_pos prompt, ends]
          rfl
      · exact ⟨0, [], providersFrom_of_not_supports supports⟩
    have mono : ∀ fuel sym, (∃ labels, providersFrom (providerLabel buildroot fuel)
        (getProviders buildroot fuel) symbol sym = .ok labels) →
        ∃ labels, providersFrom (providerLabel buildroot (fuel + 1))
          (getProviders buildroot (fuel + 1)) symbol sym = .ok labels := by
      rintro fuel sym ⟨labels, ends⟩
      exact ⟨labels, providersFrom_mono (fun _ _ => providerLabel_mono)
        (fun _ _ => getProviders_mono) ends⟩
    obtain ⟨fuel, all⟩ := exists_fuel mono each
    obtain ⟨labels, ends⟩ := exists_collect all
    exact ⟨fuel + 1, labels, ends⟩

/-! ### The list -/

theorem exists_of_forall₂ {α β : Type} {related : α → β → Prop} {items : List α} {others : List β}
    (all : List.Forall₂ related items others) {item : α} (member : item ∈ items) :
    ∃ other, related item other := by
  induction all with
  | nil => exact absurd member List.not_mem_nil
  | cons first _ inductionHypothesis =>
    rcases List.mem_cons.mp member with rfl | inRest
    · exact ⟨_, first⟩
    · exact inductionHypothesis inRest

/-- A list without duplicates was built in one way. -/
theorem ListsProviders.oneWay {symbol : Item} (lists : ListsProviders buildroot symbol) :
    OneWay buildroot symbol := by
  obtain ⟨fuel, labels, ends, providers, nodup, members, labelled⟩ := lists
  have subset : providers ⊆ providersOf buildroot fuel symbol := fun provider member =>
    (mem_providersOf ends provider).mpr ((members provider).mp member)
  have length : (providersOf buildroot fuel symbol).length ≤ providers.length := by
    rw [(forall₂_getProviders ends).length_eq, labelled.length_eq]
  have perm := (List.subperm_of_subset nodup subset).perm_of_length_le length
  exact (nodup_providersOf_iff ends).mp (perm.nodup_iff.mp nodup)

/-- The list is right exactly when the name of each provider begins with `BR2` and no provider
reaches the symbol in two ways, for every acyclic configuration. -/
theorem listsProviders_iff (buildroot : Buildroot) (valid : AllValid buildroot)
    (acyclic : Digraph.Acyclic (Selects buildroot)) (symbol : Item) :
    ListsProviders buildroot symbol ↔
      (∀ provider, Provides buildroot symbol provider → BeginsWithBr2 provider.name) ∧
        OneWay buildroot symbol := by
  constructor
  · intro lists
    refine ⟨fun provider provides => ?_, lists.oneWay⟩
    obtain ⟨fuel, labels, ends, providers, nodup, members, labelled⟩ := lists
    obtain ⟨label, fuel, isLabel⟩ := exists_of_forall₂ labelled ((members provider).mpr provides)
    exact (exists_providerLabel_iff valid provider).mp ⟨fuel, label, isLabel⟩
  · rintro ⟨named, oneWay⟩
    obtain ⟨fuel, labels, ends⟩ := exists_getProviders valid acyclic symbol named
    exact ⟨fuel, labels, ends, providersOf buildroot fuel symbol,
      (nodup_providersOf_iff ends).mpr oneWay, mem_providersOf ends, forall₂_getProviders ends⟩

def hasJpeg : Item := ⟨true, "BR2_PACKAGE_HAS_JPEG".toList, [], [], by decide⟩

def libjpeg : Item :=
  ⟨true, "BR2_PACKAGE_LIBJPEG".toList, ["libjpeg".toList], [hasJpeg.name], by decide⟩

/-- A virtual package and a package that provides it. -/
def jpegBuildroot : Buildroot :=
  ⟨["libjpeg.mk".toList], [hasJpeg, libjpeg], fun pattern => some (matchesName pattern.dropLast)⟩

theorem allValid_jpegBuildroot : AllValid jpegBuildroot := by
  intro pkg _ impossible
  cases impossible

theorem acyclic_jpegBuildroot : Digraph.Acyclic (Selects jpegBuildroot) := by
  let rank : Item → ℕ := fun item => if item.name = hasJpeg.name then 0 else 1
  have decreases : ∀ first second, Selects jpegBuildroot first second →
      rank second < rank first := by
    rintro first second ⟨inConfig, selected⟩
    rcases List.mem_cons.mp inConfig with rfl | inConfig
    · cases selected
    · rw [List.mem_singleton.mp inConfig] at selected ⊢
      have isLow : rank second = 0 := if_pos (List.mem_singleton.mp selected)
      have isHigh : rank libjpeg = 1 := by decide
      rw [isLow, isHigh]
      exact Nat.zero_lt_one
  exact Digraph.acyclic_of_rank decreases

theorem listsProviders_iff_jpeg :
    ListsProviders jpegBuildroot hasJpeg ↔
      (∀ provider, Provides jpegBuildroot hasJpeg provider → BeginsWithBr2 provider.name) ∧
        OneWay jpegBuildroot hasJpeg :=
  listsProviders_iff jpegBuildroot allValid_jpegBuildroot acyclic_jpegBuildroot hasJpeg

/-- A symbol without a prompt that provides the virtual package for others. -/
def jpegSupport : Item :=
  ⟨true, "BR2_PACKAGE_JPEG_SUPPORT".toList, [], [hasJpeg.name], by decide⟩

/-- A package that selects both. -/
def turboJpeg : Item :=
  ⟨true, "BR2_PACKAGE_JPEG_TURBO".toList, ["jpeg-turbo".toList],
    [jpegSupport.name, hasJpeg.name], by decide⟩

def turboBuildroot : Buildroot :=
  ⟨["jpeg-turbo.mk".toList], [hasJpeg, jpegSupport, turboJpeg],
    fun pattern => some (matchesName pattern.dropLast)⟩

/-- The package is listed once for each of its two ways. -/
theorem not_listsProviders_turbo : ¬ListsProviders turboBuildroot hasJpeg := by
  intro lists
  have direct : Way turboBuildroot hasJpeg [2] turboJpeg := Way.direct rfl (by decide) (by decide)
  have second : Way turboBuildroot jpegSupport [2] turboJpeg :=
    Way.direct rfl (by decide) (by decide)
  have through : Way turboBuildroot hasJpeg [1, 2] turboJpeg :=
    Way.through rfl (by decide) rfl second
  exact absurd (lists.oneWay turboJpeg _ _ direct through) (by decide)

end Buildroot4G.Manual
