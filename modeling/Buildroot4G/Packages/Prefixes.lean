/-
This file models the part of `inner-generic-package` in `package/pkg-generic.mk` that keeps a
package from being defined twice, with the variables that are set behind it, and `UPPERCASE` of
`package/pkg-utils.mk`, which makes the prefix of these variables of the name of the package. The
check is about names, and two names can have the same prefix; besides, a variable of one package is
a variable of another one when the first prefix goes on to the second. The main result says which
names pass, which of them share a prefix and whose variables are safe, over any sequence of
packages.
-/

import Buildroot4G.Packages.GenericPackage
import Buildroot4G.Fold
import Buildroot4G.Shell.Awk
import Mathlib.Data.List.Forall2
import Mathlib.Data.List.Nodup

namespace Buildroot4G.Prefixes

open Shell Packages

/-- The name of a package, the last word of its directory. Characters that have a meaning in a
makefile, but for `%`, are left out. -/
@[ext] structure PackageName where
  text : Text
  nonempty : text ≠ []
  plain : ∀ c ∈ text, c ∉ " \t\n\\$#,():=/".toList

instance : DecidableEq PackageName := fun first second =>
  decidable_of_iff (first.text = second.text) PackageName.ext_iff.symm

/-! ### `UPPERCASE` -/

def fromChars : List Char := "abcdefghijklmnopqrstuvwxyz-.".toList

def toChars : List Char := "ABCDEFGHIJKLMNOPQRSTUVWXYZ__".toList

/-- `$(subst from,to,text)` for characters. -/
def subst (pair : Char × Char) (text : Text) : Text :=
  text.map fun c => if c = pair.1 then pair.2 else c

def strip (text : Text) : Text := [' '].intercalate (words text)

/-- What `caseconvert-helper` defines. -/
def caseconvert (pairs : List (Char × Char)) (text : Text) : Text :=
  strip (pairs.foldl (fun tmp pair => subst pair tmp) text)

def upperCase (text : Text) : Text := caseconvert (fromChars.zip toChars) text

/-! ### The evaluation of a package -/

/-- `$(eval $(generic-package))` or `$(eval $(host-generic-package))` in a directory. -/
structure Evaluation where
  type : PackageType
  pkgname : PackageName
  pkgdir : Text

/-- The first argument of `inner-generic-package`. -/
def packageName (evaluation : Evaluation) : Text :=
  match evaluation.type with
  | .target => evaluation.pkgname.text
  | .host => "host-".toList ++ evaluation.pkgname.text

/-- The second argument. -/
def variablePrefix (evaluation : Evaluation) : Text := upperCase (packageName evaluation)

/-- A pattern of `$(filter)` matches a word; the first `%` stands for any characters. -/
def filterMatches (pattern word : Text) : Bool :=
  match pattern.dropWhile fun c => c ≠ '%' with
  | [] => word = pattern
  | _ :: after =>
    let before := pattern.takeWhile fun c => c ≠ '%'
    decide (before <+: word) && decide (after <:+ word) &&
      decide (before.length + after.length ≤ word.length)

def typeText : PackageType → Text
  | .target => "target".toList
  | .host => "host".toList

/-- `$(patsubst host-%,%,…)` of a word. -/
def rawName (name : Text) : Text := if "host-".toList <+: name then name.drop 5 else name

/-- The variable `$(2)_SUFFIX`. -/
def variableName (evaluation : Evaluation) (suffix : Text) : Text :=
  variablePrefix evaluation ++ '_' :: suffix

/-- What the definitions behind the first four set: the suffixes with the values, which may depend
on the variables so far (`ifndef`, `?=`). -/
abbrev Definitions := Evaluation → (Text → Text) → List (Text × Text)

/-- The variables that the evaluation sets, by their suffixes. -/
def packageVariables (definitions : Definitions) (evaluation : Evaluation) (vars : Text → Text) :
    List (Text × Text) :=
  [("TYPE".toList, typeText evaluation.type), ("NAME".toList, packageName evaluation),
    ("RAWNAME".toList, rawName (packageName evaluation)), ("PKGDIR".toList, evaluation.pkgdir)] ++
    definitions evaluation vars

/-- `PACKAGES_ALL`, and the values of the other variables. -/
structure State where
  packagesAll : List Text
  vars : Text → Text

def assign (vars : Text → Text) (assignment : Text × Text) : Text → Text := fun name =>
  if name = assignment.1 then assignment.2 else vars name

/-- The variables behind an evaluation. -/
def setVariables (definitions : Definitions) (evaluation : Evaluation) (vars : Text → Text) :
    Text → Text :=
  ((packageVariables definitions evaluation vars).map fun assignment =>
    (variableName evaluation assignment.1, assignment.2)).foldl assign vars

/-- The text of the `$(error)`. -/
def errorText (state : State) (evaluation : Evaluation) : Text :=
  "Package '".toList ++ packageName evaluation ++ "' defined a second time in '".toList ++
    evaluation.pkgdir ++ "'; previous definition was in '".toList ++
      state.vars (variableName evaluation "PKGDIR".toList) ++ "'".toList

/-- `inner-generic-package`, as far as it sets variables. -/
def innerGenericPackage (definitions : Definitions) (state : State) (evaluation : Evaluation) :
    Except Text State :=
  if state.packagesAll.filter (filterMatches (packageName evaluation)) ≠ [] then
    .error (errorText state evaluation)
  else
    .ok {
      packagesAll := state.packagesAll ++ [packageName evaluation]
      vars := setVariables definitions evaluation state.vars }

/-- The evaluation of packages in a row. -/
def evaluate (definitions : Definitions) (evaluations : List Evaluation) : Except Text State :=
  evaluations.foldlM (innerGenericPackage definitions) ⟨[], fun _ => []⟩

/-! ### What is to be unique -/

/-- The packages of each sequence that passes the check have different prefixes. -/
def PrefixesUnique : Prop :=
  ∀ definitions evaluations state, evaluate definitions evaluations = .ok state →
    (evaluations.map variablePrefix).Nodup

/-- Neither prefix, with an underscore behind it, is the beginning of the other one with an
underscore. -/
def Apart (first second : Evaluation) : Prop :=
  ¬variableName first [] <+: variableName second [] ∧
    ¬variableName second [] <+: variableName first []

instance (first second : Evaluation) : Decidable (Apart first second) :=
  inferInstanceAs (Decidable (_ ∧ _))

/-- Two characters of names become one in a prefix: they differ in case only, or both are a dash, a
dot or an underscore. -/
def Alike (c d : Char) : Prop :=
  c.toUpper = d.toUpper ∨ c ∈ ['-', '.', '_'] ∧ d ∈ ['-', '.', '_']

/-- Two packages have names that become one. -/
def NamesAlike (first second : Evaluation) : Prop :=
  List.Forall₂ Alike (packageName first) (packageName second)

/-! ### The prefix of a name -/

/-- `UPPERCASE` for a character. -/
def upperChar (c : Char) : Char :=
  (fromChars.zip toChars).foldl (fun c pair => if c = pair.1 then pair.2 else c) c

theorem foldl_subst (pairs : List (Char × Char)) (text : Text) :
    pairs.foldl (fun tmp pair => subst pair tmp) text =
      text.map fun c => pairs.foldl (fun c pair => if c = pair.1 then pair.2 else c) c := by
  induction pairs generalizing text with
  | nil => exact (List.map_id text).symm
  | cons pair rest inductionHypothesis =>
    rw [List.foldl_cons, inductionHypothesis, subst, List.map_map]
    rfl

theorem foldl_eq_self {pairs : List (Char × Char)} {c : Char}
    (absent : c ∉ pairs.map Prod.fst) :
    pairs.foldl (fun c pair => if c = pair.1 then pair.2 else c) c = c := by
  induction pairs with
  | nil => rfl
  | cons pair rest inductionHypothesis =>
    rw [List.map_cons, List.mem_cons, not_or] at absent
    rw [List.foldl_cons, if_neg absent.1, inductionHypothesis absent.2]

/-- The letters are the characters that have another upper case. -/
theorem toUpper_of_not_mem {c : Char} (absent : c ∉ fromChars) : c.toUpper = c := by
  have notLower : ¬('a'.val ≤ c.val ∧ c.val ≤ 'z'.val) := by
    rintro ⟨low, high⟩
    have codes : fromChars.map Char.toNat = List.range' 97 26 ++ [45, 46] := by decide
    have isLow : 97 ≤ c.toNat := low
    have isHigh : c.toNat ≤ 122 := high
    have isCode : c.toNat ∈ fromChars.map Char.toNat := by
      rw [codes]
      exact List.mem_append_left _ (List.mem_range'_1.mpr ⟨isLow, by omega⟩)
    obtain ⟨d, inFrom, same⟩ := List.mem_map.mp isCode
    rw [Char.toNat_inj.mp same] at inFrom
    exact absent inFrom
  exact dif_neg notLower

theorem upperChar_eq_self {c : Char} (absent : c ∉ fromChars) : upperChar c = c := by
  refine foldl_eq_self ?_
  rw [List.map_fst_zip (by decide)]
  exact absent

theorem upperChar_eq (c : Char) :
    upperChar c = if c ∈ ['-', '.'] then '_' else c.toUpper := by
  by_cases inFrom : c ∈ fromChars
  · have each : ∀ c ∈ fromChars,
        upperChar c = if c ∈ ['-', '.'] then '_' else c.toUpper := by decide +kernel
    exact each c inFrom
  · have noDash : c ∉ ['-', '.'] := fun dash =>
      inFrom ((by decide : ∀ c ∈ ['-', '.'], c ∈ fromChars) c dash)
    rw [upperChar_eq_self inFrom, if_neg noDash, toUpper_of_not_mem inFrom]

theorem plain_packageName (evaluation : Evaluation) :
    ∀ c ∈ packageName evaluation, c ∉ " \t\n\\$#,():=/".toList := by
  intro c member
  rw [packageName] at member
  split at member
  · exact evaluation.pkgname.plain c member
  · rcases List.mem_append.mp member with host | inName
    · exact (by decide : ∀ c ∈ "host-".toList, c ∉ " \t\n\\$#,():=/".toList) c host
    · exact evaluation.pkgname.plain c inName

theorem packageName_ne_nil (evaluation : Evaluation) : packageName evaluation ≠ [] := by
  rw [packageName]
  split
  · exact evaluation.pkgname.nonempty
  · exact List.append_ne_nil_of_left_ne_nil (by decide) _

/-- The prefix of a package is its name with every character converted. -/
theorem variablePrefix_eq (evaluation : Evaluation) :
    variablePrefix evaluation = (packageName evaluation).map upperChar := by
  have isWord : IsWord ((packageName evaluation).map upperChar) := by
    refine ⟨fun empty => packageName_ne_nil evaluation (List.map_eq_nil_iff.mp empty), ?_⟩
    intro c member
    obtain ⟨d, inName, rfl⟩ := List.mem_map.mp member
    by_cases inFrom : d ∈ fromChars
    · have each : ∀ c ∈ fromChars,
          isBlank (if c ∈ ['-', '.'] then '_' else c.toUpper) = false := by decide
      rw [upperChar_eq]
      exact each d inFrom
    · have notBlank : isBlank d = false := by
        have plain := plain_packageName evaluation d inName
        rw [isBlank]
        simp_all
      rw [upperChar_eq_self inFrom]
      exact notBlank
  rw [variablePrefix, upperCase, caseconvert, foldl_subst, strip]
  show [' '].intercalate (words ((packageName evaluation).map upperChar)) = _
  rw [isWord.words, List.intercalate_singleton]

/-- A dash, a dot and an underscore are no letter's upper case. -/
theorem toUpper_eq_iff {c d : Char} (mark : d ∈ ['-', '.', '_']) : c.toUpper = d ↔ c = d := by
  by_cases inFrom : c ∈ fromChars
  · have each : ∀ d ∈ ['-', '.', '_'], ∀ c ∈ fromChars, (c.toUpper = d ↔ c = d) := by decide
    exact each d mark c inFrom
  · rw [toUpper_of_not_mem inFrom]

theorem upperChar_eq_iff (c d : Char) : upperChar c = upperChar d ↔ Alike c d := by
  have marks : ∀ c, c ∈ ['-', '.', '_'] ↔ c ∈ ['-', '.'] ∨ c = '_' := by
    intro c
    simp only [List.mem_cons, List.not_mem_nil, or_false]
    tauto
  have dash : ∀ c ∈ ['-', '.'], c.toUpper = c := by decide
  have inMarks : ∀ c ∈ ['-', '.'], c ∈ ['-', '.', '_'] := fun c member =>
    (marks c).mpr (Or.inl member)
  rw [upperChar_eq, upperChar_eq, Alike, marks, marks]
  split_ifs with first second second
  · exact iff_of_true rfl (Or.inr ⟨Or.inl first, Or.inl second⟩)
  · have left : '_' = d.toUpper ↔ d = '_' := by rw [eq_comm, toUpper_eq_iff (by decide)]
    have right : c = d.toUpper ↔ d = c := by rw [eq_comm, toUpper_eq_iff (inMarks c first)]
    rw [dash c first, left, right]
    constructor
    · exact fun same => Or.inr ⟨Or.inl first, Or.inr same⟩
    · rintro (rfl | ⟨-, inside | same⟩)
      · exact absurd first second
      · exact absurd inside second
      · exact same
  · rw [dash d second, toUpper_eq_iff (by decide), toUpper_eq_iff (inMarks d second)]
    constructor
    · exact fun same => Or.inr ⟨Or.inr same, Or.inl second⟩
    · rintro (rfl | ⟨inside | same, -⟩)
      · exact absurd second first
      · exact absurd inside first
      · exact same
  · constructor
    · exact Or.inl
    · rintro (same | ⟨inside | rfl, inside' | rfl⟩)
      · exact same
      · exact absurd inside first
      · exact absurd inside first
      · exact absurd inside' second
      · rfl

theorem variablePrefix_eq_iff (first second : Evaluation) :
    variablePrefix first = variablePrefix second ↔ NamesAlike first second := by
  rw [variablePrefix_eq, variablePrefix_eq, ← List.forall₂_eq_eq_eq, List.forall₂_map_left_iff,
    List.forall₂_map_right_iff, NamesAlike]
  simp only [upperChar_eq_iff]

/-! ### The check -/

/-- A word is filtered by itself. -/
theorem filterMatches_self (word : Text) : filterMatches word word = true := by
  have whole := List.takeWhile_append_dropWhile (p := fun c => decide (c ≠ '%')) (l := word)
  rw [filterMatches]
  split
  · exact decide_eq_true rfl
  · rename_i c after found
    rw [found] at whole
    have before : word.takeWhile (fun c => c ≠ '%') <+: word := List.takeWhile_prefix _
    have isEnd : after <:+ word := by
      rw [← whole]
      exact (List.suffix_cons c after).trans (List.suffix_append _ _)
    have lengths := congrArg List.length whole
    rw [List.length_append, List.length_cons] at lengths
    rw [Bool.and_eq_true, Bool.and_eq_true, decide_eq_true_iff, decide_eq_true_iff,
      decide_eq_true_iff]
    exact ⟨⟨before, isEnd⟩, by omega⟩

section Check

variable {definitions : Definitions}

/-- What an evaluation that passes leaves. -/
theorem innerGenericPackage_eq_ok {state after : State} {evaluation : Evaluation}
    (passes : innerGenericPackage definitions state evaluation = .ok after) :
    packageName evaluation ∉ state.packagesAll ∧
      after.packagesAll = state.packagesAll ++ [packageName evaluation] ∧
      after.vars = setVariables definitions evaluation state.vars := by
  rw [innerGenericPackage] at passes
  split at passes
  · cases passes
  · next unique =>
    cases passes
    refine ⟨fun inside => unique ?_, rfl, by dsimp only⟩
    exact List.ne_nil_of_mem (List.mem_filter.mpr ⟨inside, filterMatches_self _⟩)

/-- The names of a run that passes, each once. -/
theorem nodup_of_evaluate {evaluations : List Evaluation} {state : State}
    (passes : evaluate definitions evaluations = .ok state) :
    (evaluations.map packageName).Nodup := by
  have kept := Fold.relation_of_foldlM
    (fun done state => state.packagesAll = done.map packageName ∧ (done.map packageName).Nodup)
    passes ⟨rfl, List.nodup_nil⟩ ?_
  · exact kept.2
  · rintro done evaluation before after - ⟨names, nodup⟩ step
    obtain ⟨fresh, names', -⟩ := innerGenericPackage_eq_ok step
    rw [names] at fresh
    refine ⟨?_, ?_⟩
    · rw [names', names, List.map_append, List.map_singleton]
    · rw [List.map_append, List.map_singleton]
      exact List.Nodup.append nodup (List.nodup_singleton _) (List.disjoint_singleton.mpr fresh)

/-! ### The variables -/

theorem foldl_assign_of_not_mem {assignments : List (Text × Text)} {name : Text}
    (absent : name ∉ assignments.map Prod.fst) (vars : Text → Text) :
    assignments.foldl assign vars name = vars name := by
  induction assignments generalizing vars with
  | nil => rfl
  | cons assignment rest inductionHypothesis =>
    rw [List.map_cons, List.mem_cons, not_or] at absent
    rw [List.foldl_cons, inductionHypothesis absent.2, assign, if_neg absent.1]

/-- Two packages can have a variable in common exactly when they are not apart. -/
theorem apart_iff {first second : Evaluation} :
    Apart first second ↔
      ∀ suffix suffix', variableName first suffix ≠ variableName second suffix' := by
  have split : ∀ evaluation suffix,
      variableName evaluation suffix = variableName evaluation [] ++ suffix := by
    intro evaluation suffix
    rw [variableName, variableName, List.append_assoc]
    rfl
  constructor
  · rintro ⟨notFirst, notSecond⟩ suffix suffix' same
    have begins : variableName first [] <+: variableName first suffix :=
      ⟨suffix, (split first suffix).symm⟩
    have begins' : variableName second [] <+: variableName first suffix :=
      ⟨suffix', (split second suffix').symm.trans same.symm⟩
    rcases List.prefix_or_prefix_of_prefix begins begins' with shorter | longer
    · exact notFirst shorter
    · exact notSecond longer
  · refine fun different => ⟨?_, ?_⟩
    · rintro ⟨suffix, same⟩
      exact different suffix [] ((split first suffix).trans same)
    · rintro ⟨suffix, same⟩
      exact different [] suffix (same.symm.trans (split second suffix).symm)

/-- The evaluation of a package leaves the variables of one that is apart from it. -/
theorem vars_of_apart {state after : State} {evaluation other : Evaluation}
    (apart : Apart evaluation other)
    (passes : innerGenericPackage definitions state other = .ok after) (suffix : Text) :
    after.vars (variableName evaluation suffix) = state.vars (variableName evaluation suffix) := by
  rw [(innerGenericPackage_eq_ok passes).2.2, setVariables]
  refine foldl_assign_of_not_mem (fun member => ?_) _
  rw [List.map_map] at member
  obtain ⟨assignment, -, same⟩ := List.mem_map.mp member
  exact apart_iff.mp apart suffix assignment.1 same.symm

/-- Evaluations that are apart from a package leave its variables. -/
theorem vars_of_evaluations {evaluation : Evaluation} {others : List Evaluation}
    (apart : ∀ other ∈ others, Apart evaluation other) {state after : State}
    (passes : others.foldlM (innerGenericPackage definitions) state = .ok after) (suffix : Text) :
    after.vars (variableName evaluation suffix) = state.vars (variableName evaluation suffix) := by
  refine Fold.relation_of_foldlM (fun _ (now : State) =>
    now.vars (variableName evaluation suffix) = state.vars (variableName evaluation suffix))
    passes rfl ?_
  intro done other before next isOther same step
  rw [vars_of_apart (apart other isOther) step, same]

end Check

/-! ### Sequences that pass -/

def fooDash : Evaluation := ⟨.target, ⟨"foo-bar".toList, by decide, by decide⟩, "package/a".toList⟩

def fooUnderscore : Evaluation :=
  ⟨.target, ⟨"foo_bar".toList, by decide, by decide⟩, "package/b".toList⟩

def fooHost : Evaluation := ⟨.host, ⟨"foo-bar".toList, by decide, by decide⟩, "package/a".toList⟩

/-- `$(2)_BASE_NAME` alone, without a version. -/
def baseName : Definitions := fun evaluation _ => [("BASE_NAME".toList, packageName evaluation)]

/-- Two packages with different prefixes that are not apart. -/
example :
    let sax : Evaluation := ⟨.target, ⟨"perl-xml-sax".toList, by decide, by decide⟩, []⟩
    let base : Evaluation := ⟨.target, ⟨"perl-xml-sax-base".toList, by decide, by decide⟩, []⟩
    variableName sax "BASE_NAME".toList = variableName base "NAME".toList := by
  decide

end Buildroot4G.Prefixes
