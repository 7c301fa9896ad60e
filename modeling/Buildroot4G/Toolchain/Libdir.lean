/-
This file proves what `toolchain_find_sysroot` and `toolchain_find_libdir` make of the path of
`libc.a` in a sysroot. The library directory is the name alone, without the `usr/` before it and
without the tuple behind it. The sysroot is what stands before both, unless its own text reads like
a library directory: it has a `lib` behind which a name comes that begins with `libc.a`, or it ends
with `usr/`.
-/

import Buildroot4G.Toolchain.External
import Mathlib.Data.List.TakeWhile

namespace Buildroot4G.Toolchain

open Shell

/-! ### Texts behind a match -/

theorem afterLiteral_eq_some {literal text rest : Text} :
    afterLiteral literal text = some rest ↔ text = literal ++ rest := by
  rw [afterLiteral]
  constructor
  · intro found
    split at found
    · rename_i isPrefix
      obtain ⟨tail, rfl⟩ := List.isPrefixOf_iff_prefix.mp isPrefix
      rw [List.drop_left] at found
      rw [Option.some.inj found]
    · cases found
  · rintro rfl
    rw [if_pos (List.isPrefixOf_iff_prefix.mpr (List.prefix_append literal rest)), List.drop_left]

theorem afterLiteral_eq_none {literal text : Text} :
    afterLiteral literal text = none ↔ ¬literal <+: text := by
  rw [afterLiteral, ← List.isPrefixOf_iff_prefix]
  split
  · rename_i isPrefix
    exact iff_of_false (Option.some_ne_none _) (not_not.mpr isPrefix)
  · rename_i isNot
    exact iff_of_true rfl isNot

theorem afterComponent_append {component : Text} (form : '/' ∉ component) (rest : Text) :
    afterComponent (component ++ '/' :: rest) = some rest := by
  have stays : ∀ c ∈ component, (c != '/') = true :=
    fun c member => bne_iff_ne.mpr fun same => form (same ▸ member)
  rw [afterComponent, List.dropWhile_append_of_pos stays]
  rfl

theorem suffix_of_afterComponent {text rest : Text} (found : afterComponent text = some rest) :
    rest <:+ text := by
  rw [afterComponent] at found
  split at found
  · cases found
  · rename_i c tail split
    rw [← Option.some.inj found]
    have whole : c :: tail <:+ text := split ▸ List.dropWhile_suffix _
    exact (List.suffix_cons c tail).trans whole

theorem suffix_of_afterLiteral {literal text rest : Text}
    (found : afterLiteral literal text = some rest) : rest <:+ text := by
  rw [afterLiteral_eq_some.mp found]
  exact List.suffix_append literal rest

/-- What follows a match of the first expression is the end of the text. -/
theorem suffix_of_afterSysrootMatch {text rest : Text}
    (found : afterSysrootMatch text = some rest) : rest <:+ text := by
  have usr : afterUsr text <:+ text := by
    rw [afterUsr]
    cases behind : afterLiteral "usr/".toList text with
    | none => exact List.suffix_rfl
    | some after => exact suffix_of_afterLiteral behind
  obtain ⟨behindLib, lib, found⟩ := Option.bind_eq_some_iff.mp found
  obtain ⟨behindLiteral, literal, component⟩ := Option.bind_eq_some_iff.mp lib
  have inLib : behindLib <:+ text :=
    ((suffix_of_afterComponent component).trans (suffix_of_afterLiteral literal)).trans usr
  rcases Option.or_eq_some_iff.mp found with found | ⟨-, found⟩
  · obtain ⟨behindComponent, component, found⟩ := Option.bind_eq_some_iff.mp found
    exact ((suffix_of_afterLiteral found).trans (suffix_of_afterComponent component)).trans inLib
  · exact (suffix_of_afterLiteral found).trans inLib

/-! ### The match behind the sysroot -/

namespace Layout

variable (layout : Layout)

/-- What stands behind the slash of the library directory. -/
def file : Text := layout.tupleText ++ "libc.a".toList

theorem afterFile_file {file : Text → Option Text} (whole : file "libc.a".toList = some []) :
    afterFile file layout.file = some [] := by
  rw [Layout.file, tupleText, afterFile]
  have form := layout.tupleForm
  cases tuple : layout.tuple with
  | none =>
    have alone : afterComponent ([] ++ "libc.a".toList) = none := by decide
    rw [Option.elim_none, alone, Option.bind_none, Option.none_or]
    exact whole
  | some name =>
    rw [Option.elim_some, List.append_assoc, List.singleton_append,
      afterComponent_append (form name tuple), Option.bind_some, whole]
    rfl

theorem libName_form : '/' ∉ layout.libName := by
  rw [libName, List.mem_append, List.mem_append]
  rintro (lib | width | suffix)
  · exact absurd lib (by decide)
  · cases isWidth : layout.width with
    | none => rw [isWidth] at width; cases width
    | some size =>
      rw [isWidth] at width
      cases size <;> exact absurd width (by decide)
  · exact layout.suffixForm suffix

theorem afterLib_libName (rest : Text) :
    afterLib (layout.libName ++ '/' :: rest) = some rest := by
  have form : '/' ∉ layout.width.elim [] Width.text ++ layout.suffix :=
    fun member => layout.libName_form (List.mem_append_right _ member)
  have lib : afterLiteral "lib".toList (layout.libName ++ '/' :: rest) =
      some ((layout.width.elim [] Width.text ++ layout.suffix) ++ '/' :: rest) := by
    rw [afterLiteral_eq_some, libName, List.append_assoc]
  rw [afterLib, lib, Option.bind_some, afterComponent_append form]

theorem afterUsr_libName (rest : Text) :
    afterUsr (layout.libName ++ '/' :: rest) = layout.libName ++ '/' :: rest := by
  have noUsr : afterLiteral "usr/".toList (layout.libName ++ '/' :: rest) = none := by
    rw [afterLiteral_eq_none, libName]
    intro isPrefix
    cases (List.cons_prefix_cons.mp isPrefix).1
  rw [afterUsr, noUsr, Option.getD_none]

theorem afterSysrootMatch_path : afterSysrootMatch layout.path = some [] := by
  have usr : afterUsr layout.path = layout.libName ++ '/' :: layout.file := by
    rw [path, usrText]
    cases layout.usr with
    | false => exact layout.afterUsr_libName layout.file
    | true =>
      have found := afterLiteral_eq_some.mpr
        (rfl : "usr/".toList ++ (layout.libName ++ '/' :: layout.file) = _)
      rw [afterUsr, if_pos rfl]
      exact congrArg (Option.getD · _) found
  rw [afterSysrootMatch, usr, afterLib_libName, Option.bind_some]
  exact layout.afterFile_file rfl

theorem libdirMatch_libName :
    libdirMatch (layout.libName ++ '/' :: layout.file) = some (layout.libName, []) := by
  have stays : ∀ c ∈ layout.libName, (c != '/') = true :=
    fun c member => bne_iff_ne.mpr fun same => layout.libName_form (same ▸ member)
  rw [libdirMatch, afterUsr_libName, afterLib_libName, Option.bind_some,
    layout.afterFile_file (by decide), Option.map_some, List.takeWhile_append_of_pos stays]
  simp

end Layout

/-! ### The library directory -/

/-- A component without a slash behind which nothing matches. -/
theorem libdirMatchFrom_append {component : Text} (form : '/' ∉ component) (rest : Text) :
    libdirMatchFrom (component ++ rest) = libdirMatchFrom rest := by
  induction component with
  | nil => rfl
  | cons c tail inductionHypothesis =>
    obtain ⟨noSlash, formTail⟩ := not_or.mp (mt List.mem_cons.mpr form)
    rw [List.cons_append, libdirMatchFrom, if_neg (Ne.symm noSlash), inductionHypothesis formTail]

theorem libdirMatchFrom_slash {rest : Text} (noMatch : libdirMatch rest = none) :
    libdirMatchFrom ('/' :: rest) = libdirMatchFrom rest := by
  rw [libdirMatchFrom, if_pos rfl, noMatch]

theorem libdirMatchFrom_libcA : libdirMatchFrom "libc.a".toList = none := by decide

/-- The last slash behind which the rest of the expression matches up to the end. -/
theorem libdirMatchFrom_last {tail libdir : Text} (isMatch : libdirMatch tail = some (libdir, []))
    (last : libdirMatchFrom tail = none) (front : Text) :
    libdirMatchFrom (front ++ '/' :: tail) = some (libdir, []) := by
  induction front with
  | nil => rw [List.nil_append, libdirMatchFrom, if_pos rfl, isMatch, last]
  | cons c rest inductionHypothesis =>
    rw [List.cons_append, libdirMatchFrom, inductionHypothesis]
    cases (if c = '/' then libdirMatch (rest ++ '/' :: tail) else none) with
    | none => rfl
    | some first => exact if_pos (Nat.zero_le _)

/-- A tuple and `libc.a`: the tuple is taken for a library directory when it begins with `lib`. -/
theorem libdirMatch_tuple {name : Text} (form : '/' ∉ name) :
    libdirMatch (name ++ '/' :: "libc.a".toList) =
      if "lib".toList <+: name then some (name, []) else none := by
  have libPrefix : "lib".toList <+: name ++ '/' :: "libc.a".toList ↔ "lib".toList <+: name :=
    prefix_append_cons_iff (by decide) name _
  have stays : ∀ c ∈ name, (c != '/') = true :=
    fun c member => bne_iff_ne.mpr fun same => form (same ▸ member)
  by_cases isLib : "lib".toList <+: name
  · obtain ⟨rest, rfl⟩ := isLib
    have restForm : '/' ∉ rest := fun member => form (List.mem_append_right _ member)
    have noUsr : afterLiteral "usr/".toList (("lib".toList ++ rest) ++ '/' :: "libc.a".toList) =
        none := by
      rw [afterLiteral_eq_none]
      intro isPrefix
      cases (List.cons_prefix_cons.mp isPrefix).1
    have lib : afterLiteral "lib".toList (("lib".toList ++ rest) ++ '/' :: "libc.a".toList) =
        some (rest ++ '/' :: "libc.a".toList) := by
      rw [afterLiteral_eq_some, List.append_assoc]
    have whole : afterFile afterLibcAny "libc.a".toList = some [] := by decide
    rw [if_pos (List.prefix_append _ rest), libdirMatch, afterUsr, noUsr, Option.getD_none,
      afterLib, lib, Option.bind_some, afterComponent_append restForm, Option.bind_some, whole,
      Option.map_some, List.takeWhile_append_of_pos stays]
    simp
  · rw [if_neg isLib, libdirMatch, Option.map_eq_none_iff]
    have noLib : afterLib (afterUsr (name ++ '/' :: "libc.a".toList)) = none := by
      rw [afterUsr]
      cases usr : afterLiteral "usr/".toList (name ++ '/' :: "libc.a".toList) with
      | none =>
        rw [Option.getD_none, afterLib, afterLiteral_eq_none.mpr (libPrefix.not.mpr isLib)]
        rfl
      | some rest =>
        -- the tuple is `usr`, and `libc.a` is no directory
        have split := afterLiteral_eq_some.mp usr
        have isUsr : name = "usr".toList ∧ "libc.a".toList = rest := by
          have same := congrArg (fun text => (text.takeWhile fun c => c != '/',
            (text.dropWhile fun c => c != '/').tail)) split
          rw [List.takeWhile_append_of_pos stays, List.dropWhile_append_of_pos stays] at same
          simpa using same
        rw [Option.getD_some, ← isUsr.2]
        decide
    rw [noLib]
    rfl

/-- The library directory is the name before the slash of `libc.a`, or before the tuple. -/
theorem keepLibdir_path (dir : Text) (layout : Layout) :
    keepLibdir (dir ++ '/' :: layout.path) =
      if layout.TupleIsLib then layout.tuple.getD [] else layout.libName := by
  obtain ⟨front, split⟩ : ∃ front, dir ++ '/' :: layout.path =
      front ++ '/' :: (layout.libName ++ '/' :: layout.file) := by
    rw [Layout.path, Layout.usrText]
    cases layout.usr with
    | false => exact ⟨dir, rfl⟩
    | true => exact ⟨dir ++ '/' :: "usr".toList, by rw [List.append_assoc]; rfl⟩
  have tupleForm := layout.tupleForm
  rw [split, keepLibdir]
  by_cases isLib : layout.TupleIsLib
  · rw [if_pos isLib]
    obtain ⟨name, isTuple, lib⟩ := isLib
    have form := tupleForm name isTuple
    have file : layout.file = name ++ '/' :: "libc.a".toList := by
      rw [Layout.file, Layout.tupleText, isTuple, Option.elim_some, List.append_assoc]
      rfl
    have last : libdirMatchFrom (name ++ '/' :: "libc.a".toList) = none := by
      rw [libdirMatchFrom_append form, libdirMatchFrom_slash (by decide), libdirMatchFrom_libcA]
    have isMatch := libdirMatch_tuple form
    rw [if_pos lib] at isMatch
    have found := libdirMatchFrom_last isMatch last (front ++ '/' :: layout.libName)
    rw [List.append_assoc, List.cons_append] at found
    rw [file, found, isTuple, Option.getD_some]
    exact List.append_nil name
  · have last : libdirMatchFrom (layout.libName ++ '/' :: layout.file) = none := by
      rw [libdirMatchFrom_append layout.libName_form]
      cases tuple : layout.tuple with
      | none =>
        have file : layout.file = "libc.a".toList := by
          rw [Layout.file, Layout.tupleText, tuple]
          rfl
        rw [file, libdirMatchFrom_slash (by decide), libdirMatchFrom_libcA]
      | some name =>
        have form := tupleForm name tuple
        have file : layout.file = name ++ '/' :: "libc.a".toList := by
          rw [Layout.file, Layout.tupleText, tuple, Option.elim_some, List.append_assoc]
          rfl
        have noMatch := libdirMatch_tuple form
        rw [if_neg fun lib => isLib ⟨name, tuple, lib⟩] at noMatch
        rw [file, libdirMatchFrom_slash noMatch, libdirMatchFrom_append form,
          libdirMatchFrom_slash (by decide), libdirMatchFrom_libcA]
    rw [if_neg isLib, libdirMatchFrom_last layout.libdirMatch_libName last front]
    exact List.append_nil _

/-! ### The sysroot -/

/-- The expression matches at a place inside the sysroot. -/
def MatchesInside (sysroot : Text) (layout : Layout) : Prop :=
  ∃ place, place <:+ sysroot ∧ place ≠ [] ∧ afterSysrootMatch (place ++ layout.path) ≠ none

theorem getLast?_path (layout : Layout) (front : Text) :
    (front ++ layout.path).getLast? = some 'a' := by
  have whole : front ++ layout.path = (front ++ (layout.usrText ++
      (layout.libName ++ '/' :: (layout.tupleText ++ "libc.".toList)))) ++ ['a'] := by
    simp [Layout.path]
  rw [whole, List.getLast?_concat]

theorem removeLibc_path_iff {sysroot : Text} (isDir : ∀ c ∈ sysroot.getLast?, c = '/')
    (layout : Layout) :
    removeLibc (sysroot ++ layout.path) = sysroot ↔ ¬MatchesInside sysroot layout := by
  induction sysroot with
  | nil =>
    have noPlace : ¬MatchesInside [] layout :=
      fun ⟨place, inside, nonempty, _⟩ => nonempty (List.suffix_nil.mp inside)
    refine iff_of_true ?_ noPlace
    have isMatch := layout.afterSysrootMatch_path
    rw [List.nil_append]
    revert isMatch
    cases layout.path with
    | nil => exact fun _ => rfl
    | cons c rest =>
      intro isMatch
      rw [removeLibc, isMatch]
  | cons c rest inductionHypothesis =>
    rw [List.cons_append, removeLibc]
    cases found : afterSysrootMatch (c :: (rest ++ layout.path)) with
    | some after =>
      refine iff_of_false (fun same => ?_) (not_not.mpr ⟨c :: rest, List.suffix_rfl,
        List.cons_ne_nil c rest, by rw [List.cons_append, found]; exact Option.some_ne_none after⟩)
      -- what is left behind a match ends as the path does
      obtain ⟨front, split⟩ := suffix_of_afterSysrootMatch found
      simp only at same
      rw [same] at split
      have lastPath := getLast?_path layout (c :: rest)
      rw [List.cons_append, ← split, List.getLast?_append_of_ne_nil _ (List.cons_ne_nil c rest)]
        at lastPath
      exact absurd (isDir 'a' lastPath) (by decide)
    | none =>
      have restDir : ∀ d ∈ rest.getLast?, d = '/' := by
        intro d isLast
        refine isDir d ?_
        cases rest with
        | nil => cases isLast
        | cons e tail => exact isLast
      have inside : MatchesInside (c :: rest) layout ↔ MatchesInside rest layout := by
        constructor
        · rintro ⟨place, isSuffix, nonempty, isMatch⟩
          rcases List.suffix_cons_iff.mp isSuffix with rfl | isSuffix
          · exact absurd found isMatch
          · exact ⟨place, isSuffix, nonempty, isMatch⟩
        · rintro ⟨place, isSuffix, nonempty, isMatch⟩
          exact ⟨place, isSuffix.trans (List.suffix_cons c rest), nonempty, isMatch⟩
      rw [inside, ← inductionHypothesis restDir]
      exact List.cons_inj_right c

/-- The first name of a text, or the second one, begins with `libc.a`. -/
def NamesLibcA (text : Text) : Prop :=
  "libc.a".toList <+: text ∨
    ∃ name rest, '/' ∉ name ∧ text = name ++ '/' :: rest ∧ "libc.a".toList <+: rest

/-- The sysroot ends with `usr/`, right before the library directory, or it has a `lib` with a name
that begins with `libc.a` next behind it or next but one. -/
def Mistakable (sysroot : Text) (layout : Layout) : Prop :=
  layout.usr = false ∧ "usr/".toList <:+ sysroot ∨
    ∃ before name behind, sysroot = before ++ ("lib".toList ++ (name ++ '/' :: behind)) ∧
      '/' ∉ name ∧ NamesLibcA (behind ++ layout.path)

/-- A sysroot without a `lib` that does not end with `usr/` is not mistaken. -/
theorem not_mistakable {sysroot : Text} (noLib : ¬"lib".toList <:+: sysroot)
    (noUsr : ¬"usr/".toList <:+ sysroot) (layout : Layout) : ¬Mistakable sysroot layout := by
  rintro (⟨-, isUsr⟩ | ⟨before, name, behind, split, -, -⟩)
  · exact noUsr isUsr
  · exact noLib ⟨before, name ++ '/' :: behind, by rw [split, List.append_assoc]⟩

theorem afterComponent_eq_some {text rest : Text} :
    afterComponent text = some rest ↔ ∃ name, '/' ∉ name ∧ text = name ++ '/' :: rest := by
  constructor
  · intro found
    have whole := List.takeWhile_append_dropWhile (p := fun c => c != '/') (l := text)
    have stops := List.head?_dropWhile_not (fun c => c != '/') text
    rw [afterComponent] at found
    cases behind : text.dropWhile fun c => c != '/' with
    | nil => rw [behind] at found; cases found
    | cons c tail =>
      rw [behind] at found whole stops
      have slash : c = '/' := by simpa using stops
      rw [slash, Option.some.inj found] at whole
      refine ⟨text.takeWhile fun c => c != '/', fun inside => ?_, whole.symm⟩
      have notSlash := @List.mem_takeWhile_imp _ (fun c : Char => c != '/') _ '/' inside
      exact bne_iff_ne.mp notSlash rfl
  · rintro ⟨name, form, rfl⟩
    exact afterComponent_append form rest

theorem bind_ne_none_iff {α β : Type} {value : Option α} {next : α → Option β} :
    value.bind next ≠ none ↔ ∃ item, value = some item ∧ next item ≠ none := by
  cases value with
  | none => simp
  | some item => simp

theorem afterFile_ne_none {text : Text} : afterFile afterLibcA text ≠ none ↔ NamesLibcA text := by
  have literal : ∀ text, afterLibcA text ≠ none ↔ "libc.a".toList <+: text := fun text => by
    rw [afterLibcA, ne_eq, afterLiteral_eq_none, not_not]
  rw [afterFile, NamesLibcA, ne_eq, Option.or_eq_none_iff, not_and_or, or_comm, ← ne_eq, literal,
    ← ne_eq, bind_ne_none_iff]
  refine or_congr_right ⟨?_, ?_⟩
  · rintro ⟨rest, found, isFile⟩
    obtain ⟨name, form, whole⟩ := afterComponent_eq_some.mp found
    exact ⟨name, rest, form, whole, (literal rest).mp isFile⟩
  · rintro ⟨name, rest, form, whole, isFile⟩
    exact ⟨rest, afterComponent_eq_some.mpr ⟨name, form, whole⟩, (literal rest).mpr isFile⟩

/-- A match at the head of a text, behind `usr/` if that is there. -/
theorem afterSysrootMatch_ne_none {text : Text} :
    afterSysrootMatch text ≠ none ↔ ∃ name rest, '/' ∉ name ∧
      afterUsr text = "lib".toList ++ (name ++ '/' :: rest) ∧ NamesLibcA rest := by
  rw [afterSysrootMatch, bind_ne_none_iff, afterLib]
  constructor
  · rintro ⟨rest, lib, isFile⟩
    obtain ⟨behind, literal, component⟩ := Option.bind_eq_some_iff.mp lib
    obtain ⟨name, form, rfl⟩ := afterComponent_eq_some.mp component
    exact ⟨name, rest, form, afterLiteral_eq_some.mp literal, afterFile_ne_none.mp isFile⟩
  · rintro ⟨name, rest, form, literal, isFile⟩
    refine ⟨rest, ?_, afterFile_ne_none.mpr isFile⟩
    rw [literal, afterLiteral_eq_some.mpr rfl, Option.bind_some, afterComponent_append form]

/-- A library directory in a text that ends with a slash ends in it. -/
theorem exists_behind {front tail name rest : Text} (form : '/' ∉ name)
    (same : front ++ '/' :: tail = "lib".toList ++ (name ++ '/' :: rest)) :
    ∃ behind, front ++ ['/'] = "lib".toList ++ (name ++ '/' :: behind) ∧ rest = behind ++ tail := by
  have libForm : '/' ∉ "lib".toList ++ name := by
    rw [List.mem_append, not_or]
    exact ⟨by decide, form⟩
  rw [← List.append_assoc] at same
  rcases List.append_eq_append_iff.mp same with ⟨inner, split, rest'⟩ | ⟨inner, split, rest'⟩
  · cases inner with
    | nil =>
      rw [List.append_nil] at split
      exact ⟨[], by rw [← List.append_assoc, split], (List.cons.inj rest').2.symm⟩
    | cons c inner =>
      refine absurd ?_ libForm
      rw [split, ← (List.cons.inj rest').1]
      exact List.mem_append_right _ List.mem_cons_self
  · cases inner with
    | nil =>
      rw [List.append_nil] at split
      exact ⟨[], by rw [← List.append_assoc, split], (List.cons.inj rest').2⟩
    | cons c inner =>
      obtain ⟨isSlash, isRest⟩ := List.cons.inj rest'
      refine ⟨inner ++ ['/'], ?_, by rw [isRest, List.append_assoc]; rfl⟩
      rw [split, ← isSlash]
      simp

theorem Layout.path_of_noUsr {layout : Layout} (noUsr : layout.usr = false) :
    layout.path = layout.libName ++ '/' :: layout.file := by
  rw [Layout.path, Layout.usrText, noUsr]
  rfl

theorem Layout.usr_of_path {layout : Layout} {rest : Text}
    (isLib : layout.path = "lib".toList ++ rest) : layout.usr = false := by
  cases usr : layout.usr with
  | false => rfl
  | true =>
    rw [Layout.path, Layout.usrText, usr] at isLib
    cases (List.cons.inj isLib).1

theorem Layout.namesLibcA_file (layout : Layout) : NamesLibcA layout.file := by
  rw [Layout.file, Layout.tupleText]
  have form := layout.tupleForm
  cases tuple : layout.tuple with
  | none => exact Or.inl List.prefix_rfl
  | some name =>
    refine Or.inr ⟨name, "libc.a".toList, form name tuple, ?_, List.prefix_rfl⟩
    rw [Option.elim_some, List.append_assoc, List.singleton_append]

theorem eq_usr_of_append {front tail : Text} (isUsr : "usr/".toList = front ++ '/' :: tail) :
    front = "usr".toList ∧ tail = [] := by
  have whole : "usr".toList ++ ['/'] = front ++ '/' :: tail := isUsr
  rcases List.append_eq_append_iff.mp whole with ⟨inner, split, rest⟩ | ⟨inner, split, rest⟩
  · rcases List.append_eq_singleton_iff.mp rest.symm with ⟨rfl, isTail⟩ | ⟨rfl, isTail⟩
    · exact ⟨by rw [split, List.append_nil], (List.cons.inj isTail).2⟩
    · cases isTail
  · cases inner with
    | nil => exact ⟨by rw [split, List.append_nil], (List.cons.inj rest).2⟩
    | cons c inner =>
      have inside : '/' ∈ "usr".toList := by
        rw [split, ← (List.cons.inj rest).1]
        exact List.mem_append_right _ List.mem_cons_self
      exact absurd inside (by decide)

/-- A match begins inside the sysroot exactly when its text can be mistaken. -/
theorem matchesInside_iff {sysroot : Text} (isDir : ∀ c ∈ sysroot.getLast?, c = '/')
    (layout : Layout) : MatchesInside sysroot layout ↔ Mistakable sysroot layout := by
  constructor
  · rintro ⟨place, isSuffix, nonempty, isMatch⟩
    obtain ⟨front, rfl⟩ : ∃ front, place = front ++ ['/'] := by
      rcases List.eq_nil_or_concat place with rfl | ⟨front, c, rfl⟩
      · exact absurd rfl nonempty
      · obtain ⟨before, rfl⟩ := isSuffix
        rw [List.concat_eq_append, ← List.append_assoc, List.getLast?_concat] at isDir
        exact ⟨front, by rw [isDir c rfl, List.concat_eq_append]⟩
    obtain ⟨name, rest, form, behindUsr, isFile⟩ := afterSysrootMatch_ne_none.mp isMatch
    rw [List.append_assoc, List.singleton_append, afterUsr] at behindUsr
    have mistaken : ∀ {inner : Text}, inner ++ ['/'] <:+ front ++ ['/'] →
        inner ++ '/' :: layout.path = "lib".toList ++ (name ++ '/' :: rest) →
        Mistakable sysroot layout := by
      intro inner isInner same
      obtain ⟨behind, split, rfl⟩ := exists_behind form same
      obtain ⟨before, whole⟩ := isInner.trans isSuffix
      exact Or.inr ⟨before, name, behind, by rw [← whole, split], form, isFile⟩
    cases usr : afterLiteral "usr/".toList (front ++ '/' :: layout.path) with
    | none =>
      rw [usr] at behindUsr
      exact mistaken List.suffix_rfl behindUsr
    | some text =>
      rw [usr, Option.getD_some] at behindUsr
      have split := afterLiteral_eq_some.mp usr
      rcases List.append_eq_append_iff.mp split with ⟨behind, isUsr, isText⟩ | ⟨inner, rfl, isText⟩
      · cases behind with
        | nil =>
          rw [List.nil_append, behindUsr] at isText
          cases (List.cons.inj isText).1
        | cons c tail =>
          obtain ⟨rfl, isPath⟩ := List.cons.inj isText
          obtain ⟨rfl, rfl⟩ := eq_usr_of_append isUsr
          have isLib : layout.path = "lib".toList ++ (name ++ '/' :: rest) :=
            isPath.trans behindUsr
          exact Or.inl ⟨Layout.usr_of_path isLib, isSuffix⟩
      · rw [isText] at behindUsr
        refine mistaken ?_ behindUsr
        rw [List.append_assoc]
        exact List.suffix_append _ _
  · rintro (⟨noUsr, isSuffix⟩ | ⟨before, name, behind, rfl, form, isFile⟩)
    · refine ⟨"usr/".toList, isSuffix, by decide, afterSysrootMatch_ne_none.mpr ?_⟩
      refine ⟨layout.width.elim [] Width.text ++ layout.suffix, layout.file,
        fun member => layout.libName_form (List.mem_append_right _ member), ?_,
        layout.namesLibcA_file⟩
      have found : afterLiteral "usr/".toList ("usr/".toList ++ layout.path) = some layout.path :=
        afterLiteral_eq_some.mpr rfl
      rw [afterUsr, found, Option.getD_some, Layout.path_of_noUsr noUsr, Layout.libName,
        List.append_assoc]
    · refine ⟨_, List.suffix_append _ _, by simp, afterSysrootMatch_ne_none.mpr ?_⟩
      refine ⟨name, behind ++ layout.path, form, ?_, isFile⟩
      have noUsr : afterLiteral "usr/".toList
          ("lib".toList ++ (name ++ '/' :: behind) ++ layout.path) = none := by
        rw [afterLiteral_eq_none, List.append_assoc]
        intro isPrefix
        cases (List.cons_prefix_cons.mp isPrefix).1
      rw [afterUsr, noUsr, Option.getD_none]
      simp

/-! ### Both -/

theorem printPath_of_plain {path : Text} (plain : isPlain path = true)
    (printf : Text → Text) : printPath printf path = path := if_pos plain

/-- The library directory alone leads to `libc.a` when nothing is before it or behind it. -/
theorem path_eq_iff (sysroot : Text) (layout : Layout) :
    sysroot ++ ((if layout.TupleIsLib then layout.tuple.getD [] else layout.libName) ++
        "/libc.a".toList) = sysroot ++ layout.path ↔ layout.usr = false ∧ layout.tuple = none := by
  rw [List.append_cancel_left_eq]
  constructor
  · intro same
    have lengths := congrArg List.length same
    rw [Layout.path, Layout.usrText, Layout.tupleText] at lengths
    by_cases isLib : layout.TupleIsLib
    · obtain ⟨name, isTuple, lib⟩ := isLib
      have isTuple' : layout.tuple = some name := isTuple
      rw [if_pos ⟨name, isTuple, lib⟩, isTuple', Layout.libName] at lengths
      simp at lengths
      omega
    · rw [if_neg isLib] at lengths
      cases usr : layout.usr with
      | true =>
        rw [usr] at lengths
        simp at lengths
      | false =>
        refine ⟨rfl, ?_⟩
        cases tuple : layout.tuple with
        | none => rfl
        | some name =>
          rw [usr, tuple] at lengths
          simp at lengths
  · rintro ⟨usr, tuple⟩
    have noTuple : ¬layout.TupleIsLib := by
      rintro ⟨name, isTuple, -⟩
      rw [tuple] at isTuple
      cases isTuple
    rw [if_neg noTuple, Layout.path, Layout.usrText, Layout.tupleText, usr, tuple]
    rfl

/-- The claim of both: the sysroot is found, and the library directory with `libc.a` behind it is
the path again. -/
def FindsBoth (printf : Text → Text) (sysroot : Text) (layout : Layout) : Prop :=
  toolchainFindSysroot printf (sysroot ++ layout.path) = sysroot ∧
    sysroot ++ (toolchainFindLibdir printf (sysroot ++ layout.path) ++ "/libc.a".toList) =
      sysroot ++ layout.path

/-- On the path of `libc.a` behind a sysroot: the first command returns the sysroot exactly when its
text is not mistakable, the second one the name of the library directory, or the tuple when that
begins with `lib`, and the two lead to `libc.a` exactly when, besides, the path has neither `usr/`
nor a tuple. -/
theorem find_libcA (printf : Text → Text) {sysroot : Text} (isDir : sysroot.getLast? = some '/')
    (layout : Layout) (plain : isPlain (sysroot ++ layout.path) = true) :
    (FindsBoth printf sysroot layout ↔
        ¬Mistakable sysroot layout ∧ layout.usr = false ∧ layout.tuple = none) ∧
      (toolchainFindSysroot printf (sysroot ++ layout.path) = sysroot ↔
        ¬Mistakable sysroot layout) ∧
      toolchainFindLibdir printf (sysroot ++ layout.path) =
        (if layout.TupleIsLib then layout.tuple.getD [] else layout.libName) := by
  have isSlash : ∀ c ∈ sysroot.getLast?, c = '/' := by
    intro c isLast
    rw [isDir] at isLast
    exact (Option.some.inj isLast).symm
  have libdir : toolchainFindLibdir printf (sysroot ++ layout.path) =
      if layout.TupleIsLib then layout.tuple.getD [] else layout.libName := by
    obtain ⟨dir, rfl⟩ := List.getLast?_eq_some_iff.mp isDir
    rw [toolchainFindLibdir, printPath_of_plain plain, List.append_assoc]
    exact keepLibdir_path dir layout
  have found : toolchainFindSysroot printf (sysroot ++ layout.path) = sysroot ↔
      ¬Mistakable sysroot layout := by
    rw [toolchainFindSysroot, printPath_of_plain plain, removeLibc_path_iff isSlash,
      matchesInside_iff isSlash]
  refine ⟨?_, found, libdir⟩
  rw [FindsBoth, found, libdir, path_eq_iff]

/-- `lib64/`. -/
def lib64 : Layout := ⟨false, some .w64, [], none, by decide, by decide⟩

theorem find_libcA_lib64 : FindsBoth id "/opt/arm/sysroot/".toList lib64 := by
  have isDir : "/opt/arm/sysroot/".toList.getLast? = some '/' := by decide
  have ordinary := not_mistakable (by decide : ¬"lib".toList <:+: "/opt/arm/sysroot/".toList)
    (by decide) lib64
  exact (find_libcA id isDir lib64 (by decide)).1.mpr ⟨ordinary, by decide⟩

/-- A directory that is called `libc` is not taken for a sysroot. -/
theorem sysroot_loses_libc :
    toolchainFindSysroot id ("/opt/arm/libc/".toList ++ lib64.path) = "/opt/arm/".toList ∧
      ¬FindsBoth id "/opt/arm/libc/".toList lib64 := by
  have found : toolchainFindSysroot id ("/opt/arm/libc/".toList ++ lib64.path) =
      "/opt/arm/".toList := by decide +kernel
  refine ⟨found, fun both => ?_⟩
  have same := both.1
  rw [found] at same
  exact absurd same (by decide)

end Buildroot4G.Toolchain
