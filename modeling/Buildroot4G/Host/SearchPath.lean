/-
This file models the checks of `support/dependencies/dependencies.sh` for the current directory in
`LD_LIBRARY_PATH` and `PATH`. Each writes the value between two markers and looks for patterns in
the text. The check of `PATH` has no patterns for an empty component, which means the current
directory as well, and both can find a marker in the value itself. The main result says for
which values the two checks fail exactly when a component means the current directory.

The `echo` of the shell is a parameter, since some interpret a backslash. The patterns have no
newline, so that `grep` finds them in a line when they are in the text. The value of a variable
that is not set is empty.
-/

import Buildroot4G.Shell.Pieces

namespace Buildroot4G.Dependencies

open Shell

def triggerStart : Text := "TRiGGER_start".toList

def triggerEnd : Text := "TRiGGER_end".toList

/-- What `echo` is given for a value. -/
def marked (value : Text) : Text := triggerStart ++ value ++ triggerEnd

/-- The patterns of the check of `LD_LIBRARY_PATH`. -/
def ldLibraryPathPatterns : List Text :=
  ["::".toList, ":.:".toList, triggerStart ++ ":".toList, triggerStart ++ ".:".toList,
    ":".toList ++ triggerEnd, ":.".toList ++ triggerEnd, triggerStart ++ ".".toList ++ triggerEnd]

/-- The patterns of the check of `PATH`. -/
def pathPatterns : List Text :=
  [":.:".toList, triggerStart ++ ".:".toList, ":.".toList ++ triggerEnd,
    triggerStart ++ ".".toList ++ triggerEnd]

/-- What a failed check writes. -/
def currentDirectoryMessage (name : Text) : Text :=
  "\nYou seem to have the current working directory in your\n".toList ++ name ++
    " environment variable. This doesn't work.\n".toList

section Checks

variable (echo : Text → Text)

/-- The check of one variable: the exit status and what is written, or the script goes on. -/
def checkVariable (name : Text) (patterns : List Text) (value : Text) :
    Except (ℕ × Text) Unit :=
  if value ≠ [] ∧ patterns.any fun pattern => grep pattern (echo (marked value)) then
    .error (1, currentDirectoryMessage name)
  else .ok ()

def checkLdLibraryPath (value : Text) : Except (ℕ × Text) Unit :=
  checkVariable echo "LD_LIBRARY_PATH".toList ldLibraryPathPatterns value

def checkPath (value : Text) : Except (ℕ × Text) Unit :=
  checkVariable echo "PATH".toList pathPatterns value

end Checks

/-! ### What the checks are for -/

def components (value : Text) : List Text := value.splitOn ':'

/-- A component means the current directory. -/
def HasCurrentDirectory (value : Text) : Prop :=
  value ≠ [] ∧ ∃ component ∈ components value, component = [] ∨ component = ['.']

def Fails (check : Except (ℕ × Text) Unit) : Prop := ∃ failure, check = .error failure

/-- The two checks find the current directory, and nothing else. -/
def ChecksCurrentDirectory (echo : Text → Text) (ldLibraryPath path : Text) : Prop :=
  (Fails (checkLdLibraryPath echo ldLibraryPath) ↔ HasCurrentDirectory ldLibraryPath) ∧
    (Fails (checkPath echo path) ↔ HasCurrentDirectory path)

/-- A value shows a marker to the check: one of the patterns with a marker is in the value, or is
made by a marker of the value and the one of `echo`. -/
def Misleads (patterns : List Text) (value : Text) : Prop :=
  (∃ pattern ∈ patterns, pattern <:+: value) ∨ ".".toList ++ triggerEnd <+: value ∨
    triggerStart ++ ".".toList <:+ value

instance (patterns : List Text) (value : Text) : Decidable (Misleads patterns value) :=
  inferInstanceAs (Decidable (_ ∨ _ ∨ _))

/-- The patterns of the check of `LD_LIBRARY_PATH` that have a marker. -/
def ldLibraryPathMarkers : List Text := ldLibraryPathPatterns.drop 2

/-- The patterns of the check of `PATH` that have a marker. -/
def pathMarkers : List Text := pathPatterns.drop 1

variable {value : Text}

theorem fails_iff {echo : Text → Text} (asIs : echo (marked value) = marked value)
    (name : Text) (patterns : List Text) :
    Fails (checkVariable echo name patterns value) ↔
      value ≠ [] ∧ ∃ pattern ∈ patterns, pattern <:+: marked value := by
  have found : (patterns.any fun pattern => grep pattern (echo (marked value))) = true ↔
      ∃ pattern ∈ patterns, pattern <:+: marked value := by
    rw [asIs, List.any_eq_true]
    simp only [grep_eq_true]
  rw [← found, checkVariable, Fails]
  split_ifs with both
  · exact iff_of_true ⟨_, rfl⟩ both
  · refine iff_of_false ?_ both
    rintro ⟨_, impossible⟩
    cases impossible

/-! ### Where the patterns occur -/

/-- Between two colons a component is in the value. -/
theorem colons_infix_iff (component : Text) :
    ':' :: (component ++ [':']) <:+: marked value ↔ ':' :: (component ++ [':']) <:+: value := by
  have inside : (':' :: component) ++ [':'] <:+: value ++ triggerEnd ↔
      (':' :: component) ++ [':'] <:+: value := append_singleton_infix_iff (by decide)
  rw [marked, List.append_assoc, cons_infix_append_iff (by decide)]
  exact inside

/-- Between the first marker and a colon it begins the value, or the marker is in the value. -/
theorem triggerStart_infix_iff (component : Text) :
    triggerStart ++ (component ++ [':']) <:+: marked value ↔
      component ++ [':'] <+: value ∨ triggerStart ++ (component ++ [':']) <:+: value := by
  have begins : component ++ [':'] <+: value ++ triggerEnd ↔ component ++ [':'] <+: value :=
    append_singleton_prefix_iff (by decide)
  have inside : triggerStart ++ (component ++ [':']) <:+: value ++ triggerEnd ↔
      triggerStart ++ (component ++ [':']) <:+: value := by
    rw [← List.append_assoc]
    exact append_singleton_infix_iff (by decide)
  rw [marked, List.append_assoc, ← begins, ← inside]
  exact marker_infix_iff (by decide)

/-- A pattern that ends with the last marker is found at the end of the value, or in it. -/
theorem infix_triggerEnd_iff (pattern : Text) :
    pattern ++ triggerEnd <:+: value ++ triggerEnd ↔
      pattern <:+ value ∨ pattern ++ triggerEnd <:+: value :=
  infix_marker_iff (show 'd' ∉ "TRiGGER_en".toList by decide)

/-- Between a colon and the last marker it ends the value, or the marker is in the value. -/
theorem colon_triggerEnd_infix_iff (component : Text) :
    ':' :: (component ++ triggerEnd) <:+: marked value ↔
      ':' :: component <:+ value ∨ ':' :: (component ++ triggerEnd) <:+: value := by
  rw [marked, List.append_assoc, cons_infix_append_iff (by decide)]
  exact infix_triggerEnd_iff (':' :: component)

/-- Between the markers a dot is the value, or a marker is in the value. -/
theorem dot_infix_iff :
    triggerStart ++ ".".toList ++ triggerEnd <:+: marked value ↔
      value = ".".toList ∨ ".".toList ++ triggerEnd <+: value ∨
        triggerStart ++ ".".toList <:+ value ∨
          triggerStart ++ ".".toList ++ triggerEnd <:+: value := by
  have begins : ".".toList ++ triggerEnd <+: value ++ triggerEnd ↔
      value = ".".toList ∨ ".".toList ++ triggerEnd <+: value := by
    cases value with
    | nil => decide
    | cons first rest =>
      have ends : triggerEnd <+: rest ++ triggerEnd ↔ rest = [] ∨ triggerEnd <+: rest :=
        marker_prefix_append_iff (show 'T' ∉ "RiGGER_end".toList by decide)
      show '.' :: triggerEnd <+: first :: (rest ++ triggerEnd) ↔
        first :: rest = ['.'] ∨ '.' :: triggerEnd <+: first :: rest
      rw [List.cons_prefix_cons, List.cons_prefix_cons, ends, List.cons.injEq]
      tauto
  rw [← or_assoc, ← begins, ← infix_triggerEnd_iff, marked, List.append_assoc, List.append_assoc]
  exact marker_infix_iff (by decide)

/-! ### Where the components are -/

theorem nil_mem_components_iff (nonempty : value ≠ []) :
    [] ∈ components value ↔
      [] ++ [':'] <+: value ∨ [':'] <:+ value ∨ ':' :: ([] ++ [':']) <:+: value := by
  rw [components, mem_splitOn_iff List.not_mem_nil, or_iff_right nonempty.symm]

theorem dot_mem_components_iff :
    ['.'] ∈ components value ↔
      value = ".".toList ∨ ['.'] ++ [':'] <+: value ∨ [':', '.'] <:+ value ∨
        ':' :: (['.'] ++ [':']) <:+: value := by
  rw [components, mem_splitOn_iff (by decide), eq_comm]
  rfl

theorem hasCurrentDirectory_iff (nonempty : value ≠ []) :
    HasCurrentDirectory value ↔ [] ∈ components value ∨ ['.'] ∈ components value := by
  rw [HasCurrentDirectory, and_iff_right nonempty]
  constructor
  · rintro ⟨component, member, rfl | rfl⟩
    · exact Or.inl member
    · exact Or.inr member
  · rintro (member | member)
    · exact ⟨_, member, Or.inl rfl⟩
    · exact ⟨_, member, Or.inr rfl⟩

/-! ### The two checks -/

theorem exists_mem_pathMarkers (holds : Text → Prop) :
    (∃ pattern ∈ pathMarkers, holds pattern) ↔
      holds (triggerStart ++ (['.'] ++ [':'])) ∨ holds (':' :: (['.'] ++ triggerEnd)) ∨
        holds (triggerStart ++ ".".toList ++ triggerEnd) := by
  rw [show pathMarkers = [triggerStart ++ (['.'] ++ [':']), ':' :: (['.'] ++ triggerEnd),
    triggerStart ++ ".".toList ++ triggerEnd] from rfl]
  simp only [List.mem_cons, exists_eq_or_imp, List.not_mem_nil, or_false, exists_eq_left]

theorem exists_mem_ldLibraryPathMarkers (holds : Text → Prop) :
    (∃ pattern ∈ ldLibraryPathMarkers, holds pattern) ↔
      holds (triggerStart ++ ([] ++ [':'])) ∨ holds (triggerStart ++ (['.'] ++ [':'])) ∨
        holds (':' :: ([] ++ triggerEnd)) ∨ holds (':' :: (['.'] ++ triggerEnd)) ∨
          holds (triggerStart ++ ".".toList ++ triggerEnd) := by
  rw [show ldLibraryPathMarkers = [triggerStart ++ ([] ++ [':']), triggerStart ++ (['.'] ++ [':']),
    ':' :: ([] ++ triggerEnd), ':' :: (['.'] ++ triggerEnd),
    triggerStart ++ ".".toList ++ triggerEnd] from rfl]
  simp only [List.mem_cons, exists_eq_or_imp, List.not_mem_nil, or_false, exists_eq_left]

/-- The check of `LD_LIBRARY_PATH` finds every such component, and the markers in the value. -/
theorem fails_checkLdLibraryPath_iff {echo : Text → Text}
    (asIs : echo (marked value) = marked value) :
    Fails (checkLdLibraryPath echo value) ↔
      HasCurrentDirectory value ∨ Misleads ldLibraryPathMarkers value := by
  have split : (∃ pattern ∈ ldLibraryPathPatterns, pattern <:+: marked value) ↔
      ':' :: ([] ++ [':']) <:+: marked value ∨ ':' :: (['.'] ++ [':']) <:+: marked value ∨
        ∃ pattern ∈ ldLibraryPathMarkers, pattern <:+: marked value := by
    rw [show ldLibraryPathPatterns = (':' :: ([] ++ [':'])) :: (':' :: (['.'] ++ [':'])) ::
      ldLibraryPathMarkers from rfl]
    simp only [List.mem_cons, exists_eq_or_imp]
  rw [checkLdLibraryPath, fails_iff asIs]
  by_cases nonempty : value = []
  · rw [nonempty, HasCurrentDirectory]
    decide
  · rw [and_iff_right nonempty, split, exists_mem_ldLibraryPathMarkers, colons_infix_iff,
      colons_infix_iff, triggerStart_infix_iff, triggerStart_infix_iff, colon_triggerEnd_infix_iff,
      colon_triggerEnd_infix_iff, dot_infix_iff, Misleads, exists_mem_ldLibraryPathMarkers,
      hasCurrentDirectory_iff nonempty, nil_mem_components_iff nonempty, dot_mem_components_iff]
    grind only

/-- The check of `PATH` finds a dot, and the markers in the value. -/
theorem fails_checkPath_iff {echo : Text → Text} (asIs : echo (marked value) = marked value) :
    Fails (checkPath echo value) ↔ ['.'] ∈ components value ∨ Misleads pathMarkers value := by
  have split : (∃ pattern ∈ pathPatterns, pattern <:+: marked value) ↔
      ':' :: (['.'] ++ [':']) <:+: marked value ∨
        ∃ pattern ∈ pathMarkers, pattern <:+: marked value := by
    rw [show pathPatterns = (':' :: (['.'] ++ [':'])) :: pathMarkers from rfl]
    simp only [List.mem_cons, exists_eq_or_imp]
  rw [checkPath, fails_iff asIs]
  by_cases nonempty : value = []
  · rw [nonempty]
    decide
  · rw [and_iff_right nonempty, split, exists_mem_pathMarkers, colons_infix_iff,
      triggerStart_infix_iff, colon_triggerEnd_infix_iff, dot_infix_iff, Misleads,
      exists_mem_pathMarkers, dot_mem_components_iff]
    grind only

/-- The checks fail for the current directory exactly when the value of `LD_LIBRARY_PATH` has it or
shows no marker, and that of `PATH` has it as a dot, or shows a marker just when a component is
empty. -/
theorem checksCurrentDirectory_iff (echo : Text → Text) (ldLibraryPath path : Text)
    (asIs : ∀ value ∈ [ldLibraryPath, path], echo (marked value) = marked value) :
    ChecksCurrentDirectory echo ldLibraryPath path ↔
      (HasCurrentDirectory ldLibraryPath ∨ ¬Misleads ldLibraryPathMarkers ldLibraryPath) ∧
        (['.'] ∈ components path ∨
          (Misleads pathMarkers path ↔ path ≠ [] ∧ [] ∈ components path)) := by
  have dotNonempty : ['.'] ∈ components path → path ≠ [] := by
    rintro member rfl
    exact absurd member (by decide)
  rw [ChecksCurrentDirectory,
    fails_checkLdLibraryPath_iff (asIs ldLibraryPath List.mem_cons_self),
    fails_checkPath_iff (asIs path (List.mem_cons_of_mem _ List.mem_cons_self))]
  have found : HasCurrentDirectory path ↔
      path ≠ [] ∧ [] ∈ components path ∨ ['.'] ∈ components path := by
    by_cases nonempty : path ≠ []
    · rw [hasCurrentDirectory_iff nonempty, and_iff_right nonempty]
    · rw [HasCurrentDirectory]
      tauto
  rw [found]
  refine and_congr ⟨fun agree => ?_, fun agree => ?_⟩ ?_
  · tauto
  · tauto
  · by_cases dot : ['.'] ∈ components path
    · simp only [dot, true_or, or_true]
    · simp only [dot, false_or, or_false]

/-- A user's `PATH`, and one of `LD_LIBRARY_PATH` that ends with the current directory. -/
theorem checksCurrentDirectory_iff_usual :
    ChecksCurrentDirectory id "/opt/lib:".toList "/usr/local/bin:/usr/bin".toList ↔
      (HasCurrentDirectory "/opt/lib:".toList ∨
          ¬Misleads ldLibraryPathMarkers "/opt/lib:".toList) ∧
        (['.'] ∈ components "/usr/local/bin:/usr/bin".toList ∨
          (Misleads pathMarkers "/usr/local/bin:/usr/bin".toList ↔
            "/usr/local/bin:/usr/bin".toList ≠ [] ∧
              [] ∈ components "/usr/local/bin:/usr/bin".toList)) :=
  checksCurrentDirectory_iff id "/opt/lib:".toList "/usr/local/bin:/usr/bin".toList
    (fun _ _ => rfl)

/-- A `PATH` that begins with an empty component is not found. -/
theorem not_checksCurrentDirectory_leading :
    ¬ChecksCurrentDirectory id [] ":/usr/bin".toList := by
  intro agree
  have current : HasCurrentDirectory ":/usr/bin".toList := by
    rw [HasCurrentDirectory]
    exact ⟨by decide, [], by decide, Or.inl rfl⟩
  have fails := agree.2.mpr current
  rw [fails_checkPath_iff (show id (marked _) = marked _ from rfl)] at fails
  exact absurd fails (by decide)

end Buildroot4G.Dependencies
