/-
This file models the hook `SYSTEM_HOSTNAME` of `package/skeleton/skeleton.mk`, which writes the
host name to `/etc/hostname` and, with one `sed`, to the entry for 127.0.1.1 of `/etc/hosts`. The
address of the `sed` has dots for any character and no end, and an empty file has no last line to
append to. The main result says that the edit is right exactly when the file has a line and its
entries for 127.0.1.1 are the lines that begin with the numbers of that address.
-/

import Buildroot4G.Shell.Python

namespace Buildroot4G.Skeleton

open Shell

/-- A host name of the configuration. The hook is defined only for one that is not empty. -/
structure HostName where
  text : Text
  nonempty : text ≠ []
  plain : ∀ c ∈ text, c.isAlphanum || c = '-' || c = '.'

/-- The files of `/etc` that the hook writes. -/
structure Etc where
  hostname : Option Text
  hosts : Option Text
  deriving DecidableEq

def address : Text := "127.0.1.1".toList

/-- The line that `$a` appends. -/
def newEntry (host : HostName) : Text := address ++ '\t' :: host.text

/-- A regular expression whose only special character is the dot matches at the beginning. -/
def matchesAtStart : Text → Text → Bool
  | [], _ => true
  | _ :: _, [] => false
  | c :: pattern, d :: text => (c = '.' || c = d) && matchesAtStart pattern text

/-- `/^127.0.1.1/`. -/
def deletes (line : Text) : Bool := matchesAtStart address line

/-- The lines that `sed` writes: `$a` queues its line behind the last one, and `d` only keeps a
line from being written. -/
def sedLines (host : HostName) : List Text → List Text
  | [] => []
  | [line] => (if deletes line then [] else [line]) ++ [newEntry host]
  | line :: rest => (if deletes line then [] else [line]) ++ sedLines host rest

def unlines (lines : List Text) : Text := lines.flatMap fun line => line ++ ['\n']

/-- The `sed` of the hook. A last line without a newline gets one when `$a` writes behind it. -/
def editHosts (host : HostName) (content : Text) : Text :=
  unlines (sedLines host (fileLines content))

/-- The hook: the files after it and the exit status; `sed` has to find its file. -/
def systemHostname (host : HostName) (etc : Etc) : Etc × ℕ :=
  let written := { etc with hostname := some (host.text ++ ['\n']) }
  match etc.hosts with
  | none => (written, 2)
  | some content => ({ written with hosts := some (editHosts host content) }, 0)

/-! ### What the hook is for -/

/-- A line of `/etc/hosts` is an entry for the address: it is its first word, before a comment. -/
def isEntry (line : Text) : Bool := field (line.takeWhile fun c => c ≠ '#') 1 = address

/-- The hook replaces the entries for the address by a new one at the end, and changes nothing the
next time. -/
structure SetsHostname (host : HostName) (content : Text) : Prop where
  replaced : ∀ hostname, systemHostname host ⟨hostname, some content⟩ =
    (⟨some (host.text ++ ['\n']), some (unlines
      (((fileLines content).filter fun line => !isEntry line) ++ [newEntry host]))⟩, 0)
  again : ∀ hostname, systemHostname host (systemHostname host ⟨hostname, some content⟩).1 =
    systemHostname host ⟨hostname, some content⟩

variable {host : HostName} {content : Text}

/-! ### The lines of the edit -/

theorem matchesAtStart_append (pattern rest : Text) :
    matchesAtStart pattern (pattern ++ rest) = true := by
  induction pattern with
  | nil => rfl
  | cons c pattern inductionHypothesis =>
    rw [List.cons_append, matchesAtStart, inductionHypothesis, decide_eq_true (rfl : c = c),
      Bool.or_true, Bool.and_true]

theorem deletes_newEntry (host : HostName) : deletes (newEntry host) = true :=
  matchesAtStart_append address _

theorem sedLines_eq (host : HostName) {lines : List Text} (nonempty : lines ≠ []) :
    sedLines host lines = (lines.filter fun line => !deletes line) ++ [newEntry host] := by
  induction lines with
  | nil => exact absurd rfl nonempty
  | cons line rest inductionHypothesis =>
    have kept : (if deletes line then [] else [line]) =
        [line].filter fun line => !deletes line := by
      cases isDeleted : deletes line <;> simp [isDeleted]
    cases rest with
    | nil => rw [sedLines, kept]
    | cons second rest =>
      rw [sedLines, kept, inductionHypothesis (List.cons_ne_nil _ _), ← List.append_assoc,
        ← List.filter_append, List.singleton_append]
      exact fun impossible => nomatch impossible

theorem newline_not_mem_newEntry (host : HostName) : '\n' ∉ newEntry host := by
  intro inside
  rcases List.mem_append.mp inside with left | right
  · exact absurd left (by decide)
  · rcases List.mem_cons.mp right with tab | right
    · exact absurd tab (by decide)
    · exact absurd (host.plain '\n' right) (by decide)

theorem newline_not_mem_fileLines {line : Text} (member : line ∈ fileLines content) :
    '\n' ∉ line := by
  have piece : line ∈ content.splitOn '\n' := by
    rw [fileLines] at member
    split at member
    · exact List.dropLast_subset _ member
    · exact member
  exact not_mem_of_mem_splitOn piece

theorem fileLines_unlines {lines : List Text} (plain : ∀ line ∈ lines, '\n' ∉ line) :
    fileLines (unlines lines) = lines := by
  rw [unlines, fileLines_flatMap (fun line => line) plain, List.map_id']

theorem fileLines_eq_nil_iff : fileLines content = [] ↔ content = [] := by
  constructor
  · intro empty
    have pieces := List.splitOn_ne_nil '\n' content
    rw [fileLines] at empty
    split at empty
    · rename_i last
      have one : content.splitOn '\n' = [[]] := by
        rw [← List.dropLast_append_getLast? [] last, empty, List.nil_append]
      have whole : ['\n'].intercalate (content.splitOn '\n') = content :=
        List.intercalate_splitOn '\n'
      rw [one] at whole
      exact whole.symm
    · exact absurd empty pieces
  · rintro rfl
    rfl

theorem plain_append_newEntry (host : HostName) (content : Text) (kept : Text → Bool) :
    ∀ line ∈ (fileLines content).filter kept ++ [newEntry host], '\n' ∉ line := by
  intro line member
  rcases List.mem_append.mp member with old | new
  · exact newline_not_mem_fileLines (List.mem_filter.mp old).1
  · rw [List.mem_singleton.mp new]
    exact newline_not_mem_newEntry host

/-- A second edit finds the entry of the first one on the last line, and writes it again. -/
theorem editHosts_editHosts (host : HostName) (content : Text) :
    editHosts host (editHosts host content) = editHosts host content := by
  by_cases empty : fileLines content = []
  · rw [editHosts, editHosts, empty]
    rfl
  · have plain := plain_append_newEntry host content fun line => !deletes line
    rw [editHosts, editHosts, sedLines_eq host empty, fileLines_unlines plain,
      sedLines_eq host (List.append_ne_nil_of_right_ne_nil _ (List.cons_ne_nil _ _)),
      List.filter_append, List.filter_filter]
    simp [deletes_newEntry]

theorem systemHostname_some (host : HostName) (hostname : Option Text) (content : Text) :
    systemHostname host ⟨hostname, some content⟩ =
      (⟨some (host.text ++ ['\n']), some (editHosts host content)⟩, 0) := rfl

/-! ### When the edit is right -/

/-- The line begins with the four numbers of the address, whatever is between two of them and
behind the last one. -/
def BeginsAlike (line : Text) : Prop :=
  ∃ first second third rest,
    line = "127".toList ++ first :: '0' :: second :: '1' :: third :: '1' :: rest

/-- The file has a line, and its entries for the address are the lines that begin alike. -/
def Matched (content : Text) : Prop :=
  content ≠ [] ∧ ∀ line ∈ fileLines content, BeginsAlike line ↔ isEntry line = true

theorem matchesAtStart_dot {pattern text : Text} :
    matchesAtStart ('.' :: pattern) text = true ↔
      ∃ d rest, text = d :: rest ∧ matchesAtStart pattern rest = true := by
  cases text <;> simp [matchesAtStart]

theorem matchesAtStart_cons {c : Char} {pattern text : Text} (plain : c ≠ '.') :
    matchesAtStart (c :: pattern) text = true ↔
      ∃ rest, text = c :: rest ∧ matchesAtStart pattern rest = true := by
  cases text with
  | nil => simp [matchesAtStart]
  | cons d text =>
    simp only [matchesAtStart, decide_eq_false plain, Bool.false_or, Bool.and_eq_true,
      decide_eq_true_eq]
    constructor
    · rintro ⟨rfl, inRest⟩
      exact ⟨text, rfl, inRest⟩
    · rintro ⟨rest, same, inRest⟩
      cases same
      exact ⟨rfl, inRest⟩

theorem deletes_iff {line : Text} : deletes line = true ↔ BeginsAlike line := by
  have pattern : address = ['1', '2', '7', '.', '0', '.', '1', '.', '1'] := rfl
  have digit : ∀ c ∈ ['0', '1', '2', '7'], c ≠ '.' := by decide
  rw [deletes, pattern, matchesAtStart_cons (digit _ (by decide))]
  simp only [matchesAtStart_dot, matchesAtStart_cons (digit '0' (by decide)),
    matchesAtStart_cons (digit '1' (by decide)), matchesAtStart_cons (digit '2' (by decide)),
    matchesAtStart_cons (digit '7' (by decide))]
  constructor
  · rintro ⟨_, rfl, _, rfl, _, rfl, first, _, rfl, _, rfl, second, _, rfl, _, rfl, third, _, rfl,
      rest, rfl, -⟩
    exact ⟨first, second, third, rest, rfl⟩
  · rintro ⟨first, second, third, rest, rfl⟩
    exact ⟨_, rfl, _, rfl, _, rfl, first, _, rfl, _, rfl, second, _, rfl, _, rfl, third, _, rfl,
      rest, rfl, rfl⟩

theorem deletes_eq_isEntry_iff {line : Text} :
    deletes line = isEntry line ↔ (BeginsAlike line ↔ isEntry line = true) := by
  rw [← deletes_iff, Bool.eq_iff_iff]

/-- The lines of an edit that is right. -/
theorem SetsHostname.kept_eq (sets : SetsHostname host content) (nonempty : content ≠ []) :
    ((fileLines content).filter fun line => !deletes line) =
      (fileLines content).filter fun line => !isEntry line := by
  have lines : fileLines content ≠ [] := fun empty => nonempty (fileLines_eq_nil_iff.mp empty)
  have replaced := sets.replaced none
  rw [systemHostname_some, editHosts, sedLines_eq host lines] at replaced
  have texts := Option.some.inj (congrArg (fun result => result.1.hosts) replaced)
  have same := congrArg fileLines texts
  rw [fileLines_unlines (plain_append_newEntry host content _),
    fileLines_unlines (plain_append_newEntry host content _)] at same
  exact (List.append_inj' same rfl).1

/-- The hook is right for a file exactly when the address of its `sed` is. -/
theorem setsHostname_iff (host : HostName) (content : Text) :
    SetsHostname host content ↔ Matched content := by
  constructor
  · intro sets
    have nonempty : content ≠ [] := by
      rintro rfl
      have replaced := sets.replaced none
      have texts := Option.some.inj (congrArg (fun result => result.1.hosts) replaced)
      have lengths := congrArg List.length texts
      simp [editHosts, unlines, sedLines, fileLines] at lengths
    refine ⟨nonempty, fun line member => deletes_eq_isEntry_iff.mp ?_⟩
    have lines := sets.kept_eq nonempty
    cases isDeleted : deletes line with
    | false =>
      have kept : line ∈ (fileLines content).filter fun line => !deletes line :=
        List.mem_filter.mpr ⟨member, by rw [isDeleted]; rfl⟩
      rw [lines, List.mem_filter, Bool.not_eq_true'] at kept
      exact kept.2.symm
    | true =>
      cases entry : isEntry line with
      | true => rfl
      | false =>
        have kept : line ∈ (fileLines content).filter fun line => !isEntry line :=
          List.mem_filter.mpr ⟨member, by rw [entry]; rfl⟩
        rw [← lines, List.mem_filter, isDeleted] at kept
        cases kept.2
  · rintro ⟨nonempty, matched⟩
    have lines : fileLines content ≠ [] := fun empty => nonempty (fileLines_eq_nil_iff.mp empty)
    have kept : ((fileLines content).filter fun line => !deletes line) =
        (fileLines content).filter fun line => !isEntry line :=
      List.filter_congr fun line member => by
        rw [deletes_eq_isEntry_iff.mpr (matched line member)]
    refine ⟨fun hostname => ?_, fun hostname => ?_⟩
    · rw [systemHostname_some, editHosts, sedLines_eq host lines, kept]
    · rw [systemHostname_some, systemHostname_some, editHosts_editHosts]

/-- The host name of the default configuration. -/
def buildroot : HostName := ⟨"buildroot".toList, by decide, by decide⟩

/-- The entry for 127.0.1.10 is lost. -/
theorem not_setsHostname_near :
    ¬SetsHostname buildroot "127.0.0.1\tlocalhost\n127.0.1.10\tprinter\n".toList := by
  intro sets
  have lines := sets.kept_eq (by decide)
  exact absurd lines (by decide)

end Buildroot4G.Skeleton
