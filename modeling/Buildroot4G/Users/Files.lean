/-
This file models the files `mkusers` edits and the commands it edits them with. A
line of `passwd`, `shadow`, `group` or `gshadow` is the list of its fields between
colons, and a file is the list of its lines, the last of which may have no newline: what
is printed behind it is then printed to that line.

A user or group name is pasted into sed expressions. For a name without special
characters the expressions are literal, and that is what is modelled here; for any
other name the result is whatever the tool makes of it, a parameter. The same holds
for the other places where a shell looks at the characters of a name.
-/

import Buildroot4G.Shell.Number
import Buildroot4G.Shell.Read

namespace Buildroot4G.Users

open Shell

/-- A line, by its fields. An empty line has none. -/
abbrev Line := List Text

/-- The lines of a file, and whether the last one ends in a newline. -/
@[ext]
structure File where
  lines : List Line
  ended : Bool
  deriving DecidableEq, Repr

instance : Membership Line File := ⟨fun file line => line ∈ file.lines⟩

instance (file : File) (holds : Line → Prop) [DecidablePred holds] :
    Decidable (∀ line ∈ file, holds line) :=
  inferInstanceAs (Decidable (∀ line ∈ file.lines, holds line))

instance (file : File) (holds : Line → Prop) [DecidablePred holds] :
    Decidable (∃ line ∈ file, holds line) :=
  inferInstanceAs (Decidable (∃ line ∈ file.lines, holds line))

/-- sed deletes lines: when the last one goes, the line before it has its newline. -/
def File.filter (keeps : Line → Bool) (file : File) : File where
  lines := file.lines.filter keeps
  ended := file.ended || !file.lines.getLast?.all keeps

/-- sed changes lines, and leaves the end of the file as it is. -/
def File.map (change : Line → Line) (file : File) : File where
  lines := file.lines.map change
  ended := file.ended

/-- A text printed behind a line: the last field is continued by the first one. -/
def joinLine : Line → Line → Line
  | [], new => new
  | [field], [] => [field]
  | [field], first :: rest => (field ++ first) :: rest
  | field :: fields, new => field :: joinLine fields new

/-- `printf ... >>file` with a record. -/
def File.append (file : File) (line : Line) : File where
  lines :=
    match file.lines.getLast? with
    | none => [line]
    | some last =>
      if file.ended then file.lines ++ [line] else file.lines.dropLast ++ [joinLine last line]
  ended := true

/-- The programs the script calls, where their results are not fixed by the script: sed on a name
with special characters, the escapes in a value of `awk -v`, `[` on a name that it takes for an
operator, the expansion of a name that is a pattern, `mkpasswd` with its salts and `mkdir -p`. -/
structure Tools where
  deleteGroup : Text → File → File
  deleteUser : Text → File → File
  addMember : Text → Text → File → File
  escape : Text → Text
  differs : Text → Text → Bool
  expand : Text → List Text
  mkpasswd : Text → Option (Nat → Text)
  mkdir : Text → Bool
  targetDir : Text

/-! ### Names -/

/-- The characters that are special in a regular expression, in a replacement or in a line. -/
def specials : Text := ".[]\\*^$+?{}|()/&:,\n".toList

/-- The words `[` takes for an operator. -/
def operators : List Text :=
  ["!", "(", "=", "==", "!=", "<", ">", "-eq", "-ne", "-lt", "-le", "-gt", "-ge", "-nt", "-ot",
    "-ef"].map String.toList

/-- A name whose characters mean themselves everywhere. -/
def isPlain (name : Text) : Bool :=
  name.all (fun c => decide (c ∉ specials)) && decide (name ∉ operators)

/-! ### Looking up with awk -/

/-- awk's `$n` as a text. -/
def Line.field (n : Nat) (line : Line) : Text := (line)[n - 1]?.getD []

/-- Whether awk's `$n` equals a value. A field the line does not have has no value of its own and
equals the number 0 and the empty text. -/
def Line.equals (n : Nat) (value : Strnum) (line : Line) : Bool :=
  match (line)[n - 1]? with
  | some text => decide (strnum text = value)
  | none => decide (value = .number 0 ∨ value = .text [])

/-- The value of a variable set with `-v`. -/
def variableValue (tools : Tools) (name : Text) : Strnum :=
  strnum (if '\\' ∈ name then tools.escape name else name)

/-- `$1 == value { printf("%d\n", $n) }`. -/
def idsUnder (value : Strnum) (n : Nat) (file : File) : List Int :=
  (file.lines.filter (Line.equals 1 value)).map fun line => awkInt (line.field n)

/-- The same for a name that is set with `-v`. -/
def idsOf (tools : Tools) (n : Nat) (name : Text) (file : File) : List Int :=
  idsUnder (variableValue tools name) n file

/-- `$3 == id { printf("%s\n", $1) }`. -/
def namesOf (tools : Tools) (id : Text) (file : File) : List Text :=
  (file.lines.filter (Line.equals 3 (variableValue tools id))).map fun line => line.field 1

/-- What `$( ... )` makes of the lines a command prints: the newlines at the end are removed. -/
def capture (lines : List Text) : Text :=
  ((['\n'].intercalate lines).reverse.dropWhile fun c => c == '\n').reverse

/-! ### Deleting with sed -/

/-- The lines that `/^name:.*/` matches. -/
def headed (name : Text) (line : Line) : Bool :=
  decide (line.head? = some name) && decide (2 ≤ line.length)

/-- `/^name:.*/d`. -/
def deleteLines (name : Text) (file : File) : File := file.filter fun line => !headed name line

def deleteGroup (tools : Tools) (name : Text) (file : File) : File :=
  if isPlain name then deleteLines name file else tools.deleteGroup name file

def deleteUser (tools : Tools) (name : Text) (file : File) : File :=
  if isPlain name then deleteLines name file else tools.deleteUser name file

theorem deleteGroup_of_isPlain {name : Text} (plain : isPlain name = true) (tools : Tools) :
    deleteGroup tools name = deleteLines name :=
  funext fun _ => if_pos plain

theorem deleteUser_of_isPlain {name : Text} (plain : isPlain name = true) (tools : Tools) :
    deleteUser tools name = deleteLines name :=
  funext fun _ => if_pos plain

/-- A line printed with colons between values; a colon in a value separates fields, too. -/
def record (values : List Text) : Line := values.flatMap fun value => value.splitOn ':'

/-! ### Adding a member with sed -/

/-- The members of a list with the last occurrence of a name emptied. -/
def clearLast (name : Text) : List Text → Option (List Text)
  | [] => none
  | member :: rest =>
    match clearLast name rest with
    | some cleared => some (member :: cleared)
    | none => if member = name then some ([] :: rest) else none

/-- `(([^:]+,)?)name(,[^:]+*)?$` on the members of a line, replaced by `\2\4`: the longest match
of the first group takes the last occurrence, and what stands before a comma is not empty. -/
def clearMember (name : Text) : List Text → Option (List Text)
  | first :: second :: rest =>
    match clearLast name rest with
    | some cleared => some (first :: second :: cleared)
    | none =>
      if second = name ∧ first ≠ [] then some (first :: [] :: rest)
      else if first = name then some ([] :: second :: rest)
      else none
  | members => clearLast name members

/-- The same on the text after the last colon. -/
def removeMember (name members : Text) : Text :=
  match clearMember name (members.splitOn ',') with
  | some cleared => [','].intercalate cleared
  | none => members

/-- A change of the text after the last colon. -/
def mapLast (change : Text → Text) : Line → Line
  | [] => []
  | [field] => [change field]
  | field :: rest => field :: mapLast change rest

/-- `s/,+/,/` on a field that has a comma. -/
def squeezeField (field : Text) : Text :=
  field.takeWhile (fun c => c != ',') ++
    ',' :: (field.dropWhile fun c => c != ',').dropWhile fun c => c == ','

/-- `s/,+/,/`. -/
def squeeze : Line → Line
  | [] => []
  | field :: rest => if ',' ∈ field then squeezeField field :: rest else field :: squeeze rest

/-- `s/:,/:/` on the fields behind a colon. -/
def unleadFields : Line → Line
  | [] => []
  | field :: rest =>
    if field.head? = some ',' then field.tail :: rest else field :: unleadFields rest

/-- `s/:,/:/`. -/
def unlead : Line → Line
  | [] => []
  | field :: rest => field :: unleadFields rest

/-- The four expressions on one line. -/
def addMemberLine (username group : Text) (line : Line) : Line :=
  let removed :=
    if headed group line ∧ 3 ≤ line.length then mapLast (removeMember username) line else line
  let added :=
    if headed group removed then mapLast (fun members => members ++ ',' :: username) removed
    else removed
  unlead (squeeze added)

/-- `add_user_to_group` on one of the two files. -/
def addMember (tools : Tools) (username group : Text) (file : File) : File :=
  if isPlain username && isPlain group then file.map (addMemberLine username group)
  else tools.addMember username group file

/-! ### Files -/

section File

variable {file : File}

theorem File.mem_iff {line : Line} : line ∈ file ↔ line ∈ file.lines := Iff.rfl

@[simp]
theorem File.mem_filter {keeps : Line → Bool} {line : Line} :
    line ∈ file.filter keeps ↔ line ∈ file ∧ keeps line = true :=
  List.mem_filter

@[simp]
theorem File.mem_map {change : Line → Line} {line : Line} :
    line ∈ file.map change ↔ ∃ old ∈ file, change old = line :=
  List.mem_map

theorem File.map_id (file : File) : file.map (fun line => line) = file :=
  File.ext (List.map_id' file.lines) rfl

theorem File.map_map (first second : Line → Line) (file : File) :
    (file.map first).map second = file.map fun line => second (first line) :=
  File.ext List.map_map rfl

theorem File.ended_filter (ended : file.ended = true) (keeps : Line → Bool) :
    (file.filter keeps).ended = true := by
  rw [File.filter, ended, Bool.true_or]

theorem File.filter_eq_self {keeps : Line → Bool} :
    file.filter keeps = file ↔ ∀ line ∈ file, keeps line = true := by
  constructor
  · exact fun same => List.filter_eq_self.mp (congrArg File.lines same)
  · intro all
    have last : file.lines.getLast?.all keeps = true := by
      cases isLast : file.lines.getLast? with
      | none => rfl
      | some line => exact all line (List.mem_of_getLast? isLast)
    rw [File.filter, last, List.filter_eq_self.mpr all, Bool.not_true, Bool.or_false]

/-- A record behind a whole line is a line. -/
theorem File.append_eq (ended : file.ended = true) (line : Line) :
    file.append line = ⟨file.lines ++ [line], true⟩ := by
  rw [File.append]
  cases last : file.lines.getLast? with
  | none =>
    rw [List.getLast?_eq_none_iff.mp last]
    rfl
  | some old => simp only [if_pos ended]

theorem File.mem_append (ended : file.ended = true) {new line : Line} :
    line ∈ file.append new ↔ line ∈ file ∨ line = new := by
  rw [File.append_eq ended]
  exact List.mem_append.trans (or_congr_right List.mem_singleton)

end File

/-- The lines behind an entry that is entered again. -/
theorem mem_deleteLines_append {name : Text} {file : File}
    (ended : (deleteLines name file).ended = true) {new line : Line} :
    line ∈ (deleteLines name file).append new ↔
      (line ∈ file ∧ headed name line = false) ∨ line = new := by
  rw [File.mem_append ended, deleteLines, File.mem_filter, Bool.not_eq_true']

theorem forall_mem_deleteLines_append {holds : Line → Prop} {name : Text} {file : File}
    (ended : (deleteLines name file).ended = true) {new : Line} (old : ∀ line ∈ file, holds line)
    (isNew : holds new) : ∀ line ∈ (deleteLines name file).append new, holds line := by
  intro line inside
  rcases (mem_deleteLines_append ended).mp inside with ⟨before, _⟩ | rfl
  · exact old line before
  · exact isNew

/-! ### Plain names -/

theorem not_mem_of_isPlain {name : Text} (plain : isPlain name = true) {c : Char}
    (special : c ∈ specials) : c ∉ name := by
  intro member
  have all := (Bool.and_eq_true_iff.mp plain).1
  exact of_decide_eq_true (List.all_eq_true.mp all c member) special

theorem not_mem_operators_of_isPlain {name : Text} (plain : isPlain name = true) :
    name ∉ operators :=
  of_decide_eq_true (Bool.and_eq_true_iff.mp plain).2

theorem addMember_of_isPlain {username group : Text} (plainName : isPlain username = true)
    (plainGroup : isPlain group = true) (tools : Tools) (file : File) :
    addMember tools username group file = file.map (addMemberLine username group) := by
  rw [addMember, plainName, plainGroup, Bool.and_self, if_pos rfl]

theorem splitOn_colon_of_isPlain {name : Text} (plain : isPlain name = true) :
    name.splitOn ':' = [name] :=
  List.splitOn_eq_singleton (not_mem_of_isPlain plain (by decide))

end Buildroot4G.Users
