/-
This file models how `mkusers` reads the users table: sed removes comments and
blank lines, the loop `while read line` collects the lines, and every pass over the
table splits each of them again into nine fields. A line without its newline at the
end of the table stays without one behind sed, and the loop drops it.
-/

import Buildroot4G.Users.Files

namespace Buildroot4G.Users

open Shell

/-- `s/#.*//`. -/
def stripComment (line : Text) : Text := line.takeWhile fun c => c != '#'

/-- Whether `/^[[:space:]]*$/d` leaves a line. -/
def kept (line : Text) : Bool := !line.all isSpace

/-- `sed -e 's/#.*//; /^[[:space:]]*$/d;'` on the table. -/
def stripTable (table : Text) : Text :=
  let pieces := (table.splitOn '\n').map stripComment
  (pieces.dropLast.filter kept).flatMap (fun line => line ++ ['\n']) ++
    (pieces.getLast?.filter kept).getD []

/-- `read line`: the characters without the blanks around them. -/
def lineText (line : List QuotedChar) : Text :=
  (trimEnd (line.dropWhile separates)).map Prod.fst

/-- The array `LINES`. -/
def tableLines (table : Text) : List Text := (readLines (stripTable table)).map lineText

/-- The fields of a line of the table. -/
structure Entry where
  username : Text
  uid : Text
  group : Text
  gid : Text
  passwd : Text
  home : Text
  shell : Text
  groups : Text
  comment : Text
  deriving DecidableEq, Repr

/-- The variables `read` sets. -/
def Entry.ofFields (line : List QuotedChar) : Entry :=
  match readFields 9 line with
  | [username, uid, group, gid, passwd, home, shell, groups, comment] =>
    ⟨username, uid, group, gid, passwd, home, shell, groups, comment⟩
  | _ => ⟨[], [], [], [], [], [], [], [], []⟩

/-- An entry with a uid has a user name, and one with a gid a group name. -/
theorem Entry.names_ne_nil (line : List QuotedChar) :
    ((Entry.ofFields line).uid ≠ [] → (Entry.ofFields line).username ≠ []) ∧
      ((Entry.ofFields line).gid ≠ [] → (Entry.ofFields line).group ≠ []) := by
  rw [Entry.ofFields]
  split
  · rename_i username uid group gid passwd home shell groups comment fields
    obtain ⟨_, second⟩ := List.cons.inj fields
    obtain ⟨_, third⟩ := List.cons.inj second
    refine ⟨fun named empty => named ?_, fun named empty => named ?_⟩
    · change username = [] at empty
      rw [empty] at fields
      exact readFields_cons_of_nil fields uid List.mem_cons_self
    · change group = [] at empty
      rw [empty] at third
      exact readFields_cons_of_nil third gid List.mem_cons_self
  · exact ⟨fun named => absurd rfl named, fun named => absurd rfl named⟩

/-- `read username ... comment <<<"${line}"`, which fails on a line that ends in a backslash. -/
def Entry.ofLine (line : Text) : Option Entry :=
  (readLines (line ++ ['\n'])).head?.map Entry.ofFields

/-- The words of a list with commas, for the unquoted `${groups//,/ }`. -/
def groupWords (groups : Text) : List Text :=
  words (groups.map fun c => if c = ',' then ' ' else c)

/-- Whether a word is a pattern for file names. -/
def isPattern (word : Text) : Bool := word.any fun c => c == '*' || c == '?' || c == '['

/-- The additional groups the loops run over. -/
def extraGroups (tools : Tools) (entry : Entry) : List Text :=
  if entry.groups = ['-'] then []
  else (groupWords entry.groups).flatMap fun word =>
    if isPattern word then tools.expand word else [word]

/-! ### The lines as they stand -/

/-- The lines of a table that are not empty or a comment, whatever `read` makes of them. -/
def allLines (table : Text) : List Text := ((table.splitOn '\n').map stripComment).filter kept

/-- The username field of a line. -/
def usernameOf (line : Text) : Text := (words line).head?.getD []

end Buildroot4G.Users
