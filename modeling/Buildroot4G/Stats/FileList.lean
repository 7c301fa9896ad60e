/-
This file models the hooks `step_pkg_size_start` and `step_pkg_size_end` of
`package/pkg-generic.mk`, which write `packages-file-list.txt`, the list that `size-stats` reads:
before and behind the installation of a package they list the files of `target/` with their MD5
sums, and every line that only the second list has becomes a record of the package.

`md5sum` quotes a backslash and a newline in a name, and `read`, without `-r`, takes the quoting
away, but makes an `n` of a newline and drops the blanks at the end of a name.
-/

import Buildroot4G.Dict
import Buildroot4G.Shell.Python
import Buildroot4G.Shell.Read
import Mathlib.Data.Char
import Mathlib.Data.List.Lex

namespace Buildroot4G.Stats

open Shell

/-! ### The lists of the files -/

/-- The regular files of `target/`, their contents by their paths. -/
structure Snapshot (Content : Type) where
  files : Dict Text Content
  named : ∀ path ∈ files, path ≠ [] ∧ '\x00' ∉ path

def IsHash (hash : Text) : Prop :=
  hash ≠ [] ∧ hash.all (fun c => "0123456789abcdef".toList.contains c) = true

/-- What is known of `md5sum`: its sums, no two contents having the same one, and the empty
content of its standard input. -/
structure Md5 (Content : Type) where
  sum : Content → Text
  isHash : ∀ content, IsHash (sum content)
  injective : Function.Injective sum
  empty : Content

/-- The installation of a package to `target/`; the names of packages are ASCII. -/
structure Install (Content : Type) where
  pkg : Text
  isName : ∀ c ∈ pkg, c.toNat < 128 ∧ c ≠ ',' ∧ c ≠ '\n' ∧ c ≠ '\r'
  before : Snapshot Content
  after : Snapshot Content

def escapeChar (c : Char) : Text :=
  if c = '\\' then ['\\', '\\'] else if c = '\n' then ['\\', 'n'] else [c]

/-- A line of `md5sum`. -/
def md5sumLine (hash name : Text) : Text :=
  let mark := if '\\' ∈ name ∨ '\n' ∈ name then ['\\'] else []
  mark ++ hash ++ ' ' :: ' ' :: name.flatMap escapeChar

section Hooks

variable {Content : Type} (md5 : Md5 Content)

/-- `find . -type f -print0 | xargs -0 md5sum`: the sums and names; without files `xargs` runs
`md5sum` for its standard input. -/
def md5sums (target : Snapshot Content) : List (Text × Text) :=
  if target.files.entries = [] then [(md5.sum md5.empty, ['-'])]
  else target.files.entries.map fun file => (md5.sum file.2, '.' :: '/' :: file.1)

/-- `.br_filelist_before` or `.br_filelist_after`. -/
def fileList (target : Snapshot Content) : List Text :=
  ((md5sums md5 target).map fun sum => md5sumLine sum.1 sum.2).mergeSort fun first second =>
    decide (first ≤ second)

/-- `comm -13`. -/
def comm (before after : List Text) : List Text := after.filter fun line => line ∉ before

/-- The variable `file` of the loop `while read hash file`. -/
def readFile (line : List QuotedChar) : Text := (readFields 2 line).getD 1 []

/-- What `step_pkg_size_end` appends to the list. -/
def stepPkgSizeEnd (install : Install Content) : List Text :=
  let lines := comm (fileList md5 install.before) (fileList md5 install.after)
  (readLines (lines.flatMap fun line => line ++ ['\n'])).map fun line =>
    install.pkg ++ ',' :: readFile line

/-- `packages-file-list.txt` after a sequence of installations. -/
def packagesFileList (installs : List (Install Content)) : Text :=
  (installs.flatMap (stepPkgSizeEnd md5)).flatMap fun line => line ++ ['\n']

end Hooks

end Buildroot4G.Stats
