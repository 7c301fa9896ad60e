/-
This file models `support/download/check-hash`, which decides whether a file is
what the package expects: it exits with `0` when the file matches every hash the
hash file gives for its name (or when there is no hash file), with `2` on a
mismatch, with `3` when the hash file has no hash for the name and with `4` on
an unknown type of hash.

The script opens the file once for each hash. The loop is therefore modelled
line by line, `checkLine` being what one line makes of the content the file has
at that moment; `checkHash` is the loop over a file that does not change.
The digest programs (`md5sum` and so on) are a parameter.
-/

import Buildroot4G.Shell.Read

namespace Buildroot4G.Download

open Shell

/-- The content of a file. -/
abbrev Content := List UInt8

/-- The types of hash `check_one_hash` knows. -/
inductive HashType where
  | md5
  | sha1
  | sha224
  | sha256
  | sha384
  | sha512
  deriving DecidableEq, Repr

def HashType.ofText (type : Text) : Option HashType :=
  if type = "md5".toList then some .md5
  else if type = "sha1".toList then some .sha1
  else if type = "sha224".toList then some .sha224
  else if type = "sha256".toList then some .sha256
  else if type = "sha384".toList then some .sha384
  else if type = "sha512".toList then some .sha512
  else none

/-- The digest programs: the digest each prints for a content. -/
abbrev Digests := HashType → Content → Text

/-- `${_h}sum "${_file}" | cut -d ' ' -f 1`: nothing when the file is missing. -/
def digest (digests : Digests) (type : HashType) (file : Option Content) : Text :=
  (file.map (digests type)).getD []

/-- The three fields of a line of the hash file. -/
structure HashLine where
  type : Text
  hash : Text
  name : Text
  deriving DecidableEq, Repr

/-- `read t h f` on one line. -/
def HashLine.ofFields (line : List QuotedChar) : HashLine :=
  match readFields 3 line with
  | [type, hash, name] => ⟨type, hash, name⟩
  | _ => ⟨[], [], []⟩

/-- What the script is given besides the file it checks: the hash file, when one is named and
exists, the name of the file and `BR_NO_CHECK_HASH_FOR`. -/
structure HashArgs where
  hashFile : Option Text
  base : Text
  noCheck : Text
  named : base ≠ []

/-- What one line makes of the file. -/
inductive LineResult where
  | skip
  | pass
  | stop (code : Nat)
  deriving DecidableEq, Repr

/-- `check_one_hash`. -/
def checkOneHash (digests : Digests) (type known : Text) (file : Option Content) : LineResult :=
  if type = "none".toList then .pass
  else
    match HashType.ofText type with
    | none => .stop 4
    | some h => if digest digests h file = known then .pass else .stop 2

/-- The body of the loop. -/
def checkLine (digests : Digests) (base : Text) (line : HashLine) (file : Option Content) :
    LineResult :=
  if line.type = [] ∨ line.type.head? = some '#' then .skip
  else if line.name = base then checkOneHash digests line.type line.hash file
  else .skip

/-- The end of the script, behind the loop. -/
def checkEnd (args : HashArgs) (checks : Nat) : Nat :=
  if checks = 0 then
    if grep (' ' :: args.base ++ [' ']) (' ' :: args.noCheck ++ [' ']) then 0 else 3
  else 0

/-- The loop from a line on, with the number of checks made. -/
def checkFrom (digests : Digests) (args : HashArgs) (file : Option Content) :
    List HashLine → Nat → Nat
  | [], checks => checkEnd args checks
  | line :: rest, checks =>
    match checkLine digests args.base line file with
    | .skip => checkFrom digests args file rest checks
    | .pass => checkFrom digests args file rest (checks + 1)
    | .stop code => code

/-- The lines the loop reads; without a hash file there is no loop. -/
def hashLines (args : HashArgs) : Option (List HashLine) :=
  args.hashFile.map fun content => (readLines content).map HashLine.ofFields

/-- The exit status of `check-hash`. -/
def checkHash (digests : Digests) (args : HashArgs) (file : Option Content) : Nat :=
  match hashLines args with
  | none => 0
  | some lines => checkFrom digests args file lines 0

/-- A content that `check-hash` accepts. -/
def Accepts (digests : Digests) (args : HashArgs) (content : Content) : Prop :=
  checkHash digests args (some content) = 0

instance (digests : Digests) (args : HashArgs) (content : Content) :
    Decidable (Accepts digests args content) :=
  inferInstanceAs (Decidable (_ = _))

/-! ### Lines and contents -/

section Lines

variable {digests : Digests} {args : HashArgs}

variable (digests) in
/-- Whether a line is skipped, and whether it stops with something else than a mismatch, does
not depend on the file. -/
theorem checkLine_cases (base : Text) (line : HashLine) :
    (∀ file, checkLine digests base line file = .skip) ∨
      (∀ file, checkLine digests base line file = .pass) ∨
      (∀ file, checkLine digests base line file = .stop 4) ∨
      ∃ type, line.name = base ∧ ∀ file, checkLine digests base line file =
        if digest digests type file = line.hash then .pass else .stop 2 := by
  by_cases comment : line.type = [] ∨ line.type.head? = some '#'
  · exact Or.inl fun file => by rw [checkLine, if_pos comment]
  · by_cases same : line.name = base
    · have body : ∀ file, checkLine digests base line file =
          checkOneHash digests line.type line.hash file :=
        fun file => by rw [checkLine, if_neg comment, if_pos same]
      by_cases none : line.type = "none".toList
      · exact Or.inr (Or.inl fun file => by rw [body, checkOneHash, if_pos none])
      · cases type : HashType.ofText line.type with
        | none =>
          refine Or.inr (Or.inr (Or.inl fun file => ?_))
          rw [body, checkOneHash, if_neg none, type]
        | some type' =>
          refine Or.inr (Or.inr (Or.inr ⟨type', same, fun file => ?_⟩))
          rw [body, checkOneHash, if_neg none, type]
    · exact Or.inl fun file => by rw [checkLine, if_neg comment, if_neg same]

/-- The number of checks behind a line. -/
def LineResult.count : LineResult → Nat → Nat
  | .pass, checks => checks + 1
  | _, checks => checks

/-- A loop that goes on behind its first line has the result of the rest. -/
theorem checkFrom_cons_of_goes {file : Option Content} {line : HashLine}
    (goes : ∀ code, checkLine digests args.base line file ≠ .stop code)
    (rest : List HashLine) (checks : Nat) :
    checkFrom digests args file (line :: rest) checks =
      checkFrom digests args file rest
        ((checkLine digests args.base line file).count checks) := by
  rw [checkFrom]
  cases result : checkLine digests args.base line file with
  | skip => rfl
  | pass => rfl
  | stop code => exact absurd result (goes code)

theorem checkFrom_cons_of_stop {file : Option Content} {line : HashLine} {code : Nat}
    (stops : checkLine digests args.base line file = .stop code)
    (rest : List HashLine) (checks : Nat) :
    checkFrom digests args file (line :: rest) checks = code := by
  rw [checkFrom, stops]

/-- Without a hash file everything is accepted. -/
theorem checkHash_of_none (noLines : hashLines args = none) (file : Option Content) :
    checkHash digests args file = 0 := by
  rw [checkHash, noLines]

theorem checkHash_of_some {lines : List HashLine} (read : hashLines args = some lines)
    (file : Option Content) :
    checkHash digests args file = checkFrom digests args file lines 0 := by
  rw [checkHash, read]

end Lines

end Buildroot4G.Download
