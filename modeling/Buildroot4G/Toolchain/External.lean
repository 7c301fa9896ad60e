/-
This file models `toolchain_find_sysroot` and `toolchain_find_libdir` of the external
toolchains. Both are a sed expression on the path of `libc.a`: one removes the library
directory and what follows from the path, the other keeps its name only.

A bracketed part of the expressions that ends at a slash matches up to the next slash, so that what
follows a match is fixed by where it begins and by whether `([^/]*/)?` takes part in it. A
match is therefore given by the text behind it. The first expression has no anchor: it may match in
the directory before the library directory, and removes that match when it does.
-/

import Buildroot4G.Shell.Text

namespace Buildroot4G.Toolchain

open Shell

/-! ### The expressions -/

/-- The text behind a literal at its head. -/
def afterLiteral (literal text : Text) : Option Text :=
  if literal.isPrefixOf text then some (text.drop literal.length) else none

/-- The text behind `[^/]*/`. -/
def afterComponent (text : Text) : Option Text :=
  match text.dropWhile fun c => c != '/' with
  | [] => none
  | _ :: rest => some rest

/-- The text behind `libc\.a`. -/
def afterLibcA (text : Text) : Option Text := afterLiteral "libc.a".toList text

/-- The text behind `libc.a`, where the dot is any character. -/
def afterLibcAny (text : Text) : Option Text :=
  match afterLiteral "libc".toList text with
  | some (_ :: rest) => afterLiteral "a".toList rest
  | _ => none

/-- The text behind `([^/]*/)?file`; the longer match has the component. -/
def afterFile (file : Text → Option Text) (text : Text) : Option Text :=
  ((afterComponent text).bind file).or (file text)

/-- The text behind `lib(32|64)?([^/]*)?/`. -/
def afterLib (text : Text) : Option Text := (afterLiteral "lib".toList text).bind afterComponent

/-- The text behind `(usr/)?`: what comes next begins with `lib`, and so the part is there when the
text has it. -/
def afterUsr (text : Text) : Text := (afterLiteral "usr/".toList text).getD text

/-- The text behind `(usr/)?lib(32|64)?([^/]*)?/([^/]*/)?libc\.a`. -/
def afterSysrootMatch (text : Text) : Option Text :=
  (afterLib (afterUsr text)).bind (afterFile afterLibcA)

/-- `s:(usr/)?lib(32|64)?([^/]*)?/([^/]*/)?libc\.a::`. -/
def removeLibc : Text → Text
  | [] => []
  | c :: rest =>
    match afterSysrootMatch (c :: rest) with
    | some after => after
    | none => c :: removeLibc rest

/-- The group `\2` of `(usr/)?(lib(32|64)?([^/]*)?)/([^/]*/)?libc.a`, and the text behind the
match. -/
def libdirMatch (text : Text) : Option (Text × Text) :=
  ((afterLib (afterUsr text)).bind (afterFile afterLibcAny)).map fun after =>
    ((afterUsr text).takeWhile fun c => c != '/', after)

/-- The same behind `.*/`: the longest match, and of those the one whose `.*` is the longest. -/
def libdirMatchFrom : Text → Option (Text × Text)
  | [] => none
  | c :: rest =>
    let here := if c = '/' then libdirMatch rest else none
    match here, libdirMatchFrom rest with
    | some first, some later => if later.2.length ≤ first.2.length then some later else some first
    | some first, none => some first
    | none, later => later

/-- `s:.*/(usr/)?(lib(32|64)?([^/]*)?)/([^/]*/)?libc.a:\2:`. -/
def keepLibdir (text : Text) : Text :=
  match libdirMatchFrom text with
  | some (libdir, after) => libdir ++ after
  | none => text

/-! ### The commands -/

/-- The characters that the shell or `printf` does not take as they are. -/
def specials : Text := " \t\n%\\*?[".toList

/-- A path without special characters, and no option. -/
def isPlain (path : Text) : Bool :=
  (path.all fun c => decide (c ∉ specials)) && decide (path.head? ≠ some '-')

/-- `printf $(readlink -f ...)`, on a path with special characters whatever they make of it. -/
def printPath (printf : Text → Text) (path : Text) : Text :=
  if isPlain path then path else printf path

def toolchainFindSysroot (printf : Text → Text) (libcA : Text) : Text :=
  removeLibc (printPath printf libcA)

def toolchainFindLibdir (printf : Text → Text) (libcA : Text) : Text :=
  keepLibdir (printPath printf libcA)

/-! ### Where libc.a may be -/

/-- The `32` or `64` of a library directory. -/
inductive Width where
  | w32
  | w64
  deriving DecidableEq, Repr

def Width.text : Width → Text
  | w32 => "32".toList
  | w64 => "64".toList

/-- `(usr/)?lib(32|64)?suffix/(tuple/)?`. -/
structure Layout where
  usr : Bool
  width : Option Width
  suffix : Text
  tuple : Option Text
  suffixForm : '/' ∉ suffix
  tupleForm : ∀ name ∈ tuple, '/' ∉ name

namespace Layout

variable (layout : Layout)

def usrText : Text := if layout.usr then "usr/".toList else []

/-- The name of the library directory. -/
def libName : Text :=
  "lib".toList ++ (layout.width.elim [] Width.text ++ layout.suffix)

def tupleText : Text := layout.tuple.elim [] fun name => name ++ ['/']

/-- The path of `libc.a` behind the sysroot. -/
def path : Text :=
  layout.usrText ++ (layout.libName ++ '/' :: (layout.tupleText ++ "libc.a".toList))

/-- The tuple begins with `lib`. -/
def TupleIsLib : Prop := ∃ name ∈ layout.tuple, "lib".toList <+: name

instance : Decidable layout.TupleIsLib := inferInstanceAs (Decidable (∃ name ∈ layout.tuple, _))

end Layout

end Buildroot4G.Toolchain
