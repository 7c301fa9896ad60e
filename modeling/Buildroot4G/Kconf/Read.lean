/-
This file models `conf_read_simple` of `support/kconfig/confdata.c` for the values of the user: how
it takes the lines of a file apart, `conf_set_sym_val`, and what a choice gets with the value of one
of its symbols.
-/

import Buildroot4G.Kconf.Write

namespace Buildroot4G.Kconf

open Shell

variable {ν : Type} [DecidableEq ν]

/-! ### Lines -/

/-- The lines of a file, with their ends; `compat_getline`. -/
def getLines (line : Text) : Text → List Text
  | [] => if line = [] then [] else [line]
  | c :: rest => if c = '\n' then (line ++ [c]) :: getLines [] rest else getLines (line ++ [c]) rest

/-- What `strchr` leaves before a character and behind it. -/
def cut (c : Char) (text : Text) : Option (Text × Text) :=
  if c ∈ text then
    some (text.takeWhile (· ≠ c), (text.dropWhile (· ≠ c)).tail)
  else none

/-- The name in a line that says that a symbol is not set. -/
def unsetName (config line : Text) : Option Text :=
  if config <+: line.drop 2 then
    match cut ' ' ((line.drop 2).drop config.length) with
    | some (name, rest) => if "is not set".toList <+: rest then some name else none
    | none => none
  else none

/-- A value without the end of its line. -/
def chomp (value : Text) : Text :=
  match cut '\n' value with
  | some (text, _) => if text.getLast? = some '\r' then text.dropLast else text
  | none => value

/-- The name and the value in a line. -/
def setName (config line : Text) : Option (Text × Text) :=
  match cut '=' (line.drop config.length) with
  | some (name, value) => some (name, chomp value)
  | none => none

/-! ### Values -/

/-- What a symbol was given: `def[S_DEF_USER]`, and whether `SYMBOL_DEF_USER` is set. The value of a
choice is a symbol. -/
structure Def (ν : Type) where
  tri : Tristate
  val : Option (Text ⊕ ν)
  isSet : Bool

/-- The values, and the numbers of warnings and of changes. -/
structure Reading (ν : Type) where
  defs : ν → Def ν
  warnings : ℕ
  changes : ℕ

/-- The text up to the closing quote. -/
def unquote : Text → Option Text
  | [] => none
  | '"' :: _ => some []
  | '\\' :: c :: rest => (unquote rest).map (c :: ·)
  | ['\\'] => none
  | c :: rest => (unquote rest).map (c :: ·)

def isHexDigit (c : Char) : Bool :=
  c.isDigit || decide ('a' ≤ c ∧ c ≤ 'f') || decide ('A' ≤ c ∧ c ≤ 'F')

/-- The digits behind a sign, without zeros before them. -/
def intValid : Text → Bool
  | [] => false
  | c :: rest => c.isDigit && !(c == '0' && !rest.isEmpty) && rest.all Char.isDigit

/-- `sym_string_valid`, for strings and numbers. -/
def stringValid : SymbolType → Text → Bool
  | .string, _ => true
  | .int, '-' :: digits => intValid digits
  | .int, digits => intValid digits
  | .hex, text =>
    let digits :=
      if text.take 2 = "0x".toList ∨ text.take 2 = "0X".toList then text.drop 2 else text
    !digits.isEmpty && digits.all isHexDigit
  | _, _ => false

/-- The value of a boolean symbol; nothing is an invalid value. -/
def setBoolean (current : Def ν) (value : Text) : Option (Def ν) :=
  if value.head? = some 'y' then some { current with tri := .yes, isSet := true }
  else if value.head? = some 'n' then some { current with tri := .no, isSet := true }
  else none

/-- A string or a number. -/
def setString (type : SymbolType) (current : Def ν) (value : Text) : Option (Def ν) :=
  if stringValid type value then some { current with val := some (.inl value), isSet := true }
  else none

/-- `conf_set_sym_val`, for the types of a configuration. -/
def confSetSymVal (type : SymbolType) (current : Def ν) (value : Text) : Option (Def ν) :=
  match type with
  | .tristate =>
    if value.head? = some 'm' then some { current with tri := .mod, isSet := true }
    else setBoolean current value
  | .boolean => setBoolean current value
  | .string =>
    if value.head? = some '"' then (unquote value.tail).bind (setString .string current)
    else some current
  | .int => setString .int current value
  | .hex => setString .hex current value
  | _ => some current

/-! ### Reading -/

def Reading.put (reading : Reading ν) (sym : ν) (value : Def ν) : Reading ν :=
  { reading with defs := Function.update reading.defs sym value }

def Reading.warn (reading : Reading ν) : Reading ν :=
  { reading with warnings := reading.warnings + 1 }

/-- What the value of a symbol is for its choice. -/
def setChoice (symbols : Symbols ν) (sym : ν) (reading : Reading ν) : Reading ν :=
  match symbols.choiceOf sym with
  | none => reading
  | some choice =>
    let tri := (reading.defs sym).tri
    let current := reading.defs choice
    match tri with
    | .no => reading.put choice { current with tri := exprOr current.tri tri }
    | .mod =>
      if current.tri = .yes then
        reading.warn.put choice { current with tri := exprOr current.tri tri, isSet := false }
      else reading.put choice { current with tri := exprOr current.tri tri }
    | .yes =>
      let reading := if current.tri ≠ .no then reading.warn else reading
      reading.put choice { current with tri := exprOr current.tri tri, val := some (.inr sym) }

/-- A symbol that has a value already is warned about. -/
def overrides (sym : ν) (reading : Reading ν) : Reading ν :=
  if (reading.defs sym).isSet then reading.warn else reading

/-- A symbol that is not set. -/
def readUnset (symbols : Symbols ν) (name : Text) (reading : Reading ν) : Reading ν :=
  match symbols.find name with
  | none => { reading with changes := reading.changes + 1 }
  | some sym =>
    let reading := overrides sym reading
    let reading :=
      if symbols.type sym = .boolean ∨ symbols.type sym = .tristate then
        reading.put sym { reading.defs sym with tri := .no, isSet := true }
      else reading
    setChoice symbols sym reading

/-- A symbol with a value. -/
def readValue (symbols : Symbols ν) (name value : Text) (reading : Reading ν) : Reading ν :=
  match symbols.find name with
  | none => { reading with changes := reading.changes + 1 }
  | some sym =>
    let reading := overrides sym reading
    match confSetSymVal (symbols.type sym) (reading.defs sym) value with
    | none => reading.warn
    | some value => setChoice symbols sym (reading.put sym value)

/-- One line. -/
def readLine (symbols : Symbols ν) (config : Text) (reading : Reading ν) (line : Text) :
    Reading ν :=
  if line.head? = some '#' then
    match unsetName config line with
    | some name => readUnset symbols name reading
    | none => reading
  else if config <+: line then
    match setName config line with
    | some (name, value) => readValue symbols name value reading
    | none => reading
  else if line.head? = some '\r' ∨ line.head? = some '\n' then reading
  else reading.warn

/-- The values before the first line: a choice counts as set. -/
def resetDefs (symbols : Symbols ν) : Reading ν where
  defs sym := { tri := .no, val := none, isSet := symbols.isChoice sym }
  warnings := 0
  changes := 0

/-- `conf_read_simple` with `S_DEF_USER`, of a file without NUL bytes. -/
def confReadSimple (symbols : Symbols ν) (config file : Text) : Reading ν :=
  (getLines [] file).foldl (readLine symbols config) (resetDefs symbols)

end Buildroot4G.Kconf
