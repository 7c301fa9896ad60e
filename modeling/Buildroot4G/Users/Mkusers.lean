/-
This file models `support/scripts/mkusers`: the checks, the allocation of ids, the
functions that add a group and a user, and the five passes over the table.

The script runs under `set -e`. A function that can stop returns the failure
together with the files as they are at that moment; `abort` is the failure of a
command that nothing tests. Besides the files the state has the number of calls of
`mkpasswd`, each of which takes a new salt, and the lines for the fakeroot script.
-/

import Buildroot4G.Fold
import Buildroot4G.Users.Table

namespace Buildroot4G.Users

open Shell

/-! ### The state -/

def minUid : Nat := 1000
def maxUid : Nat := 1999
def minGid : Nat := 1000
def maxGid : Nat := 1999

/-- Why a run stops: a call of `fail` with a format and its arguments, or `set -e`. -/
inductive Failure where
  | fail (format : String) (arguments : List Text)
  | abort
  deriving DecidableEq, Repr

/-- The files of the target, `/etc/gshadow` being optional. -/
structure Target where
  passwd : File
  shadow : File
  group : File
  gshadow : Option File
  salts : Nat
  script : List Text
  deriving DecidableEq, Repr

/-- What is left of a run: the files when it completes, and with a failure when it stops. -/
abbrev Outcome := Except (Failure × Target) Target

/-! ### check_user_validity -/

/-- `[ -n "${found}" -a "${found}" != "${name}" ]`. -/
def testDiffers (tools : Tools) (found name : Text) : Bool :=
  if found ∈ operators then tools.differs found name
  else decide (found ≠ []) && decide (found ≠ name)

/-- `[ -n "${ids}" ] && [ ${ids} -ne ${value} ]`, which is false when there are several ids or one
that `[` does not take. -/
def idsDiffer (ids : List Int) (value : Int) : Bool :=
  match ids with
  | [id] => decide (FitsInt id ∧ id ≠ value)
  | _ => false

def showIds (ids : List Int) : Text := capture (ids.map showInt)

/-- The part of `check_user_validity` about the gid. -/
def checkGid (tools : Tools) (entry : Entry) (target : Target) : Option Failure :=
  let usedBy := capture (namesOf tools entry.gid target.group)
  let gids := idsOf tools 3 entry.group target.group
  let ugids := idsOf tools 4 entry.username target.passwd
  match testInt entry.gid with
  | none => none
  | some gid =>
    if gid < -1 ∨ gid = 0 then
      some (.fail "invalid gid '%d' for '%s'\n" [entry.gid, entry.username])
    else if gid = -1 then none
    else if testDiffers tools usedBy entry.group then
      some (.fail "gid '%d' for '%s' is already used by group '%s'\n"
        [entry.gid, entry.username, usedBy])
    else if idsDiffer gids gid then
      some (.fail "group '%s' for '%s' already exists with gid '%d' (wants '%d')\n"
        [entry.group, entry.username, showIds gids, entry.gid])
    else if idsDiffer ugids gid then
      some (.fail "user '%s' already exists with gid '%d' (wants '%d')\n"
        [entry.username, showIds ugids, entry.gid])
    else none

/-- The part of `check_user_validity` about the uid. -/
def checkUid (tools : Tools) (entry : Entry) (target : Target) : Option Failure :=
  let usedBy := capture (namesOf tools entry.uid target.passwd)
  let uids := idsOf tools 3 entry.username target.passwd
  match testInt entry.uid with
  | none => none
  | some uid =>
    if uid < -1 ∨ uid = 0 then
      some (.fail "invalid uid '%d' for '%s'\n" [entry.uid, entry.username])
    else if uid = -1 then none
    else if testDiffers tools usedBy entry.username then
      some (.fail "uid '%d' for '%s' already used by user '%s'\n"
        [entry.uid, entry.username, usedBy])
    else if idsDiffer uids uid then
      some (.fail "user '%s' already exists with uid '%d' (wants '%d')\n"
        [entry.username, showIds uids, entry.uid])
    else none

/-- `get_ugroup`. -/
def ugroupOf (tools : Tools) (username : Text) (target : Target) : Text :=
  let ugids := idsOf tools 4 username target.passwd
  if ugids = [] then [] else capture (namesOf tools (showIds ugids) target.group)

/-- The part of `check_user_validity` about the main group of an existing user. -/
def checkUgroup (tools : Tools) (entry : Entry) (target : Target) : Option Failure :=
  let ugroup := ugroupOf tools entry.username target
  if testDiffers tools ugroup entry.group then
    some (.fail "user '%s' already exists with group '%s' (wants '%s')\n"
      [entry.username, ugroup, entry.group])
  else none

def checkUserValidity (tools : Tools) (entry : Entry) (target : Target) : Option Failure :=
  if entry.username = "root".toList then
    some (.fail "invalid username '%s\n'" [entry.username])
  else
    (checkGid tools entry target).or
      ((checkUid tools entry target).or (checkUgroup tools entry target))

/-! ### Ids -/

/-- `generate_gid` and `generate_uid`: the id the name has in the file, or the lowest unused one
of a range. With several ids, or one that is too large, `printf` fails. -/
def generateId (tools : Tools) (low high : Nat) (format : String) (name : Text) (file : File) :
    Except Failure Int :=
  match idsOf tools 3 name file with
  | [] =>
    match (List.range' low (high + 1 - low)).find? fun id =>
        decide (capture (namesOf tools (decimal id) file) = []) with
    | some id => .ok id
    | none => .error (.fail format [name])
  | [id] => if FitsInt id then .ok id else .error .abort
  | _ => .error .abort

def generateGid (tools : Tools) (group : Text) (file : File) : Except Failure Int :=
  generateId tools minGid maxGid "can not allocate a GID for group '%s'\n" group file

def generateUid (tools : Tools) (username : Text) (file : File) : Except Failure Int :=
  generateId tools minUid maxUid "can not allocate a UID for user '%s'\n" username file

/-- The id to print for an id of the table: a generated one for `-1`, else the one `printf %d`
makes of it, which may be refused. -/
def chooseId (generate : Except Failure Int) (id : Text) : Except Failure (Int × Bool) :=
  if testInt id = some (-1) then generate.map fun id => (id, true) else .ok (printfInt id)

/-- `printf %d "${_gid}"` on the ids that awk found. -/
def printfIds : List Int → Int × Bool
  | [] => (0, true)
  | [id] => (id, decide (FitsInt id))
  | id :: _ => (id, false)

/-! ### Groups and users -/

def groupLine (group : Text) (gid : Int) : Line := record [group, "x".toList, showInt gid, []]

def gshadowLine (group : Text) : Line := record [group, "*".toList, [], []]

def addOneGroup (tools : Tools) (group gid : Text) (target : Target) : Outcome :=
  match chooseId (generateGid tools group target.group) gid with
  | .error failure => .error (failure, target)
  | .ok (id, accepted) =>
    let target :=
      { target with group := (deleteGroup tools group target.group).append (groupLine group id) }
    if accepted then
      .ok { target with
        gshadow := target.gshadow.map fun file =>
          (deleteGroup tools group file).append (gshadowLine group) }
    else .error (.abort, target)

def addUserToGroup (tools : Tools) (username group : Text) (target : Target) : Target :=
  { target with
    group := addMember tools username group target.group
    gshadow := target.gshadow.map (addMember tools username group) }

/-- `_passwd`, with the number of salts taken so far. -/
def encodePasswd (tools : Tools) (passwd : Text) (salts : Nat) : Option (Text × Nat) :=
  if passwd = "-".toList then some ([], salts)
  else if "!=".toList <+: passwd then
    (tools.mkpasswd (passwd.drop 2)).map fun hash => ('!' :: hash salts, salts + 1)
  else if "=".toList <+: passwd then
    (tools.mkpasswd (passwd.drop 1)).map fun hash => (hash salts, salts + 1)
  else some (passwd, salts)

/-- `_home`. -/
def homeOf (home : Text) : Except Failure Text :=
  if home = "-".toList then .ok "/".toList
  else if home = "/".toList then .error (.fail "home can not explicitly be '/'\n" [])
  else if "/".toList <+: home then .ok home
  else .error (.fail "home must be an absolute path\n" [])

/-- `_shell`. -/
def shellOf (shell : Text) : Text := if shell = "-".toList then "/bin/false".toList else shell

def passwdLine (entry : Entry) (uid gid : Int) (home : Text) : Line :=
  record [entry.username, "x".toList, showInt uid, showInt gid, entry.comment, home,
    shellOf entry.shell]

def shadowLine (username passwd : Text) : Line :=
  record ([username, passwd] ++ List.replicate 7 [])

/-- The loop over the additional groups. -/
def addToGroups (tools : Tools) (entry : Entry) (target : Target) : Target :=
  (extraGroups tools entry).foldl
    (fun target group => addUserToGroup tools entry.username group target) target

def homePath (tools : Tools) (home : Text) : Text := tools.targetDir ++ '/' :: home

/-- The line for the fakeroot script. -/
def chownLine (tools : Tools) (entry : Entry) (uid gid : Int) : Text :=
  "chown -h -R ".toList ++ showInt uid ++ ':' :: showInt gid ++ " '".toList ++
    homePath tools entry.home ++ "'".toList

/-- The end of `add_one_user`: the home directory. -/
def makeHome (tools : Tools) (entry : Entry) (uid gid : Int) (target : Target) : Outcome :=
  if entry.home = "-".toList then .ok target
  else if tools.mkdir (homePath tools entry.home) then
    .ok { target with script := target.script ++ [chownLine tools entry uid gid] }
  else .error (.abort, target)

def addOneUser (tools : Tools) (entry : Entry) (target : Target) : Outcome :=
  match checkUserValidity tools entry target with
  | some failure => .error (failure, target)
  | none =>
    match chooseId (generateUid tools entry.username target.passwd) entry.uid with
    | .error failure => .error (failure, target)
    | .ok (uid, uidAccepted) =>
      -- from here on the user's old lines are gone
      let target := { target with
        passwd := deleteUser tools entry.username target.passwd
        shadow := deleteUser tools entry.username target.shadow }
      match homeOf entry.home with
      | .error failure => .error (failure, target)
      | .ok home =>
        match encodePasswd tools entry.passwd target.salts with
        | none => .error (.abort, target)
        | some (passwd, salts) =>
          let (gid, gidAccepted) := printfIds (idsOf tools 3 entry.group target.group)
          let target := { target with
            passwd := target.passwd.append (passwdLine entry uid gid home)
            salts := salts }
          if uidAccepted && gidAccepted then
            let target :=
              { target with shadow := target.shadow.append (shadowLine entry.username passwd) }
            makeHome tools entry uid gid (addToGroups tools entry target)
          else .error (.abort, target)

/-! ### main -/

/-- `[ ${id} -ge 0 ]`. -/
def isExplicit (id : Text) : Bool :=
  match testInt id with
  | some value => decide (0 ≤ value)
  | none => false

/-- `[ ${id} -eq -1 ]`. -/
def isAutomatic (id : Text) : Bool := decide (testInt id = some (-1))

/-- `[ "${username}" != "-" ]`. -/
def createsUser (entry : Entry) : Bool := decide (entry.username ≠ "-".toList)

/-- A pass over the table. -/
def forLines (body : Entry → Target → Outcome) : List Text → Target → Outcome
  | [], target => .ok target
  | line :: rest, target =>
    match Entry.ofLine line with
    | none => .error (.abort, target)
    | some entry => body entry target >>= forLines body rest

def explicitGroup (tools : Tools) (entry : Entry) (target : Target) : Outcome :=
  if isExplicit entry.gid then addOneGroup tools entry.group entry.gid target else .ok target

def automaticGroup (tools : Tools) (entry : Entry) (target : Target) : Outcome :=
  if isAutomatic entry.gid then addOneGroup tools entry.group entry.gid target else .ok target

def additionalGroups (tools : Tools) (entry : Entry) (target : Target) : Outcome :=
  (extraGroups tools entry).foldlM
    (fun target group => addOneGroup tools group "-1".toList target) target

def explicitUser (tools : Tools) (entry : Entry) (target : Target) : Outcome :=
  if createsUser entry && isExplicit entry.uid then addOneUser tools entry target else .ok target

def automaticUser (tools : Tools) (entry : Entry) (target : Target) : Outcome :=
  if createsUser entry && isAutomatic entry.uid then addOneUser tools entry target
  else .ok target

def main (tools : Tools) (table : Text) (target : Target) : Outcome :=
  if minUid ≤ 0 then .error (.fail "MIN_UID must be >0 (currently %d)\n" [decimal minUid], target)
  else if minGid ≤ 0 then
    .error (.fail "MIN_GID must be >0 (currently %d)\n" [decimal minGid], target)
  else do
    let lines := tableLines table
    let target ← forLines (explicitGroup tools) lines target
    let target ← forLines (automaticGroup tools) lines target
    let target ← forLines (additionalGroups tools) lines target
    let target ← forLines (explicitUser tools) lines target
    forLines (automaticUser tools) lines target

end Buildroot4G.Users
