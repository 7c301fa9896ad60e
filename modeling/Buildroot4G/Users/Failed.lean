/-
This file proves what a call of `add_one_user` leaves that ends in `fail`. The checks and the
allocation of the uid fail before the files change, but the home directory is looked at only
when the old lines of the user are gone: the call leaves the files as they were exactly when the
home directory is one the script takes, or the call fails before, or there was no line to delete.
-/

import Buildroot4G.Users.Run

namespace Buildroot4G.Users

open Shell

/-- A call that ends in `fail` leaves `passwd` and `shadow` as they were. -/
def KeepsAccounts (tools : Tools) (entry : Entry) (target : Target) : Prop :=
  ∀ format arguments after,
    addOneUser tools entry target = .error (.fail format arguments, after) →
      after.passwd = target.passwd ∧ after.shadow = target.shadow

/-- A home directory that the script takes: none, or an absolute path other than `/`. -/
def IsHome (home : Text) : Prop := home = "-".toList ∨ "/".toList <+: home ∧ home ≠ "/".toList

instance (home : Text) : Decidable (IsHome home) := inferInstanceAs (Decidable (_ ∨ _))

/-- The call stops in the checks or when it allocates the uid. -/
def StopsBefore (tools : Tools) (entry : Entry) (target : Target) : Prop :=
  checkUserValidity tools entry target ≠ none ∨
    ∃ failure, chooseId (generateUid tools entry.username target.passwd) entry.uid = .error failure

/-- The files have a line that is deleted for the user. -/
def HasAccount (tools : Tools) (username : Text) (target : Target) : Prop :=
  deleteUser tools username target.passwd ≠ target.passwd ∨
    deleteUser tools username target.shadow ≠ target.shadow

/-- The target without the lines of a user. -/
def Target.without (tools : Tools) (username : Text) (target : Target) : Target :=
  { target with
    passwd := deleteUser tools username target.passwd
    shadow := deleteUser tools username target.shadow }

theorem hasAccount_of_isPlain {tools : Tools} {username : Text} (plain : isPlain username = true)
    {target : Target} :
    HasAccount tools username target ↔
      (∃ line ∈ target.passwd, headed username line = true) ∨
        ∃ line ∈ target.shadow, headed username line = true := by
  have some_line : ∀ file : File, deleteLines username file ≠ file ↔
      ∃ line ∈ file, headed username line = true := by
    intro file
    rw [deleteLines, ne_eq, File.filter_eq_self]
    simp
  rw [HasAccount, deleteUser_of_isPlain plain, some_line, some_line]

theorem isHome_iff {home : Text} :
    IsHome home ↔ ∃ path, homeOf home = .ok path := by
  rw [IsHome, homeOf]
  by_cases none : home = "-".toList
  · rw [if_pos none]
    exact iff_of_true (Or.inl none) ⟨_, rfl⟩
  rw [if_neg none]
  by_cases root : home = "/".toList
  · rw [if_pos root]
    exact iff_of_false (fun isHome => isHome.elim none fun path => path.2 root) nofun
  rw [if_neg root]
  by_cases absolute : "/".toList <+: home
  · rw [if_pos absolute]
    exact iff_of_true (Or.inr ⟨absolute, root⟩) ⟨_, rfl⟩
  · rw [if_neg absolute]
    exact iff_of_false (fun isHome => isHome.elim none fun path => absolute path.1) nofun

/-- A home directory that is not taken is refused by `fail`. -/
theorem exists_fail_of_not_isHome {home : Text} (refused : ¬IsHome home) :
    ∃ format, homeOf home = .error (.fail format []) := by
  rw [IsHome, not_or, not_and_or, not_not] at refused
  obtain ⟨named, refused⟩ := refused
  rw [homeOf, if_neg named]
  by_cases root : home = "/".toList
  · exact ⟨_, if_pos root⟩
  · rw [if_neg root, if_neg (refused.resolve_right root)]
    exact ⟨_, rfl⟩

/-- A call that stops before it deletes anything leaves the files. -/
theorem target_of_stopsBefore {tools : Tools} {entry : Entry} {target : Target}
    (stops : StopsBefore tools entry target) :
    ∃ failure, addOneUser tools entry target = .error (failure, target) := by
  rw [addOneUser]
  cases check : checkUserValidity tools entry target with
  | some failure => exact ⟨failure, rfl⟩
  | none =>
    obtain ⟨failure, refused⟩ := stops.resolve_left fun stopped => stopped check
    rw [refused]
    exact ⟨failure, rfl⟩

/-- A call that goes on fails at the home directory only, when the lines of the user are gone. -/
theorem addOneUser_eq_fail {tools : Tools} {entry : Entry} {target : Target}
    (goes : ¬StopsBefore tools entry target) {format : String} {arguments : List Text}
    {after : Target} :
    addOneUser tools entry target = .error (.fail format arguments, after) ↔
      homeOf entry.home = .error (.fail format arguments) ∧
        after = target.without tools entry.username := by
  rw [StopsBefore, not_or, not_not, not_exists] at goes
  obtain ⟨valid, chosen⟩ := goes
  rw [addOneUser, valid]
  cases choice : chooseId (generateUid tools entry.username target.passwd) entry.uid with
  | error failure => exact absurd choice (chosen failure)
  | ok found =>
    obtain ⟨uid, uidAccepted⟩ := found
    simp only
    cases home : homeOf entry.home with
    | error failure =>
      simp only [Except.error.injEq, Prod.mk.injEq]
      exact and_congr_right fun _ => eq_comm
    | ok path =>
      refine iff_of_false (fun fails => ?_) fun fails => by cases fails.1
      simp only at fails
      split at fails
      · cases fails
      · split at fails
        · rw [makeHome] at fails
          split at fails
          · cases fails
          · split at fails <;> cases fails
        · cases fails

/-- The files are as they were after every call that ends in `fail` exactly when the home directory
is taken, or the call stops before, or the user has no lines. -/
theorem keepsAccounts_iff (tools : Tools) (entry : Entry) (target : Target) :
    KeepsAccounts tools entry target ↔
      IsHome entry.home ∨ StopsBefore tools entry target ∨
        ¬HasAccount tools entry.username target := by
  by_cases stops : StopsBefore tools entry target
  · refine iff_of_true (fun format arguments after fails => ?_) (Or.inr (Or.inl stops))
    obtain ⟨failure, unchanged⟩ := target_of_stopsBefore stops
    obtain ⟨_, rfl⟩ := Prod.mk.inj (Except.error.inj (unchanged.symm.trans fails))
    exact ⟨rfl, rfl⟩
  by_cases isHome : IsHome entry.home
  · refine iff_of_true (fun format arguments after fails => ?_) (Or.inl isHome)
    obtain ⟨path, taken⟩ := isHome_iff.mp isHome
    cases taken.symm.trans ((addOneUser_eq_fail stops).mp fails).1
  · obtain ⟨format, refused⟩ := exists_fail_of_not_isHome isHome
    rw [or_iff_right isHome, or_iff_right stops, HasAccount, not_or, not_not, not_not]
    constructor
    · exact fun keeps => keeps format [] _ ((addOneUser_eq_fail stops).mpr ⟨refused, rfl⟩)
    · rintro unchanged format arguments after fails
      obtain ⟨-, rfl⟩ := (addOneUser_eq_fail stops).mp fails
      exact unchanged

/-- The entry of a user of the skeleton, with a home directory that is refused. -/
def mailEntry : Entry :=
  ⟨"mail".toList, "8".toList, "mail".toList, "8".toList, "*".toList, "/".toList, "-".toList,
    "-".toList, "Mail".toList⟩

/-- The account of the user is lost. -/
theorem loses_account : ∃ after,
    addOneUser plainTools mailEntry smallTarget =
        .error (.fail "home can not explicitly be '/'\n" [], after) ∧
      ¬(after.passwd = smallTarget.passwd ∧ after.shadow = smallTarget.shadow) := by
  refine ⟨smallTarget.without plainTools "mail".toList, ?_, by decide +kernel⟩
  decide +kernel

end Buildroot4G.Users
