/-
This file settles when an upgrade is atomic: when the partition named in
`cmdline.txt` holds a completely extracted root file system each time an install
terminates, and an install whose extraction fails changes nothing the boot reads
and exits with `1`.

The script tests `$?` after the `echo` that prints tar's status, so the status it
reports is the one of the `echo`, and the edit of `cmdline.txt` follows
unconditionally. An install is therefore atomic only when tar succeeds. It also
has to have found a partition to install on, and either mounted it or be lucky
with what it held before.
-/

import Buildroot4G.Upgrade.Steps

namespace Buildroot4G.Upgrade

open Shell

/-- What an install owes the next boot. -/
structure Atomic (step : Step) : Prop where
  bootable : ∃ root, rootOf step.after.machine.cmdline = some root ∧
    step.after.machine.rootfs root = .complete
  failing : step.install.tarOk = false →
    step.after.machine.cmdline = step.before.machine.cmdline ∧ step.exitCode = 1

instance (step : Step) : Decidable (Atomic step) :=
  decidable_of_iff ((∃ root, rootOf step.after.machine.cmdline = some root ∧
      step.after.machine.rootfs root = .complete) ∧
    (step.install.tarOk = false →
      step.after.machine.cmdline = step.before.machine.cmdline ∧ step.exitCode = 1))
    ⟨fun both => ⟨both.1, both.2⟩, fun atomic => ⟨atomic.bootable, atomic.failing⟩⟩

/-- Tar extracts the archive, and if the boot partition is mounted, the command line mentions one
of the two partitions only, and the other one is mounted for the extraction or holds a complete
root file system already. -/
structure Sound (step : Step) : Prop where
  extracts : step.install.tarOk = true
  unambiguous : step.install.bootOk = true → ∃ part, ¬ Mentions step.before.machine.cmdline part
  target : step.install.bootOk = true → ∀ part, ¬ Mentions step.before.machine.cmdline part →
    (step.install.blockDevice = true ∧ step.install.mountOk = true ∧
      grepMtab (deviceName part) step.before.mtab = false) ∨
    step.before.machine.rootfs part = .complete

instance (step : Step) : Decidable (Sound step) :=
  decidable_of_iff (step.install.tarOk = true ∧
      (step.install.bootOk = true → ∃ part, ¬ Mentions step.before.machine.cmdline part) ∧
      (step.install.bootOk = true → ∀ part, ¬ Mentions step.before.machine.cmdline part →
        (step.install.blockDevice = true ∧ step.install.mountOk = true ∧
          grepMtab (deviceName part) step.before.mtab = false) ∨
        step.before.machine.rootfs part = .complete))
    ⟨fun all => ⟨all.1, all.2.1, all.2.2⟩,
      fun sound => ⟨sound.extracts, sound.unambiguous, sound.target⟩⟩

/-- A card whose command line names a partition with a complete root file system. -/
structure Ready (machine : Machine) (root : RootPart) : Prop where
  names : NamesRoot machine.cmdline root
  complete : machine.rootfs root = .complete

/-! ### One install -/

section Install

variable {boot : Boot} {live : Live} {root : RootPart} (install : Install)

theorem shadowMounts_iff {part : RootPart} (chosen : usePart install live = some part) :
    shadowMounts install live = true ↔
      install.blockDevice = true ∧ install.mountOk = true ∧
        grepMtab (deviceName part) live.mtab = false := by
  have lookup := grepMtab_mountBoot install part live
  rw [deviceName] at lookup
  rw [shadowMounts, chosen, triesMount, usePartText, lookup, Bool.and_eq_true,
    Bool.and_eq_true, Bool.not_eq_true', ← deviceName]
  constructor
  · rintro ⟨⟨unlisted, block⟩, mount⟩
    exact ⟨block, mount, unlisted⟩
  · rintro ⟨block, mount, unlisted⟩
    exact ⟨⟨unlisted, block⟩, mount⟩

/-- The partition an install chose holds, after a successful extraction, a complete root file
system when it was mounted and its old content otherwise. -/
theorem rootfs_of_chosen (settled : Settled boot live) {part : RootPart}
    (chosen : usePart install live = some part) (extracts : install.tarOk = true) :
    (fsInstall install live).after.machine.rootfs part = .complete ↔
      shadowMounts install live = true ∨ live.machine.rootfs part = .complete := by
  have device : useDevice (some part) = devicePath part := rfl
  rw [rootfs_after_fsInstall install settled, chosen, extracts, device]
  by_cases mounts : shadowMounts install live = true
  · rw [if_pos mounts, if_pos rfl, if_pos rfl]
    exact iff_of_true rfl (Or.inl mounts)
  · rw [if_neg mounts]
    exact ⟨Or.inr, fun either => either.resolve_left mounts⟩

/-- After a successful extraction a complete root file system is still complete. -/
theorem complete_after (settled : Settled boot live) (extracts : install.tarOk = true)
    {part : RootPart} (complete : live.machine.rootfs part = .complete) :
    (fsInstall install live).after.machine.rootfs part = .complete := by
  rw [rootfs_after_fsInstall install settled, extracts]
  split
  · dsimp only
    split
    · rfl
    · exact complete
  · exact complete

/-- An install never reports a failure, so it is atomic only when tar succeeds. -/
theorem extracts_of_atomic (atomic : Atomic (fsInstall install live)) : install.tarOk = true := by
  by_contra failed
  have exit := (atomic.failing (Bool.eq_false_iff.mpr failed)).2
  rw [exitCode_fsInstall] at exit
  cases exit

/-- The root partition that is named behind an install with the boot partition, if one is. -/
theorem rootOf_after_of_boot (names : NamesRoot live.machine.cmdline root)
    (bootOk : install.bootOk = true) :
    rootOf (fsInstall install live).after.machine.cmdline =
      if Mentions live.machine.cmdline root.other then none else some root.other := by
  have mentions := mentions_of_namesRoot names
  rw [cmdline_after_of_boot install bootOk]
  split
  · next both =>
    rw [getUnused_of_mentions mentions both, rootOf_rewrite_none names]
  · next both =>
    rw [getUnused_of_not_mentions mentions both]
    exact rootOf_of_namesRoot (namesRoot_rewrite names root.other)

/-- With the boot partition, being atomic and being sound are the same. -/
theorem atomic_iff_of_boot (settled : Settled boot live) (ready : Ready live.machine root)
    (bootOk : install.bootOk = true) :
    Atomic (fsInstall install live) ↔ Sound (fsInstall install live) := by
  have mentions := mentions_of_namesRoot ready.names
  have rootAfter := rootOf_after_of_boot install ready.names bootOk
  by_cases both : Mentions live.machine.cmdline root.other
  · refine iff_of_false (fun atomic => ?_) (fun sound => ?_)
    · obtain ⟨part, names, _⟩ := atomic.bootable
      rw [rootAfter, if_pos both] at names
      cases names
    · obtain ⟨part, missing⟩ := sound.unambiguous bootOk
      rcases RootPart.eq_or_eq_other root part with rfl | rfl
      · exact missing mentions
      · exact missing both
  · have chosen : usePart install live = getUnusedRootfsPartition live.machine.cmdline :=
      usePart_of_boot install bootOk
    rw [getUnused_of_not_mentions mentions both] at chosen
    rw [if_neg both] at rootAfter
    constructor
    · intro atomic
      have extracts := extracts_of_atomic install atomic
      obtain ⟨part, names, complete⟩ := atomic.bootable
      rw [rootAfter, Option.some.injEq] at names
      subst names
      refine ⟨extracts, fun _ => ⟨root.other, both⟩, fun _ part missing => ?_⟩
      rcases RootPart.eq_or_eq_other root part with rfl | rfl
      · exact absurd mentions missing
      · refine ((rootfs_of_chosen install settled chosen extracts).mp complete).imp_left ?_
        exact (shadowMounts_iff install chosen).mp
    · intro sound
      have extracts : install.tarOk = true := sound.extracts
      refine ⟨⟨root.other, rootAfter, ?_⟩, fun failed => ?_⟩
      · refine (rootfs_of_chosen install settled chosen extracts).mpr ?_
        exact (sound.target bootOk root.other both).imp_left (shadowMounts_iff install chosen).mpr
      · rw [show install.tarOk = false from failed] at extracts
        cases extracts

/-- Without the boot partition nothing is switched, and an install is atomic when tar succeeds. -/
theorem atomic_iff_of_not_boot (settled : Settled boot live) (ready : Ready live.machine root)
    (bootOk : install.bootOk = false) :
    Atomic (fsInstall install live) ↔ Sound (fsInstall install live) := by
  have noBoot : ¬ install.bootOk = true := Bool.eq_false_iff.mp bootOk
  constructor
  · intro atomic
    exact ⟨extracts_of_atomic install atomic, fun isBoot => absurd isBoot noBoot,
      fun isBoot => absurd isBoot noBoot⟩
  · intro sound
    have extracts : install.tarOk = true := sound.extracts
    refine ⟨⟨root, ?_, complete_after install settled extracts ready.complete⟩, fun failed => ?_⟩
    · rw [cmdline_after_of_not_boot install settled bootOk]
      exact rootOf_of_namesRoot ready.names
    · rw [show install.tarOk = false from failed] at extracts
      cases extracts

/-- An atomic install leaves the card ready again. -/
theorem ready_after_fsInstall (settled : Settled boot live) (ready : Ready live.machine root)
    (atomic : Atomic (fsInstall install live)) :
    ∃ next, Ready (fsInstall install live).after.machine next := by
  cases bootOk : install.bootOk with
  | false =>
    refine ⟨root, ?_, complete_after install settled (extracts_of_atomic install atomic)
      ready.complete⟩
    rw [cmdline_after_of_not_boot install settled bootOk]
    exact ready.names
  | true =>
    obtain ⟨part, names, complete⟩ := atomic.bootable
    rw [rootOf_after_of_boot install ready.names bootOk] at names
    split at names
    · cases names
    · next both =>
      cases names
      refine ⟨root.other, ?_, complete⟩
      rw [cmdline_after_of_boot install bootOk,
        getUnused_of_not_mentions (mentions_of_namesRoot ready.names) both]
      exact namesRoot_rewrite ready.names root.other

end Install

/-! ### Runs -/

/-- In every run of boots and installs that starts from a command line naming a complete root
partition, every install is atomic exactly when every install is sound. -/
theorem runBoots_atomic_iff (machine : Machine) (root : RootPart)
    (names : NamesRoot machine.cmdline root) (complete : machine.rootfs root = .complete)
    (boots : List Boot) :
    (∀ step ∈ runBoots boots machine, Atomic step) ↔
      ∀ step ∈ runBoots boots machine, Sound step := by
  refine @runBoots_forall_iff Atomic Sound (fun machine => ∃ root, Ready machine root)
    (fun machine ready => ready.imp fun root ready => ready.names) ?_ boots machine
    ⟨root, names, complete⟩
  rintro boot install live settled ⟨root, ready⟩
  refine ⟨?_, ready_after_fsInstall install settled ready⟩
  cases bootOk : install.bootOk with
  | true => exact atomic_iff_of_boot install settled ready bootOk
  | false => exact atomic_iff_of_not_boot install settled ready bootOk

/-- Two boots with one sound install each. -/
theorem runBoots_atomic_factory :
    ∃ boots : List Boot, boots = [⟨false, true, true, true, [⟨true, true, true, true⟩]⟩,
        ⟨false, true, true, true, [⟨true, true, true, true⟩]⟩] ∧
      ∀ step ∈ runBoots boots factoryCard, Atomic step := by
  refine ⟨_, rfl, (runBoots_atomic_iff factoryCard .two (by decide) rfl _).mpr ?_⟩
  decide +kernel

/-- One install whose extraction fails: it exits with `0`, and the next boot is from the
truncated partition. -/
theorem runBoots_not_atomic_factory :
    NamesRoot factoryCard.cmdline .two ∧ factoryCard.rootfs .two = .complete ∧
      ¬ ∀ step ∈ runBoots [⟨false, true, true, true, [⟨true, true, true, false⟩]⟩] factoryCard,
        Atomic step := by
  decide +kernel

end Buildroot4G.Upgrade
