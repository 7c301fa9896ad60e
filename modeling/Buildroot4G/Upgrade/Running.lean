/-
This file settles when an upgrade leaves the running system alone. The command
line names the partition of the next boot, and each install rewrites it, so
after one install the unused partition of the text is the running one: a second
package found at the same boot is installed over the running system. The same
happens when the chosen partition is not mounted, because `/mnt/shadow-rootfs`
is then a directory of the running system, when the command line mentions both
partitions, because then none is chosen, and when the boot partition is not
mounted, because then the first partition is chosen for any running system.

These are the only ways: `running_untouched_iff` is an equivalence over all
sequences of boots.
-/

import Buildroot4G.Upgrade.Steps

namespace Buildroot4G.Upgrade

open Shell

/-- No step of an install acts on the partition the kernel runs from. -/
def Untouched (step : Step) : Prop :=
  ∀ event ∈ step.events, event.device ≠ devicePath event.running

instance (step : Step) : Decidable (Untouched step) :=
  inferInstanceAs (Decidable (∀ event ∈ step.events, event.device ≠ devicePath event.running))

/-- The chosen partition is mounted. When the boot partition is, its command line mentions the
running partition only; when it is not, the system runs from the second one. -/
structure Careful (step : Step) : Prop where
  mounts : step.install.blockDevice = true ∧ step.install.mountOk = true
  single : step.install.bootOk = true →
    ¬ Mentions step.before.machine.cmdline step.before.running.other
  second : step.install.bootOk = false → step.before.running = .three

instance (step : Step) : Decidable (Careful step) :=
  decidable_of_iff ((step.install.blockDevice = true ∧ step.install.mountOk = true) ∧
      (step.install.bootOk = true →
        ¬ Mentions step.before.machine.cmdline step.before.running.other) ∧
      (step.install.bootOk = false → step.before.running = .three))
    ⟨fun all => ⟨all.1, all.2.1, all.2.2⟩,
      fun careful => ⟨careful.mounts, careful.single, careful.second⟩⟩

/-! ### One install -/

section Install

variable {boot : Boot} {live : Live} (install : Install)

theorem useDevice_some (part : RootPart) : useDevice (some part) = devicePath part := rfl

/-- Where nothing is mounted at `/mnt/shadow-rootfs` the running system is erased. -/
theorem not_untouched_of_not_mounts (settled : Settled boot live)
    (unmounted : shadowMounts install live = false) : ¬ Untouched (fsInstall install live) := by
  intro untouched
  rw [Untouched, events_fsInstall install settled, unmounted] at untouched
  exact untouched ⟨.erase, devicePath live.running, live.running⟩
    (List.mem_append_right _ List.mem_cons_self) rfl

/-- An install that chose the partition next to the running one acts on it alone, if it mounts
it. -/
theorem untouched_iff_of_other (settled : Settled boot live)
    (chosen : usePart install live = some live.running.other) :
    Untouched (fsInstall install live) ↔
      install.blockDevice = true ∧ install.mountOk = true := by
  have notListed : (live.running.other == live.running) = false :=
    beq_eq_false_iff_ne.mpr (RootPart.other_ne live.running)
  have mounts : shadowMounts install live = (install.blockDevice && install.mountOk) := by
    rw [shadowMounts, chosen, triesMount_some install _ settled, notListed, Bool.and_false,
      Bool.not_false, Bool.true_and]
  constructor
  · intro untouched
    by_contra failed
    refine not_untouched_of_not_mounts install settled ?_ untouched
    rw [mounts, Bool.and_eq_false_iff]
    rcases Decidable.not_and_iff_or_not.mp failed with block | mount
    · exact Or.inl (Bool.eq_false_iff.mpr block)
    · exact Or.inr (Bool.eq_false_iff.mpr mount)
  · rintro ⟨block, mount⟩ event member
    have different : devicePath live.running.other ≠ devicePath live.running :=
      fun same => RootPart.other_ne live.running (devicePath_injective same)
    rw [events_fsInstall install settled, mounts, block, mount, chosen, useDevice_some] at member
    have here : event.device = devicePath live.running.other ∧ event.running = live.running := by
      rcases List.mem_append.mp member with tried | acted
      · split at tried
        · rw [List.mem_singleton.mp tried]
          exact ⟨rfl, rfl⟩
        · cases tried
      · rcases List.mem_cons.mp acted with rfl | last
        · exact ⟨rfl, rfl⟩
        · rw [List.mem_singleton.mp last]
          exact ⟨rfl, rfl⟩
    rw [here.1, here.2]
    exact different

/-- An install that chose the running partition acts on it, mounted or not. -/
theorem not_untouched_of_running (settled : Settled boot live)
    (chosen : usePart install live = some live.running) :
    ¬ Untouched (fsInstall install live) := by
  cases mounts : shadowMounts install live with
  | false => exact not_untouched_of_not_mounts install settled mounts
  | true =>
    intro untouched
    rw [Untouched, events_fsInstall install settled, mounts, chosen] at untouched
    exact untouched ⟨.erase, devicePath live.running, live.running⟩
      (List.mem_append_right _ List.mem_cons_self) rfl

/-- An install that chose nothing erases the running system. -/
theorem not_untouched_of_none (settled : Settled boot live) (bootOk : install.bootOk = true)
    (chosen : usePart install live = none) : ¬ Untouched (fsInstall install live) := by
  refine not_untouched_of_not_mounts install settled ?_
  rw [shadowMounts, chosen, triesMount_none install bootOk, Bool.false_and]

/-- An install with the boot partition leaves the running system alone exactly when it is
careful. -/
theorem untouched_iff_of_boot (settled : Settled boot live) (bootOk : install.bootOk = true)
    {root : RootPart} (names : NamesRoot live.machine.cmdline root) :
    Untouched (fsInstall install live) ↔ Careful (fsInstall install live) := by
  have mentions := mentions_of_namesRoot names
  have chosen : usePart install live = getUnusedRootfsPartition live.machine.cmdline :=
    usePart_of_boot install bootOk
  by_cases both : Mentions live.machine.cmdline root.other
  · refine iff_of_false (not_untouched_of_none install settled bootOk ?_) fun careful => ?_
    · rw [chosen, getUnused_of_mentions mentions both]
    · have single : ¬ Mentions live.machine.cmdline live.running.other := careful.single bootOk
      rcases RootPart.eq_or_eq_other root live.running.other with same | same
      · exact single (same ▸ mentions)
      · exact single (same ▸ both)
  · rw [getUnused_of_not_mentions mentions both] at chosen
    rcases RootPart.eq_or_eq_other root live.running with same | same
    · rw [← same] at chosen both
      rw [untouched_iff_of_other install settled chosen]
      exact ⟨fun mounts => ⟨mounts, fun _ => both, fun noBoot => absurd (bootOk.symm.trans noBoot)
        Bool.noConfusion⟩, Careful.mounts⟩
    · rw [← same] at chosen
      refine iff_of_false (not_untouched_of_running install settled chosen) fun careful => ?_
      have single : ¬ Mentions live.machine.cmdline live.running.other := careful.single bootOk
      rw [same, RootPart.other_other] at single
      exact single mentions

/-- Without the boot partition the first partition is chosen. -/
theorem untouched_iff_of_not_boot (settled : Settled boot live)
    (bootOk : install.bootOk = false) :
    Untouched (fsInstall install live) ↔ Careful (fsInstall install live) := by
  have chosen := usePart_of_not_boot install settled bootOk
  cases running : live.running with
  | two =>
    rw [← running] at chosen
    refine iff_of_false (not_untouched_of_running install settled chosen) fun careful => ?_
    have second : live.running = .three := careful.second bootOk
    rw [running] at second
    cases second
  | three =>
    have other : RootPart.two = live.running.other := by rw [running]; rfl
    rw [other] at chosen
    rw [untouched_iff_of_other install settled chosen]
    exact ⟨fun mounts => ⟨mounts, fun isBoot => absurd (bootOk.symm.trans isBoot)
      Bool.noConfusion, fun _ => running⟩, Careful.mounts⟩

/-- A careful install leaves a command line that names a root partition. -/
theorem namesRoot_after (settled : Settled boot live) {root : RootPart}
    (names : NamesRoot live.machine.cmdline root) (careful : Careful (fsInstall install live)) :
    ∃ next, NamesRoot (fsInstall install live).after.machine.cmdline next := by
  cases bootOk : install.bootOk with
  | false =>
    rw [cmdline_after_of_not_boot install settled bootOk]
    exact ⟨root, names⟩
  | true =>
    have mentions := mentions_of_namesRoot names
    have single : ¬ Mentions live.machine.cmdline live.running.other := careful.single bootOk
    have both : ¬ Mentions live.machine.cmdline root.other := by
      rcases RootPart.eq_or_eq_other root live.running with same | same
      · rwa [same] at single
      · rw [same, RootPart.other_other] at single
        exact absurd mentions single
    rw [cmdline_after_of_boot install bootOk, getUnused_of_not_mentions mentions both]
    exact ⟨root.other, namesRoot_rewrite names root.other⟩

end Install

/-! ### Sequences of boots -/

/-- With at most one package at a boot, with all mounts and with a command line that mentions the
root partition only, every install is careful. -/
theorem careful_of_single (machine : Machine) (root : RootPart)
    (names : NamesRoot machine.cmdline root) (alone : ¬ Mentions machine.cmdline root.other)
    (boots : List Boot) (single : ∀ boot ∈ boots, boot.installs.length ≤ 1)
    (mounts : ∀ boot ∈ boots, ∀ install ∈ boot.installs,
      install.bootOk = true ∧ install.blockDevice = true ∧ install.mountOk = true) :
    ∀ step ∈ runBoots boots machine, Careful step := by
  induction boots generalizing machine root with
  | nil => exact fun step member => absurd member List.not_mem_nil
  | cons boot rest inductionHypothesis =>
    obtain ⟨one, laterSingle⟩ := List.forall_mem_cons.mp single
    obtain ⟨mounted, laterMounts⟩ := List.forall_mem_cons.mp mounts
    rw [runBoots_cons boot rest names]
    rcases installs : boot.installs with _ | ⟨install, _ | ⟨second, others⟩⟩
    · exact inductionHypothesis machine root names alone laterSingle laterMounts
    · obtain ⟨bootOk, shadow⟩ := mounted install (by rw [installs]; exact List.mem_cons_self)
      have cmdline : (fsInstall install ⟨machine, root, bootMtab boot root⟩).after.machine.cmdline =
          rewriteCmdline (getUnusedRootfsPartition machine.cmdline) machine.cmdline :=
        cmdline_after_of_boot install bootOk
      have chosen := getUnused_of_not_mentions (mentions_of_namesRoot names) alone
      have nextAlone := not_mentions_rewrite machine.cmdline root.other
      rw [chosen] at cmdline
      have later := inductionHypothesis
        (fsInstall install ⟨machine, root, bootMtab boot root⟩).after.machine root.other
        (by rw [cmdline]; exact namesRoot_rewrite names root.other)
        (by rw [cmdline]; exact nextAlone) laterSingle laterMounts
      simp only [upgradeLoop, List.cons_append, List.nil_append, List.forall_mem_cons]
      exact ⟨⟨shadow, fun _ => alone, fun noBoot => absurd (bootOk.symm.trans noBoot)
        Bool.noConfusion⟩, later⟩
    · rw [installs] at one
      exact absurd one (by simp)

end Buildroot4G.Upgrade
