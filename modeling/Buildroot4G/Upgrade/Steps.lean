/-
This file says once what an install does. Inside a boot the mount table between
two installs is the one the boot started with: an install mounts, if it can, the
boot partition and the chosen partition, and unmounts both. From that follow
the three facts the results on runs are built from: which mounts an install
tries, on which device its erase and its extraction act, and which command line
and partition contents it leaves behind.
-/

import Buildroot4G.Upgrade.Install

namespace Buildroot4G.Upgrade

open Shell

/-! ### The mount table of a boot -/

/-- A kernel between two installs: the mount table is the one of the boot. -/
def Settled (boot : Boot) (live : Live) : Prop := live.mtab = bootMtab boot live.running

theorem bootMtab_points (boot : Boot) (running : RootPart) :
    ∀ mount ∈ bootMtab boot running, mount.point ≠ shadowPoint ∧ mount.point ≠ bootPoint := by
  have data : ∀ data1 data2 upgrade, ∀ mount ∈ dataMounts data1 data2 upgrade,
      mount.point ≠ shadowPoint ∧ mount.point ≠ bootPoint := by decide
  intro mount member
  rcases List.mem_append.mp member with inData | isRoot
  · exact data _ _ _ mount inData
  · rw [List.mem_singleton.mp isRoot]
    exact ⟨(by decide : "/".toList ≠ shadowPoint), (by decide : "/".toList ≠ bootPoint)⟩

/-- Adding the boot partition to the mount table does not list a root partition. -/
theorem grepMtab_mountBoot (install : Install) (part : RootPart) (live : Live) :
    grepMtab (deviceName part) (mountBoot install live).mtab =
      grepMtab (deviceName part) live.mtab := by
  have bootLine : grep (deviceName part) bootMount.line = false := by
    cases part <;> decide
  rw [mountBoot]
  split
  · rw [grepMtab, List.any_cons, bootLine, Bool.false_or, grepMtab]
  · rfl

/-- `/etc/mtab` lists a root partition exactly when it lists the running one under its device
node. -/
theorem grepMtab_deviceName (boot : Boot) (running part : RootPart) :
    grepMtab (deviceName part) (bootMtab boot running) = (boot.rootListed && part == running) := by
  have data : ∀ data1 data2 upgrade,
      grepMtab (deviceName part) (dataMounts data1 data2 upgrade) = false := by
    cases part <;> decide
  have root : ∀ rootListed, grep (deviceName part) (rootMount rootListed running).line =
      (rootListed && part == running) := by
    cases part <;> cases running <;> decide
  have dataLines := data boot.data1 boot.data2 boot.upgrade
  rw [grepMtab] at dataLines
  rw [grepMtab, bootMtab, List.any_append, dataLines, List.any_cons, root, List.any_nil,
    Bool.false_or, Bool.or_false]

/-- The boot partition is mounted, so `/etc/mtab` has the bare stem of a device name. -/
theorem grepMtab_deviceStem (mtab : List Mount) :
    grepMtab deviceStem (bootMount :: mtab) = true := by
  rw [grepMtab, List.any_cons, Bool.or_eq_true]
  exact Or.inl (by decide)

theorem mountedAt_eq_none {point : Text} {mtab : List Mount}
    (free : ∀ mount ∈ mtab, mount.point ≠ point) : mountedAt point mtab = none := by
  rw [mountedAt, Option.map_eq_none_iff, List.find?_eq_none]
  exact fun mount member same => free mount member (beq_iff_eq.mp same)

theorem umount_eq_self {point : Text} {mtab : List Mount}
    (free : ∀ mount ∈ mtab, mount.point ≠ point) : umount point mtab = mtab :=
  List.eraseP_of_forall_not fun mount member same => free mount member (beq_iff_eq.mp same)

/-! ### The fields each step writes -/

section Fields

variable (live : Live)

@[simp]
theorem unmountAll_machine : (unmountAll live).machine = live.machine := rfl

@[simp]
theorem unmountAll_running : (unmountAll live).running = live.running := rfl

@[simp]
theorem unmountAll_mtab :
    (unmountAll live).mtab = umount shadowPoint (umount bootPoint live.mtab) := rfl

theorem switchRoot_cmdline (usePart : Option RootPart) :
    (switchRoot usePart live).machine.cmdline =
      if (mountedAt bootPoint live.mtab).isSome then rewriteCmdline usePart live.machine.cmdline
      else live.machine.cmdline := by
  rw [switchRoot]
  split <;> rfl

@[simp]
theorem switchRoot_rootfs (usePart : Option RootPart) :
    (switchRoot usePart live).machine.rootfs = live.machine.rootfs := by
  rw [switchRoot]
  split <;> rfl

@[simp]
theorem switchRoot_running (usePart : Option RootPart) :
    (switchRoot usePart live).running = live.running := by
  rw [switchRoot]
  split <;> rfl

@[simp]
theorem switchRoot_mtab (usePart : Option RootPart) :
    (switchRoot usePart live).mtab = live.mtab := by
  rw [switchRoot]
  split <;> rfl

@[simp]
theorem appendLog_cmdline (line : String) :
    (appendLog line live).machine.cmdline = live.machine.cmdline := rfl

@[simp]
theorem appendLog_rootfs (line : String) :
    (appendLog line live).machine.rootfs = live.machine.rootfs := rfl

@[simp]
theorem appendLog_running (line : String) : (appendLog line live).running = live.running := rfl

@[simp]
theorem appendLog_mtab (line : String) : (appendLog line live).mtab = live.mtab := rfl

@[simp]
theorem mountBoot_machine (install : Install) :
    (mountBoot install live).machine = live.machine := by
  rw [mountBoot]
  split <;> rfl

@[simp]
theorem mountBoot_running (install : Install) :
    (mountBoot install live).running = live.running := by
  rw [mountBoot]
  split <;> rfl

theorem mountBoot_mtab (install : Install) :
    (mountBoot install live).mtab =
      if install.bootOk then bootMount :: live.mtab else live.mtab := by
  rw [mountBoot]
  split <;> rfl

@[simp]
theorem setShadow_cmdline (content : RootFs) :
    (setShadow content live).machine.cmdline = live.machine.cmdline := by
  rw [setShadow]
  split <;> rfl

@[simp]
theorem setShadow_running (content : RootFs) :
    (setShadow content live).running = live.running := by
  rw [setShadow]
  split <;> rfl

@[simp]
theorem setShadow_mtab (content : RootFs) : (setShadow content live).mtab = live.mtab := by
  rw [setShadow]
  split <;> rfl

/-- The content of the partition mounted at `/mnt/shadow-rootfs` is replaced, and no other. -/
theorem setShadow_rootfs_of_mounted {device : Text} (content : RootFs)
    (mounted : mountedAt shadowPoint live.mtab = some device) :
    (setShadow content live).machine.rootfs = fun part =>
      if devicePath part = device then content else live.machine.rootfs part := by
  rw [setShadow, mounted]

theorem setShadow_rootfs_of_none (content : RootFs)
    (unmounted : mountedAt shadowPoint live.mtab = none) :
    (setShadow content live).machine.rootfs = live.machine.rootfs := by
  rw [setShadow, unmounted]

@[simp]
theorem mountShadow_machine (install : Install) (usePart : Option RootPart) :
    (mountShadow install usePart live).machine = live.machine := by
  rw [mountShadow]
  split <;> rfl

@[simp]
theorem mountShadow_running (install : Install) (usePart : Option RootPart) :
    (mountShadow install usePart live).running = live.running := by
  rw [mountShadow]
  split <;> rfl

end Fields

/-! ### What one install does -/

/-- Whether an install has a partition mounted at `/mnt/shadow-rootfs` when it erases. -/
def shadowMounts (install : Install) (live : Live) : Bool :=
  triesMount install (usePart install live) (mountBoot install live) && install.mountOk

section FsInstall

variable {boot : Boot} {live : Live} (install : Install) (settled : Settled boot live)

include settled in
/-- Between installs nothing is mounted at either of the two mount points. -/
theorem Settled.points : ∀ mount ∈ live.mtab, mount.point ≠ shadowPoint ∧
    mount.point ≠ bootPoint := by
  rw [settled]
  exact bootMtab_points boot live.running

include settled in
/-- The boot partition is mounted during an install when its mount succeeds. -/
theorem isSome_mountedAt_bootPoint :
    (mountedAt bootPoint (mountBoot install live).mtab).isSome = install.bootOk := by
  rw [mountBoot_mtab]
  cases install.bootOk with
  | true => rfl
  | false =>
    rw [if_neg Bool.false_ne_true,
      mountedAt_eq_none fun mount member => (settled.points mount member).2]
    rfl

/-- With the boot partition mounted, the partition is chosen from its command line. -/
theorem usePart_of_boot (bootOk : install.bootOk = true) :
    usePart install live = getUnusedRootfsPartition live.machine.cmdline := by
  have mounted : (mountedAt bootPoint (mountBoot install live).mtab).isSome = true := by
    rw [mountBoot_mtab, if_pos bootOk]
    rfl
  rw [usePart, catCmdline, if_pos mounted, mountBoot_machine]

include settled in
/-- Without a command line to read, the first partition is the unused one. -/
theorem usePart_of_not_boot (bootOk : install.bootOk = false) :
    usePart install live = some .two := by
  rw [usePart, catCmdline, isSome_mountedAt_bootPoint install settled, bootOk,
    if_neg Bool.false_ne_true]
  decide

theorem triesMount_some (part : RootPart) (settled : Settled boot live) :
    triesMount install (some part) (mountBoot install live) =
      (!(boot.rootListed && part == live.running) && install.blockDevice) := by
  have lookup := grepMtab_mountBoot install part live
  rw [settled, grepMtab_deviceName, deviceName] at lookup
  rw [triesMount, usePartText, lookup]

theorem triesMount_none (bootOk : install.bootOk = true) :
    triesMount install none (mountBoot install live) = false := by
  rw [triesMount, mountBoot_mtab, if_pos bootOk, usePartText, List.append_nil, grepMtab_deviceStem]
  rfl

theorem mountShadow_mtab :
    (mountShadow install (usePart install live) (mountBoot install live)).mtab =
      if shadowMounts install live then
        ⟨useDevice (usePart install live), shadowPoint⟩ :: (mountBoot install live).mtab
      else (mountBoot install live).mtab := by
  rw [mountShadow, shadowMounts]
  split <;> rfl

/-- Mounting the chosen partition does not touch the mount of the boot partition. -/
theorem mountedAt_bootPoint_mountShadow :
    mountedAt bootPoint
        (mountShadow install (usePart install live) (mountBoot install live)).mtab =
      mountedAt bootPoint (mountBoot install live).mtab := by
  rw [mountShadow_mtab]
  split <;> rfl

include settled in
/-- What is at `/mnt/shadow-rootfs` when an install erases it. -/
theorem mountedAt_mountShadow :
    mountedAt shadowPoint
        (mountShadow install (usePart install live) (mountBoot install live)).mtab =
      if shadowMounts install live then some (useDevice (usePart install live)) else none := by
  rw [mountShadow_mtab]
  split
  · rfl
  · refine mountedAt_eq_none fun mount member => ?_
    rw [mountBoot_mtab] at member
    split at member
    · rcases List.mem_cons.mp member with rfl | old
      · decide
      · exact (settled.points mount old).1
    · exact (settled.points mount member).1

include settled in
/-- The erase and the extraction act on the chosen partition when it was mounted, and on the
running root file system otherwise. -/
theorem events_fsInstall :
    (fsInstall install live).events =
      (if triesMount install (usePart install live) (mountBoot install live)
        then [⟨.mount, useDevice (usePart install live), live.running⟩]
        else []) ++
      [⟨.erase, if shadowMounts install live then useDevice (usePart install live)
          else devicePath live.running, live.running⟩,
        ⟨.extract, if shadowMounts install live then useDevice (usePart install live)
          else devicePath live.running, live.running⟩] := by
  have device : shadowDevice (mountShadow install (usePart install live)
      (mountBoot install live)) =
      if shadowMounts install live then useDevice (usePart install live)
        else devicePath live.running := by
    rw [shadowDevice, mountedAt_mountShadow install settled, mountShadow_running,
      mountBoot_running]
    split <;> rfl
  rw [fsInstall]
  simp only [device, List.map_cons, List.map_nil]
  congr 1
  split <;> rfl

/-- `$?` behind the `echo` is `0`, so the script reports success whatever tar did. -/
@[simp]
theorem exitCode_fsInstall : (fsInstall install live).exitCode = 0 := rfl

@[simp]
theorem running_after_fsInstall : (fsInstall install live).after.running = live.running := by
  simp only [after_fsInstall, extractShadow, eraseShadow, unmountAll_running,
    switchRoot_running, appendLog_running, setShadow_running, mountShadow_running,
    mountBoot_running]

/-- The command line behind an install, by what is mounted at `/mnt/boot` during it. -/
theorem cmdline_after_of_mounted :
    (fsInstall install live).after.machine.cmdline =
      if (mountedAt bootPoint (mountBoot install live).mtab).isSome then
        rewriteCmdline (usePart install live) live.machine.cmdline
      else live.machine.cmdline := by
  simp only [after_fsInstall, extractShadow, eraseShadow, unmountAll_machine,
    switchRoot_cmdline, appendLog_cmdline, appendLog_mtab, setShadow_cmdline, setShadow_mtab,
    mountShadow_machine, mountBoot_machine, mountedAt_bootPoint_mountShadow]

/-- With the boot partition mounted, the command line is rewritten whatever happened before. -/
theorem cmdline_after_of_boot (bootOk : install.bootOk = true) :
    (fsInstall install live).after.machine.cmdline =
      rewriteCmdline (getUnusedRootfsPartition live.machine.cmdline) live.machine.cmdline := by
  have mounted : (mountedAt bootPoint (mountBoot install live).mtab).isSome = true := by
    rw [mountBoot_mtab, if_pos bootOk]
    rfl
  rw [cmdline_after_of_mounted, if_pos mounted, usePart_of_boot install bootOk]

include settled in
/-- Without the boot partition the command line stays. -/
theorem cmdline_after_of_not_boot (bootOk : install.bootOk = false) :
    (fsInstall install live).after.machine.cmdline = live.machine.cmdline := by
  rw [cmdline_after_of_mounted, isSome_mountedAt_bootPoint install settled, bootOk,
    if_neg Bool.false_ne_true]

include settled in
theorem settled_after_fsInstall : Settled boot (fsInstall install live).after := by
  have unboot : umount bootPoint (mountBoot install live).mtab = live.mtab := by
    rw [mountBoot_mtab]
    split
    · rfl
    · exact umount_eq_self fun mount member => (settled.points mount member).2
  have unshadow : umount shadowPoint live.mtab = live.mtab :=
    umount_eq_self fun mount member => (settled.points mount member).1
  rw [Settled, running_after_fsInstall, ← settled]
  simp only [after_fsInstall, extractShadow, eraseShadow, unmountAll_mtab, switchRoot_mtab,
    appendLog_mtab, setShadow_mtab, mountShadow_mtab]
  split
  · have under : ∀ device mtab, umount shadowPoint (umount bootPoint
        (⟨device, shadowPoint⟩ :: mtab)) = umount bootPoint mtab := fun _ _ => rfl
    rw [under, unboot]
  · rw [unboot, unshadow]

include settled in
/-- The partition an install mounted gets the content tar made of it; without a mount no
partition changes. -/
theorem rootfs_after_fsInstall :
    (fsInstall install live).after.machine.rootfs =
      if shadowMounts install live then fun part =>
        if devicePath part = useDevice (usePart install live)
        then (if install.tarOk then .complete else .truncated)
        else live.machine.rootfs part
      else live.machine.rootfs := by
  have mounted := mountedAt_mountShadow install settled
  simp only [after_fsInstall, extractShadow, eraseShadow, unmountAll_machine,
    switchRoot_rootfs, appendLog_rootfs]
  by_cases mounts : shadowMounts install live = true
  · rw [if_pos mounts] at mounted ⊢
    rw [setShadow_rootfs_of_mounted _ _ (by rw [setShadow_mtab]; exact mounted),
      setShadow_rootfs_of_mounted _ _ mounted, mountShadow_machine, mountBoot_machine]
    funext part
    by_cases chosen : devicePath part = useDevice (usePart install live)
    · rw [if_pos chosen, if_pos chosen]
    · simp only [if_neg chosen]
  · rw [if_neg mounts] at mounted ⊢
    rw [setShadow_rootfs_of_none _ _ (by rw [setShadow_mtab]; exact mounted),
      setShadow_rootfs_of_none _ _ mounted, mountShadow_machine, mountBoot_machine]

end FsInstall

/-! ### Sequences of boots -/

theorem startKernel_of_namesRoot (boot : Boot) {machine : Machine} {root : RootPart}
    (names : NamesRoot machine.cmdline root) :
    startKernel boot machine = some ⟨machine, root, bootMtab boot root⟩ := by
  rw [startKernel, rootOf_of_namesRoot names]
  rfl

/-- A boot contributes the steps of its loop, and the later boots continue from the card the
loop left. -/
theorem runBoots_cons (boot : Boot) (rest : List Boot) {machine : Machine} {root : RootPart}
    (names : NamesRoot machine.cmdline root) :
    runBoots (boot :: rest) machine =
      (upgradeLoop boot.installs ⟨machine, root, bootMtab boot root⟩).1 ++
        runBoots rest
          (upgradeLoop boot.installs ⟨machine, root, bootMtab boot root⟩).2.machine := by
  rw [runBoots, startKernel_of_namesRoot boot names]

section Runs

variable {Good Meets : Step → Prop} {Card : Machine → Prop}

/-- Over the loop of one boot: where the steps that are good are those that meet a condition, and
a good step keeps what is known of the card, the same holds of the whole loop. -/
theorem upgradeLoop_forall_iff {boot : Boot}
    (one : ∀ install live, Settled boot live → Card live.machine →
      (Good (fsInstall install live) ↔ Meets (fsInstall install live)) ∧
        (Good (fsInstall install live) → Card (fsInstall install live).after.machine))
    (installs : List Install) {live : Live} (settled : Settled boot live)
    (card : Card live.machine) :
    ((∀ step ∈ (upgradeLoop installs live).1, Good step) ↔
      ∀ step ∈ (upgradeLoop installs live).1, Meets step) ∧
    ((∀ step ∈ (upgradeLoop installs live).1, Good step) →
      Card (upgradeLoop installs live).2.machine) := by
  induction installs generalizing live with
  | nil =>
    refine ⟨iff_of_true ?_ ?_, fun _ => card⟩
    · exact fun step member => absurd member List.not_mem_nil
    · exact fun step member => absurd member List.not_mem_nil
  | cons install rest inductionHypothesis =>
    obtain ⟨same, keeps⟩ := one install live settled card
    rw [upgradeLoop]
    simp only [List.forall_mem_cons, ← same]
    by_cases good : Good (fsInstall install live)
    · obtain ⟨sameLater, later⟩ :=
        inductionHypothesis (settled_after_fsInstall install settled) (keeps good)
      exact ⟨and_congr_right fun _ => sameLater, fun both => later both.2⟩
    · exact ⟨iff_of_false (fun both => good both.1) (fun both => good both.1),
        fun both => absurd both.1 good⟩

/-- The same over all boots, where what is known of the card makes it boot. -/
theorem runBoots_forall_iff
    (named : ∀ machine, Card machine → ∃ root, NamesRoot machine.cmdline root)
    (one : ∀ boot install live, Settled boot live → Card live.machine →
      (Good (fsInstall install live) ↔ Meets (fsInstall install live)) ∧
        (Good (fsInstall install live) → Card (fsInstall install live).after.machine))
    (boots : List Boot) {machine : Machine} (card : Card machine) :
    (∀ step ∈ runBoots boots machine, Good step) ↔ ∀ step ∈ runBoots boots machine, Meets step := by
  induction boots generalizing machine with
  | nil =>
    refine iff_of_true ?_ ?_
    · exact fun step member => absurd member List.not_mem_nil
    · exact fun step member => absurd member List.not_mem_nil
  | cons boot rest inductionHypothesis =>
    obtain ⟨root, names⟩ := named machine card
    have settled : Settled boot ⟨machine, root, bootMtab boot root⟩ := rfl
    obtain ⟨same, later⟩ := upgradeLoop_forall_iff (one boot) boot.installs settled card
    rw [runBoots_cons boot rest names]
    simp only [List.forall_mem_append, ← same]
    exact and_congr_right fun good => inductionHypothesis (later good)

end Runs

/-- A card as it leaves production, with the command line the firmware package installs. -/
def factoryCard : Machine where
  cmdline := "root=/dev/mmcblk0p2 rootwait console=tty1 console=ttyAMA0,115200\n".toList
  rootfs part := if part = .two then .complete else .erased
  log := []

end Buildroot4G.Upgrade
