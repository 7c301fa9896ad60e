/-
This file models the upgrade system: the loop of `S021upgrade` over the install
packages found at a boot, and `fs-install-template`, the install script every
package carries. The state is the SD card (the command line on the boot
partition, the content of the two root partitions and the install log) together
with what the running kernel adds to it: the partition it runs from and the
mount table.

Everything an install may meet in its environment is an input of a run: whether
the boot partition can be mounted, whether the block device of the chosen
partition exists, whether mounting it succeeds and whether tar can extract the
archive. A path below `/mnt/shadow-rootfs` is on
the partition mounted there, and on the running root file system when nothing
is mounted there; every install records on which of the two its steps act.
-/

import Buildroot4G.Upgrade.Cmdline

namespace Buildroot4G.Upgrade

open Shell

/-! ### The state -/

/-- What a root partition holds. -/
inductive RootFs where
  | complete
  | erased
  | truncated
  deriving DecidableEq, Repr

/-- What survives a reboot: the SD card. -/
structure Machine where
  cmdline : Text
  rootfs : RootPart → RootFs
  log : List String

/-- An entry of the mount table. -/
structure Mount where
  device : Text
  point : Text
  deriving DecidableEq, Repr

/-- The line of `/etc/mtab` for a mount; the file system type and the options that follow name
no device. -/
def Mount.line (mount : Mount) : Text := mount.device ++ ' ' :: mount.point

/-- The card under a running kernel. The head of the mount table is the latest mount. -/
structure Live where
  machine : Machine
  running : RootPart
  mtab : List Mount

/-- The environment of one install. -/
structure Install where
  bootOk : Bool
  blockDevice : Bool
  mountOk : Bool
  tarOk : Bool
  deriving DecidableEq, Repr

inductive Action where
  | mount
  | erase
  | extract
  deriving DecidableEq, Repr

/-- A step of an install, with the device it acts on and the partition the kernel runs from. -/
structure Event where
  action : Action
  device : Text
  running : RootPart
  deriving DecidableEq, Repr

/-! ### Mounting -/

def bootPoint : Text := "/mnt/boot".toList

def shadowPoint : Text := "/mnt/shadow-rootfs".toList

def bootMount : Mount := ⟨"/dev/mmcblk0p1".toList, bootPoint⟩

/-- `cat /etc/mtab | grep pattern`. -/
def grepMtab (pattern : Text) (mtab : List Mount) : Bool :=
  mtab.any fun mount => grep pattern mount.line

/-- The device mounted at a mount point. -/
def mountedAt (point : Text) (mtab : List Mount) : Option Text :=
  (mtab.find? fun mount => mount.point == point).map Mount.device

/-- `umount`: the latest mount at the point goes, and nothing happens when there is none. -/
def umount (point : Text) (mtab : List Mount) : List Mount :=
  mtab.eraseP fun mount => mount.point == point

/-- The device that holds the files below `/mnt/shadow-rootfs`. -/
def shadowDevice (live : Live) : Text :=
  (mountedAt shadowPoint live.mtab).getD (devicePath live.running)

/-! ### The steps of fs-install-template -/

/-- The device node `/dev/mmcblk0p$use_part`. -/
def useDevice (usePart : Option RootPart) : Text :=
  "/dev/".toList ++ (deviceStem ++ usePartText usePart)

/-- `mount /dev/mmcblk0p1 /mnt/boot`, whose status nothing tests. -/
def mountBoot (install : Install) (live : Live) : Live :=
  if install.bootOk then { live with mtab := bootMount :: live.mtab } else live

/-- `cat /mnt/boot/cmdline.txt`: where nothing is mounted, the directory that `mkdir -p` has made
is empty, and there is no output. -/
def catCmdline (live : Live) : Text :=
  if (mountedAt bootPoint live.mtab).isSome then live.machine.cmdline else []

/-- `$use_part`. -/
def usePart (install : Install) (live : Live) : Option RootPart :=
  getUnusedRootfsPartition (catCmdline (mountBoot install live))

/-- Whether the script calls mount for the chosen partition: `/etc/mtab` does not list it and
its block device exists. -/
def triesMount (install : Install) (usePart : Option RootPart) (live : Live) : Bool :=
  !grepMtab (deviceStem ++ usePartText usePart) live.mtab && install.blockDevice

/-- `mount -t ext4 /dev/mmcblk0p$use_part /mnt/shadow-rootfs`, whose status nothing tests. -/
def mountShadow (install : Install) (usePart : Option RootPart) (live : Live) : Live :=
  if triesMount install usePart live && install.mountOk then
    { live with mtab := ⟨useDevice usePart, shadowPoint⟩ :: live.mtab }
  else live

/-- Gives new content to the partition mounted at `/mnt/shadow-rootfs`. Where none is mounted
the files are a directory of the running system, which keeps its own content. -/
def setShadow (content : RootFs) (live : Live) : Live :=
  match mountedAt shadowPoint live.mtab with
  | some device =>
    { live with machine := { live.machine with
        rootfs := fun part => if devicePath part = device then content
          else live.machine.rootfs part } }
  | none => live

/-- `rm -rf /mnt/shadow-rootfs/*`. -/
def eraseShadow (live : Live) : Live := setShadow .erased live

/-- `tar -xvf ./rootfs.tar -C /mnt/shadow-rootfs`. -/
def extractShadow (install : Install) (live : Live) : Live :=
  setShadow (if install.tarOk then .complete else .truncated) live

/-- The exit status of the `echo` that prints tar's. -/
def echoStatus : Nat := 0

/-- The test of `$?` behind the `echo`: the new value of `rc` and the line for the install log.
`$?` is the status of the `echo`; tar's own was in the old `rc`. -/
def report : Nat × String :=
  if echoStatus = 0 then (0, "installed rootfs to mmcblk0p3 mounted on /mnt/shadow-rootfs")
  else (1, "error couldn't install rootfs to mmcblk0p3")

def appendLog (line : String) (live : Live) : Live :=
  { live with machine := { live.machine with log := live.machine.log ++ [line] } }

/-- The edit of `cmdline.txt`, which nothing guards. It fails when the file is not there. -/
def switchRoot (usePart : Option RootPart) (live : Live) : Live :=
  if (mountedAt bootPoint live.mtab).isSome then
    { live with machine := { live.machine with
        cmdline := rewriteCmdline usePart live.machine.cmdline } }
  else live

/-- The two `umount` commands at the end. -/
def unmountAll (live : Live) : Live :=
  { live with mtab := umount shadowPoint (umount bootPoint live.mtab) }

/-- One execution of an install script. -/
structure Step where
  before : Live
  install : Install
  after : Live
  exitCode : Nat
  events : List Event

/-- `fs-install-template`. -/
def fsInstall (install : Install) (live : Live) : Step :=
  let usePart := usePart install live
  let booted := mountBoot install live
  let shadowed := mountShadow install usePart booted
  let tries := if triesMount install usePart booted then [Action.mount] else []
  let extracted := extractShadow install (eraseShadow shadowed)
  { before := live
    install
    after := unmountAll (switchRoot usePart (appendLog report.2 extracted))
    exitCode := report.1
    events := tries.map (fun action => ⟨action, useDevice usePart, live.running⟩) ++
      [Action.erase, Action.extract].map fun action =>
        ⟨action, shadowDevice shadowed, live.running⟩ }

theorem after_fsInstall (install : Install) (live : Live) :
    (fsInstall install live).after =
      unmountAll (switchRoot (usePart install live) (appendLog report.2 (extractShadow install
        (eraseShadow (mountShadow install (usePart install live) (mountBoot install live)))))) :=
  rfl

/-! ### Boots -/

/-- A boot: how `/etc/mtab` lists the root file system (under its device node or as
`/dev/root`), which of the data partitions `S01mount.sh` could mount, and the install packages
found in `/mnt/upgrade`. -/
structure Boot where
  rootListed : Bool
  data1 : Bool
  data2 : Bool
  upgrade : Bool
  installs : List Install

/-- The mounts of `S01mount.sh`. -/
def dataMounts (data1 data2 upgrade : Bool) : List Mount :=
  (if upgrade then [⟨"/dev/mmcblk0p7".toList, "/mnt/upgrade".toList⟩] else []) ++
    (if data2 then [⟨"/dev/mmcblk0p6".toList, "/mnt/data2".toList⟩] else []) ++
    (if data1 then [⟨"/dev/mmcblk0p5".toList, "/mnt/data1".toList⟩] else [])

def rootMount (rootListed : Bool) (running : RootPart) : Mount :=
  ⟨if rootListed then devicePath running else "/dev/root".toList, "/".toList⟩

/-- The mount table when `S021upgrade` starts. Its own attempt to mount `/mnt/mmcblk0p7` on
`/mnt/upgrade` names no device and adds nothing. -/
def bootMtab (boot : Boot) (running : RootPart) : List Mount :=
  dataMounts boot.data1 boot.data2 boot.upgrade ++ [rootMount boot.rootListed running]

/-- The kernel comes up from the partition the command line names, if it names one. -/
def startKernel (boot : Boot) (machine : Machine) : Option Live :=
  (rootOf machine.cmdline).map fun running => ⟨machine, running, bootMtab boot running⟩

/-- The loop of `S021upgrade` over the packages. -/
def upgradeLoop : List Install → Live → List Step × Live
  | [], live => ([], live)
  | install :: rest, live =>
    let step := fsInstall install live
    let later := upgradeLoop rest step.after
    (step :: later.1, later.2)

/-- The installs of a sequence of boots. A card without a root partition does not boot. -/
def runBoots : List Boot → Machine → List Step
  | [], _ => []
  | boot :: rest, machine =>
    match startKernel boot machine with
    | none => []
    | some live =>
      let upgraded := upgradeLoop boot.installs live
      upgraded.1 ++ runBoots rest upgraded.2.machine

end Buildroot4G.Upgrade
