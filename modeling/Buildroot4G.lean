import Buildroot4G.Depends.CheckOnly
import Buildroot4G.Depends.Circular
import Buildroot4G.Depends.Closure
import Buildroot4G.Depends.Depth
import Buildroot4G.Depends.Drawn
import Buildroot4G.Depends.Reduction
import Buildroot4G.Download.Enforced
import Buildroot4G.Download.Leftover
import Buildroot4G.Download.Stable
import Buildroot4G.Gconv.Kept
import Buildroot4G.Host.SearchPath
import Buildroot4G.Image.Format
import Buildroot4G.Image.Transfer
import Buildroot4G.Kconf.Compare
import Buildroot4G.Kconf.Dups
import Buildroot4G.Kconf.Lines
import Buildroot4G.Kconf.RoundTrip
import Buildroot4G.Kconf.Slots
import Buildroot4G.Keyed
import Buildroot4G.Makedevs.Columns
import Buildroot4G.Makedevs.Directory
import Buildroot4G.Makedevs.LineFromFile
import Buildroot4G.Manual.Providers
import Buildroot4G.Packages.Kconfig
import Buildroot4G.Packages.Libtool
import Buildroot4G.Packages.PatchScan
import Buildroot4G.Packages.Prefixes
import Buildroot4G.Packages.Rebuild
import Buildroot4G.Packages.Several
import Buildroot4G.Packages.Skeleton
import Buildroot4G.Progs.GpioInterrupt
import Buildroot4G.Progs.PressClass
import Buildroot4G.Progs.VideoBuffers
import Buildroot4G.Progs.VideoOverlay
import Buildroot4G.Registry.Repeated
import Buildroot4G.Shell.Number
import Buildroot4G.Stats.Accounted
import Buildroot4G.Stats.Attribution
import Buildroot4G.Stats.Consistent
import Buildroot4G.Stats.Matching
import Buildroot4G.Stats.Totals
import Buildroot4G.Toolchain.LibRoot
import Buildroot4G.Toolchain.Libdir
import Buildroot4G.Toolchain.Sysroots
import Buildroot4G.Toolchain.WrapperArgs
import Buildroot4G.Upgrade.Atomic
import Buildroot4G.Upgrade.Restored
import Buildroot4G.Upgrade.Running
import Buildroot4G.Users.AddMember
import Buildroot4G.Users.Again
import Buildroot4G.Users.Dropped
import Buildroot4G.Users.Failed
import Buildroot4G.Users.Files
import Buildroot4G.Users.Ids
import Buildroot4G.Users.Members
import Buildroot4G.Users.Mkusers
import Buildroot4G.Users.Regular
import Buildroot4G.Users.Run
import Buildroot4G.Users.Settled
import Buildroot4G.Users.Twice
import Buildroot4G.Users.UniqueIds
