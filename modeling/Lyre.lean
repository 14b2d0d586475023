import Lyre.Properties.Backlog
import Lyre.Properties.ChildWaits
import Lyre.Properties.CloseOnExec
import Lyre.Properties.Console
import Lyre.Properties.Destroy
import Lyre.Properties.DiskScans
import Lyre.Properties.DotEntries
import Lyre.Properties.ElfPages
import Lyre.Properties.Ext2Inodes
import Lyre.Properties.Ext2Set
import Lyre.Properties.Ext2Trees
import Lyre.Properties.FatChildren
import Lyre.Properties.Futex
import Lyre.Properties.InetAdapters
import Lyre.Properties.InetPorts
import Lyre.Properties.InetTable
import Lyre.Properties.InitialStack
import Lyre.Properties.Initramfs
import Lyre.Properties.InsertedNames
import Lyre.Properties.Locks
import Lyre.Properties.Mprotect
import Lyre.Properties.NetBounds
import Lyre.Properties.NetMtu
import Lyre.Properties.NetRoute
import Lyre.Properties.NewDescriptors
import Lyre.Properties.Nvme
import Lyre.Properties.NvmeCommands
import Lyre.Properties.Parents
import Lyre.Properties.Partition
import Lyre.Properties.PmmInit
import Lyre.Properties.PollStatus
import Lyre.Properties.Process
import Lyre.Properties.RandomReference
import Lyre.Properties.Readdir
import Lyre.Properties.RunQueue
import Lyre.Properties.SlabRealloc
import Lyre.Properties.TcpFin
import Lyre.Properties.TcpInflight
import Lyre.Properties.TcpOptions
import Lyre.Properties.TcpQueue
import Lyre.Properties.TimeNsleep
import Lyre.Properties.TimerIndices
import Lyre.Properties.TmpfsGrowth
import Lyre.Properties.Transfers
import Lyre.Properties.Udp
import Lyre.Properties.UnixPair
import Lyre.Properties.VfsCalls
import Lyre.Properties.VfsCwd
import Lyre.Properties.Waitpid
import Lyre.Properties.Waits
import Lyre.Spec.PageMap
