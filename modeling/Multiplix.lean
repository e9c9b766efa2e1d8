import Multiplix.Alloc.BlockSafety
import Multiplix.Alloc.BuddySafety
import Multiplix.Proc.ForkRefinement
import Multiplix.Vm.Refinement
import Multiplix.Fs.Block
import Multiplix.Fs.Inode
import Multiplix.Fs.Path
import Multiplix.Lib.Dll
import Multiplix.Sched.Effects
import Multiplix.Sched.Family
import Multiplix.Sched.Fifo
import Multiplix.Sched.Preempt
import Multiplix.Sched.Wakeup
import Multiplix.Core.Hashmap
import Multiplix.Core.HashmapOps
import Multiplix.Core.HashmapRefinement
import Multiplix.Proc.CountOps
import Multiplix.Proc.Lifecycle
import Multiplix.Fs.Create
import Multiplix.Fs.Effect
import Multiplix.Fs.Objects
import Multiplix.Fs.Release
import Multiplix.Alloc.BlockReuse
import Multiplix.Alloc.BuddyCanonical
import Multiplix.Boot.Crc
import Multiplix.Boot.Uart
import Multiplix.Fs.Bmap
import Multiplix.Fs.Cache
import Multiplix.Fs.CacheRuns
import Multiplix.Fs.Coherence
import Multiplix.Fs.Inodes
import Multiplix.Fs.Descriptors
import Multiplix.Fs.Pinned
import Multiplix.Fs.PathReach
import Multiplix.Fs.Resolve
import Multiplix.Fs.Contents
import Multiplix.Fs.Directory
import Multiplix.Fs.FileLaw
import Multiplix.Fs.Link
import Multiplix.Lib.Spinlock
import Multiplix.Proc.PageLocks
import Multiplix.Sched.PageLocks
import Multiplix.Proc.Destroy
import Multiplix.Proc.ForkPerms
import Multiplix.Sched.Fork
import Multiplix.Fs.Balance
import Multiplix.Fs.Buffers
import Multiplix.Fs.Terminal
import Multiplix.Proc.Checkaddr
import Multiplix.Core.Printf
import Multiplix.Core.BitRange
import Multiplix.Core.Builtins
import Multiplix.Sched.Timer
import Multiplix.Vm.Accessors
import Multiplix.Vm.Descriptor
import Multiplix.Vm.Free
import Multiplix.Proc.HeapPages
import Multiplix.Proc.Iterate
import Multiplix.Proc.ElfReads
import Multiplix.Alloc.OrderSize
import Multiplix.Alloc.SlotList
import Multiplix.Alloc.Arena
import Multiplix.Alloc.Vector
import Multiplix.Boot.Relocate
import Multiplix.Check.Vm
import Multiplix.Tools.Expand
import Multiplix.Tools.ElfImage
import Multiplix.Tools.ReadBack
import Multiplix.Check.Conc
import Multiplix.Trap.Riscv64
import Multiplix.Trap.Aarch64
import Multiplix.Sys.Handler
