import JanuaryOs.Sched.Stdin
import JanuaryOs.Sched.Stop
import JanuaryOs.Sched.Fork
import JanuaryOs.Sched.Teardown
import JanuaryOs.Proc.Family
import JanuaryOs.Virt.SharedFork
import JanuaryOs.Virt.Pointwise
import JanuaryOs.Exec.Reap
import JanuaryOs.Libs.Mptree.Ranges
import JanuaryOs.Libs.Rdtree.Iter
import JanuaryOs.Exec.Inherit
import JanuaryOs.Fs.Redirect
import JanuaryOs.Fs.Path
import JanuaryOs.Libs.Rcu
import JanuaryOs.Alloc.HeapContract
import JanuaryOs.Alloc.SlubContract
import JanuaryOs.Phys.HandOff
import JanuaryOs.Phys.Coalesce
import JanuaryOs.Dma.BounceFlow
import JanuaryOs.Dma.CoherentSpec
import JanuaryOs.Virt.FaultContainment
import JanuaryOs.Exec.StackLayout
import JanuaryOs.Virt.StackGrowth
import JanuaryOs.Usb.XhciRing
import JanuaryOs.Sync.Latch
import JanuaryOs.Sync.Semaphore
import JanuaryOs.Sync.Once
import JanuaryOs.Tty.Pty
import JanuaryOs.Pci.Capability
import JanuaryOs.Block.Crc32
import JanuaryOs.Dma.VtdMappings
import JanuaryOs.Libs.Mptree.Stored
