import Synx.Apic.Madt
import Synx.Apic.Uptime
import Synx.Console.Framebuffer
import Synx.Console.Printing
import Synx.Dynlink.Bounds
import Synx.Dynlink.Load
import Synx.Dynlink.Relocated
import Synx.Exec.Accounts
import Synx.Exec.AddressSpace
import Synx.Exec.Building
import Synx.Exec.Copying
import Synx.Exec.Edits
import Synx.Exec.Image
import Synx.Exec.Mapping
import Synx.Exec.PageTree
import Synx.Exec.PagedCopy
import Synx.Exec.Relocation
import Synx.Exec.Segments
import Synx.Exec.Stack
import Synx.Exec.Teardown
import Synx.Exec.UserView
import Synx.Exec.View
import Synx.Fs.AccessMode
import Synx.Fs.Archive
import Synx.Fs.ArchiveScan
import Synx.Fs.Boot
import Synx.Fs.Canonical
import Synx.Fs.Creation
import Synx.Fs.Growth
import Synx.Fs.HeapUse
import Synx.Fs.Initramfs
import Synx.Fs.Keeping
import Synx.Fs.Loading
import Synx.Fs.Location
import Synx.Fs.Mounting
import Synx.Fs.Naming
import Synx.Fs.Newc
import Synx.Fs.NewcDecode
import Synx.Fs.OpenCreate
import Synx.Fs.OpenFiles
import Synx.Fs.OpenWalk
import Synx.Fs.Positions
import Synx.Fs.Ramfs
import Synx.Fs.Reading
import Synx.Fs.References
import Synx.Fs.RoundTrip
import Synx.Fs.Sessions
import Synx.Fs.Strcmp
import Synx.Fs.Tree
import Synx.Fs.Vfs
import Synx.Fs.WalkMeaning
import Synx.Kallsyms.Lookup
import Synx.Kernel.ArgumentLimits
import Synx.Kernel.Delivery
import Synx.Kernel.Dispatch
import Synx.Kernel.FileCalls
import Synx.Kernel.FileReads
import Synx.Kernel.Files
import Synx.Kernel.Isolation
import Synx.Kernel.Keys
import Synx.Kernel.Lifecycle
import Synx.Kernel.Listing
import Synx.Kernel.LoadComplete
import Synx.Kernel.LoadImage
import Synx.Kernel.LoadOutcome
import Synx.Kernel.LoadedImage
import Synx.Kernel.LostBytes
import Synx.Kernel.PagePermissions
import Synx.Kernel.PathInverse
import Synx.Kernel.Paths
import Synx.Kernel.Process
import Synx.Kernel.ProcessCalls
import Synx.Kernel.Reachable
import Synx.Kernel.Reads
import Synx.Kernel.Resolution
import Synx.Kernel.Scatter
import Synx.Kernel.Seeking
import Synx.Kernel.SlabView
import Synx.Kernel.Sound
import Synx.Kernel.State
import Synx.Kernel.Syscall
import Synx.Kernel.Transfer
import Synx.Kernel.TransferCalls
import Synx.Kernel.UserCopy
import Synx.Kernel.UserMemory
import Synx.Kernel.VectorBuffers
import Synx.Kernel.VectorReads
import Synx.Keyboard.Driver
import Synx.Lib.Buffer
import Synx.Lib.Chain
import Synx.Lib.Counting
import Synx.Lib.Cursor
import Synx.Lib.Memory
import Synx.Lib.Patches
import Synx.Lib.Program
import Synx.Lib.RingBuffer
import Synx.Lib.Storing
import Synx.Lib.Trie
import Synx.Mem.BitmapRegion
import Synx.Mem.FirstFit
import Synx.Mem.PageEntry
import Synx.Mem.Pmm
import Synx.Mem.PmmInit
import Synx.Mem.PmmOwnership
import Synx.Mem.Slab
import Synx.Mem.SlabCalls
import Synx.Mem.SlabGrowth
import Synx.Mem.SlabObjects
import Synx.Mem.SlabRelease
import Synx.Mem.SlabSafety
import Synx.Mem.SlabShape
import Synx.Paging.MapPage
import Synx.Paging.Translation
import Synx.Sched.Creation
import Synx.Sched.Fields
import Synx.Sched.Runs
import Synx.Sched.Scheduling
import Synx.Sched.Switching
import Synx.Sched.Task
import Synx.Smp.Boot
