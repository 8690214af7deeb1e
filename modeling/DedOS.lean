import DedOS.Lib.Chain
import DedOS.Lib.Trace
import DedOS.Scheduler.Thread
import DedOS.Scheduler.Scheduler
import DedOS.Scheduler.Queue
import DedOS.Scheduler.Machine
import DedOS.Scheduler.Invariant
import DedOS.Scheduler.Safety
import DedOS.Scheduler.Context
import DedOS.Scheduler.Sleep
import DedOS.Scheduler.Fairness
import DedOS.Scheduler.Boot
import DedOS.Scheduler.Idle
import DedOS.Lib.Memory
import DedOS.Lib.Bitmap
import DedOS.Mm.Pmm
import DedOS.Mm.PmmRun
import DedOS.Mm.PmmInit
import DedOS.Lib.TableTree
import DedOS.Mm.Frames
import DedOS.Mm.Vmm
import DedOS.Mm.Paging
import DedOS.Mm.PagingRun
import DedOS.Mm.Pagemap
import DedOS.Mm.Processor
import DedOS.Mm.MapWrites
import DedOS.Mm.HardPaging
import DedOS.Mm.Family
import DedOS.Mm.FamilyRun
import DedOS.Mm.Exhaustion
import DedOS.Mm.Rights
import DedOS.Mm.Tlb
import DedOS.Mm.Heap
import DedOS.Mm.Slab
import DedOS.Mm.SlabHeap
import DedOS.Mm.SlabCalls
import DedOS.Mm.SlabRun
import DedOS.Mm.PageBlocks
import DedOS.Mm.Arena
import DedOS.Mm.HeapInv
import DedOS.Mm.HeapCalls
import DedOS.Mm.HeapPages
import DedOS.Mm.HeapRun
import DedOS.Mm.Capacity
import DedOS.Mm.Release
import DedOS.Mm.Requests
import DedOS.Mm.HeapWindow
import DedOS.Mm.DoubleFree
import DedOS.Mm.Calloc
import DedOS.Acpi.Acpi
import DedOS.Lib.Logged
import DedOS.Lib.Rounds
import DedOS.Lib.Orbit
import DedOS.Acpi.Madt
import DedOS.Lib.Ring
import DedOS.Drivers.Keyboard
import DedOS.Lib.Path
import DedOS.Lib.NameTree
import DedOS.Fs.Tmpfs
import DedOS.Fs.Tree
import DedOS.Fs.Lookup
import DedOS.Fs.Outcome
import DedOS.Fs.AddEntry
import DedOS.Fs.Entries
import DedOS.Fs.TmpfsRun
import DedOS.Fs.LookupEnds
import DedOS.Fs.PathLookup
import DedOS.Fs.Vnodes
import DedOS.Fs.Read
import DedOS.Fs.Initrd
import DedOS.Fs.Archive
import DedOS.Fs.InitrdRun
import DedOS.Fs.Loader
import DedOS.Fs.ArchiveText
import DedOS.Fs.LoaderRound
import DedOS.Fs.LoaderStep
import DedOS.Fs.LoaderWalk
import DedOS.Fs.LoaderEnds
import DedOS.Fs.LoaderCopies
import DedOS.Fs.LoaderReads
import DedOS.Fs.Framing
import DedOS.Lib.Moves
import DedOS.Libc.Memmove
import DedOS.Lib.Standing
import DedOS.Drivers.ShiftKeys
import DedOS.Acpi.RootTable
import DedOS.Scheduler.Process
import DedOS.Lib.Encoding
import DedOS.Lib.Table
import DedOS.Acpi.MadtRecords
import DedOS.Lib.Numeral
import DedOS.Utils.Kprintf
import DedOS.Utils.Format
import DedOS.Utils.Numbers
import DedOS.Lib.Stack
import DedOS.Arch.Isr
import DedOS.Arch.Idt
import DedOS.Lib.Simulation
import DedOS.Arch.Lapic
import DedOS.Arch.Computer
import DedOS.Arch.Switches
import DedOS.Arch.IoApic
import DedOS.Arch.Pic
import DedOS.Arch.LapicTimer
import DedOS.Arch.Routing
import DedOS.Mm.Cells
import DedOS.Mm.BlockContents
import DedOS.Mm.Clients
import DedOS.Mm.Objects
import DedOS.Fs.NodeMemory
import DedOS.Fs.Represents
import DedOS.Fs.MemoryCalls
import DedOS.Fs.MemoryLookup
import DedOS.Fs.MemoryEntries
import DedOS.Fs.MemoryRun
import DedOS.Scheduler.Kernel
import DedOS.Scheduler.ThreadMemory
import DedOS.Scheduler.OwnStacks
import DedOS.Libc.Strings
import DedOS.Arch.Gdt
import DedOS.Lib.Fields
import DedOS.Utils.Log
import DedOS.Arch.Exceptions
