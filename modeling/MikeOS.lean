import MikeOS.Library.Transition
import MikeOS.Library.BitArray
import MikeOS.Library.Words
import MikeOS.Library.LinkedList
import MikeOS.Library.Extent
import MikeOS.Library.Segment
import MikeOS.Library.Slots
import MikeOS.Library.Numerals
import MikeOS.Common
import MikeOS.Memory
import MikeOS.PhysicalMemory
import MikeOS.FrameAllocator
import MikeOS.Initrd
import MikeOS.File
import MikeOS.FileCursor
import MikeOS.CString
import MikeOS.FileModes
import MikeOS.InitrdImage
import MikeOS.KernelMalloc
import MikeOS.KernelMallocRuns
import MikeOS.KernelMallocPages
import MikeOS.Paging
import MikeOS.KernelHeap
import MikeOS.Library.Runs
import MikeOS.KernelHeapSearch
import MikeOS.KernelHeapRuns
import MikeOS.Mmu
import MikeOS.VirtualMemory
import MikeOS.FramePool
import MikeOS.PageTables
import MikeOS.PageDirectory
import MikeOS.Mmaps
import MikeOS.Teardown
import MikeOS.Boot
import MikeOS.Ownership
import MikeOS.FrameDemand
import MikeOS.AddressSpaces
import MikeOS.KernelHalf
import MikeOS.Elf
import MikeOS.ElfConfined
import MikeOS.UserBytes
import MikeOS.ElfLoad
import MikeOS.ElfReport
import MikeOS.ElfEntry
import MikeOS.ExhaustionFlag
import MikeOS.MappedFrames
import MikeOS.RecursiveMapping
import MikeOS.KernelHeapRelease
import MikeOS.ElementList
import MikeOS.ListIterator
import MikeOS.Vfs
import MikeOS.InitrdNames
import MikeOS.Vga
import MikeOS.Devices
import MikeOS.Ata
import MikeOS.MmapEffect
import MikeOS.MemoryMap
import MikeOS.FrameStatus
import MikeOS.BootMapping
import MikeOS.FreeRuns
import MikeOS.HeapFailure
import MikeOS.HeapTranslation
import MikeOS.FreeListConservation
import MikeOS.MallocSizes
import MikeOS.Strtok
import MikeOS.VgaLayout
import MikeOS.MmapRounds
import MikeOS.MmapStatus
import MikeOS.StringOrder
import MikeOS.BitRanges
import MikeOS.Descriptors
import MikeOS.Stdio
import MikeOS.NumberPrinting
import MikeOS.FormatScan
import MikeOS.KernelMain
import MikeOS.UnheldFrames
import MikeOS.Ramdisk
import MikeOS.SpaceRecords
import MikeOS.SpaceRuns
import MikeOS.KernelRuns
import MikeOS.RamdiskFiles
import MikeOS.KernelMemory
import MikeOS.Library.ByteStack
import MikeOS.Library.InterruptController
import MikeOS.Library.Simulation
import MikeOS.InterruptEntry
import MikeOS.Userspace
import MikeOS.Interrupts
import MikeOS.Mounts
import MikeOS.LiveLoad
import MikeOS.Tasks
import MikeOS.Programs
