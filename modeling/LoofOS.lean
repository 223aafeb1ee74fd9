import LoofOS.Loop
import LoofOS.Run
import LoofOS.FirstFit
import LoofOS.Coalesce
import LoofOS.HeapRun
import LoofOS.Fragmentation
import LoofOS.HeapEnd
import LoofOS.Process
import LoofOS.Schedule
import LoofOS.SavedContext
import LoofOS.X86
import LoofOS.TimerSwitch
import LoofOS.Handover
import LoofOS.ClusterChain
import LoofOS.Console
import LoofOS.Print
import LoofOS.Fairness
import LoofOS.Teardown
import LoofOS.PathWalk
import LoofOS.CaseFold
import LoofOS.Paging
import LoofOS.PageTables
import LoofOS.HeapModel
import LoofOS.Pool
import LoofOS.AddressSpace
import LoofOS.InitPaging
import LoofOS.Spaces
import LoofOS.Creation
import LoofOS.KernelHalf
import LoofOS.Isolation
import LoofOS.FrameAccounts
import LoofOS.Alignment
import LoofOS.Requests
import LoofOS.BuddyLayout
import LoofOS.PagingErrors
import LoofOS.PageAllocation
import LoofOS.CreationFailure
import LoofOS.Contiguous
import LoofOS.DirectoryBounds
import LoofOS.SectorArithmetic
import LoofOS.DirectoryScan
import LoofOS.PathComponents
import LoofOS.RootDirectory
import LoofOS.PathResolution
import LoofOS.Decimal
import LoofOS.Terminal
import LoofOS.Exceptions
import LoofOS.DescriptorTable
import LoofOS.Bios
import LoofOS.VideoModes
import LoofOS.ExfatCalls
import LoofOS.ProcessorMode
import LoofOS.Merging
import LoofOS.Simulation
import LoofOS.DescriptorBytes
import LoofOS.KernelSwitch
import LoofOS.KernelCreate
import LoofOS.KernelFree
import LoofOS.KernelMachine
import LoofOS.KernelScheduler
import LoofOS.KernelFairness
import LoofOS.Halting
import LoofOS.MachineInvariant
import LoofOS.CleanHeap
import LoofOS.MachineFairness
import LoofOS.Protection
import LoofOS.ProcessMemory
import LoofOS.Multitasking
import LoofOS.KernelEntry
import LoofOS.Segmentation
import LoofOS.SegmentDescriptors
import LoofOS.KernelImage
import LoofOS.Confinement
import LoofOS.KernelBlocks
import LoofOS.InterruptController
import LoofOS.KernelMain
