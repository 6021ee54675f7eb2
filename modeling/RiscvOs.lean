import RiscvOs.Runs
import RiscvOs.WordMemory
import RiscvOs.PageAlloc
import RiscvOs.Heap
import RiscvOs.PageTable
import RiscvOs.PageTableTree
import RiscvOs.PageTableMaps
import RiscvOs.AddressSpaces
import RiscvOs.PartialMaps
import RiscvOs.Queues
import RiscvOs.Process
import RiscvOs.Scheduler
import RiscvOs.ReadyQueues
import RiscvOs.Dispatch
import RiscvOs.TimerTick
import RiscvOs.SchedulerCalls
import RiscvOs.Conservation
import RiscvOs.Routing
import RiscvOs.Placement
import RiscvOs.IdleLast
import RiscvOs.RealTimeOrder
import RiscvOs.AgingLoss
import RiscvOs.Lifecycle
import RiscvOs.TestDevice
import RiscvOs.Trees
import RiscvOs.PageTableFree
import RiscvOs.LeafRights
import RiscvOs.KernelMap
import RiscvOs.CStrings
import RiscvOs.Devices
import RiscvOs.Shell
import RiscvOs.Riscv
import RiscvOs.UserEntry
import RiscvOs.Preemption
import RiscvOs.ContextSwitch
import RiscvOs.SlotReuse
import RiscvOs.ProcessCore
import RiscvOs.ActiveSpace
import RiscvOs.Caches
import RiscvOs.Tlb
import RiscvOs.Accounting
import RiscvOs.DispatchOrder
import RiscvOs.LevelMoves
import RiscvOs.Boost
import RiscvOs.SlotMaps
import RiscvOs.SimpleFs
import RiscvOs.Directory
import RiscvOs.FileNames
import RiscvOs.SharedFiles
import RiscvOs.Vfs
import RiscvOs.SharedDevice
import RiscvOs.Printf
import RiscvOs.ByteMemory
import RiscvOs.Boot
import RiscvOs.Elf
import RiscvOs.FormatScan
import RiscvOs.Formatting
import RiscvOs.FileSizes
import RiscvOs.Registry
import RiscvOs.QueueRuns
import RiscvOs.AgingOrder
import RiscvOs.LastPriority
import RiscvOs.Refills
import RiscvOs.Quanta
import RiscvOs.ShellLines
import RiscvOs.WalkSlots
import RiscvOs.MapLoops
import RiscvOs.FormatWidths
import RiscvOs.Waiting
import RiscvOs.Uart
import RiscvOs.Syscalls
import RiscvOs.Traps
import RiscvOs.Records
import RiscvOs.SpaceRuns
import RiscvOs.KernelPages
import RiscvOs.KernelBoot
import RiscvOs.Session
import RiscvOs.ConsoleTexts
