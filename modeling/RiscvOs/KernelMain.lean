import RiscvOs.KernelPages
import RiscvOs.SharedDevice
import RiscvOs.SimpleFs
import RiscvOs.Shell
import RiscvOs.ActiveSpace
import RiscvOs.Accounting
import RiscvOs.Syscalls
import RiscvOs.Traps
set_option autoImplicit false

/-!
The kernel as a whole, from `kernel_main` of `kernel/main.c` on: the initialisation of its parts in
their order, the tests that run at boot, and the shell with its commands. Traps are taken between
two characters of the shell's input.
-/

namespace RiscvOs.KernelMain
open WordMemory CStrings PageAlloc Scheduler Uart Traps Syscalls

abbrev U32 := BitVec 32

/-- The data of all parts of the kernel. `poweredOff` tells that the test device of the machine has
ended it. -/
structure Kernel extends TrapState where
  vfs : VirtualFs.Vfs TestDevice.TestDev
  fs : SimpleFs.Fs
  kernelPagetable : Word
  poweredOff : Bool

def Kernel.printAll (xs : List Output) (k : Kernel) : Kernel :=
  { k with console := { k.console with out := k.console.out ++ xs } }

def Kernel.printf (fmt : String) (args : List Arg) (k : Kernel) : Kernel := k.printAll [.printf fmt args]

def Kernel.setMm (mm : Mm) (k : Kernel) : Kernel := { k with vfs := { k.vfs with mm := mm } }

section Init

def mmInit (l : Layout) (k : Kernel) : Kernel :=
  let k := k.printf "[MM] Initializing memory manager\n" []
  let k := k.printf "[MM] Heap: %p - %p\n" [.num l.heapStart, .num l.heapEnd]
  let k := k.printf "[MM] Free memory: %p - %p\n" [.num (memStart l), .num memEnd]
  let k := k.setMm (PageAlloc.mmInit l k.vfs.mm.mem)
  let num := k.vfs.mm.numFreePages
  k.printf "[MM] Initialized %u free pages (%u KB)\n"
    [num32 (num.setWidth 32), num32 ((num * pageSize / 1024#64).setWidth 32)]

def vmInit (k : Kernel) : Vm.Outcome Kernel :=
  let k := k.printf "[VM] Initializing SV39 virtual memory\n" []
  (Vm.kvminit k.vfs.mm).bind fun r =>
    let k := { k.setMm r.2 with kernelPagetable := r.1 }
    let k := k.printf "[VM] Created kernel page table at %p\n" [.num r.1]
    .ret (k.printf "[VM] Kernel page table initialized\n" [])

def kvminithart (k : Kernel) : Kernel :=
  let k := { k with sched := { k.sched with satp := satpOf k.kernelPagetable } }
  k.printf "[VM] Switched to SV39 paging mode\n" []

def trapInit (trapEntry : Word) (k : Kernel) : Kernel :=
  { k with toTrapState := Traps.trapInit trapEntry k.toTrapState }

def schedulerInit (k : Kernel) : Kernel :=
  let k := k.printf "[SCHED] Initializing advanced scheduler\n" []
  let k := k.printf "[SCHED] Multi-level feedback queue (MLFQ) with %d levels\n" [num32 4#32]
  let k := k.printf "[SCHED] Real-time scheduling support enabled\n" []
  let k := k.printf "[SCHED] SMP support: %d CPU(s)\n" [num32 1#32]
  let k := { k with sched := Scheduler.schedulerInit k.sched }
  let k := k.printAll ((List.finRange 4).map fun i =>
    .printf "[SCHED] Queue %d: time slice = %lu ticks\n" [num32 (BitVec.ofNat 32 i.val), .num (queueTimeSlices i)])
  k.printf "[SCHED] Scheduler initialized\n" []

def vfsInit (k : Kernel) : Kernel :=
  let k := k.printf "[VFS] Initializing Virtual File System\n" []
  let k := { k with vfs := VirtualFs.vfsInit k.vfs }
  k.printf "[VFS] VFS initialized\n" []

def sfsInit (k : Kernel) : Kernel :=
  let k := k.printf "[SFS] Initializing Simple File System\n" []
  { k with fs := SimpleFs.sfsInit k.fs }

def sfsFormat (l : Layout) (numBlocks : U32) (k : Kernel) : Kernel :=
  let k := k.printf "[SFS] Formatting file system with %u blocks\n" [num32 numBlocks]
  let r := SimpleFs.sfsFormat l numBlocks k.fs k.vfs.mm
  let k := k.printAll (kmallocPrints l ((numBlocks * SimpleFs.sfsBlockSize).setWidth 64) k.vfs.mm)
  let k := { k.setMm r.2.2 with fs := r.2.1 }
  if r.1 ≠ 0 then k.printf "[SFS] Failed to allocate data blocks\n" []
  else k.printf "[SFS] File system formatted successfully\n" []

def testdevInit (k : Kernel) : Kernel :=
  { k with vfs := { k.vfs with dev := TestDevice.testdevInit k.vfs.dev } }

def testdevRegister (k : Kernel) : Kernel :=
  let r := TestDevice.testdevRegister k.vfs
  let k := { k with vfs := r.2 }
  if r.1 = 0 then k.printf "[VFS] Registered device: %s\n" [.str (cstring TestDevice.testdevName)]
  else k.printf "[VFS] Failed to register device: %s (no free slots)\n" [.str (cstring TestDevice.testdevName)]

end Init

section Reports

def Process.nameArg (x : Process) : Arg := .str fun i => if h : i < 32 then x.name ⟨i, h⟩ else 0#8

def printBanner (k : Kernel) : Kernel :=
  k.printAll [.printf "\n" [], .printf "====================================\n" [],
    .printf "  RISC-V 64-bit Embedded OS\n" [], .printf "  Version 1.0\n" [],
    .printf "====================================\n" [], .printf "\n" []]

def showSystemInfo (k : Kernel) : Kernel :=
  k.printAll [.printf "\n[INFO] System Information:\n" [], .printf "  Architecture: RISC-V 64-bit (RV64IMAC)\n" [],
    .printf "  Privilege Mode: Supervisor (S-mode)\n" [], .printf "  Page Size: %d bytes\n" [num32 4096#32],
    .printf "  sstatus: %p\n" [.num k.sstatus], .printf "  sie:     %p\n" [.num k.sie],
    .printf "  stvec:   %p\n" [.num k.stvec], .printf "\n" []]

def rule : Output := .printf "========================================\n" []

/-- `sched_print_stats` -/
def schedStats (s : Sched) : List Output :=
  [.printf "\n[SCHED] Scheduler Statistics:\n" [], rule, .printf "CPU %d:\n" [num32 0#32],
    .printf "  Total ticks: %lu\n" [.num s.cpu.ticks], .printf "  Idle ticks: %lu\n" [.num s.cpu.idleTicks]] ++
  (match cpuUsage s with
    | some usage => [.printf "  CPU Usage: %lu%%\n" [.num usage]]
    | none => []) ++
  (match s.cpu.current with
    | some p => [.printf "  Current process: %s (PID %lu)\n" [Process.nameArg (s.procs p), .num (s.procs p).pid]]
    | none => []) ++
  [.printf "\nQueue Status:\n" [], .printf "  RT Queue: %d processes\n" [num32 (BitVec.ofNat 32 s.rtQueue.size)]] ++
  (List.finRange 4).map (fun i => .printf "  Queue %d: %d processes (time slice: %lu)\n"
    [num32 (BitVec.ofNat 32 i.val), num32 (BitVec.ofNat 32 (s.readyQueues i).size), .num (queueTimeSlices i)]) ++ [rule]

/-- The number that an enumeration of the source gives to a state. -/
def stateNum : ProcState → U32
  | .unused => 0#32
  | .runnable => 1#32
  | .running => 2#32
  | .sleeping => 3#32
  | .zombie => 4#32

def policyNum : SchedPolicy → U32
  | .normal => 0#32
  | .fifo => 1#32
  | .rr => 2#32
  | .idle => 3#32

/-- `process_print_stats` -/
def processStats (s : Sched) : ProcPtr → List Output
  | none => []
  | some p =>
    let x := s.procs p
    if x.state = .unused then []
    else
      [.printf "Process %lu (%s):\n" [.num x.pid, Process.nameArg x],
        .printf "  State: %d, Priority: %d, Policy: %d\n"
          [num32 (stateNum x.state), num32 (BitVec.ofInt 32 x.priority), num32 (policyNum x.policy)],
        .printf "  CPU Time: %lu ticks\n" [.num x.stats.cpuTime],
        .printf "  Context Switches: %lu\n" [.num x.stats.contextSwitches],
        .printf "  Uptime: %lu ticks\n" [.num (uptime s p)]] ++
      match cpuPercent s p with
        | some percent => [.printf "  CPU Usage: %lu%%\n" [.num percent]]
        | none => []

end Reports

section Tests

/-- What `alloc_page` prints. -/
def allocPagePrints (mm : Mm) : List Output :=
  if (allocPage mm).1 = 0#64 then [.printf "[MM] Out of memory!\n" []] else []

/-- `alloc_page` as the kernel calls it. -/
def Kernel.allocPage (k : Kernel) : Word × Kernel :=
  ((PageAlloc.allocPage k.vfs.mm).1,
    (k.setMm (PageAlloc.allocPage k.vfs.mm).2).printAll (allocPagePrints k.vfs.mm))

def Kernel.kmalloc (l : Layout) (size : Word) (k : Kernel) : Word × Kernel :=
  ((PageAlloc.kmalloc l size k.vfs.mm).1,
    (k.setMm (PageAlloc.kmalloc l size k.vfs.mm).2).printAll (kmallocPrints l size k.vfs.mm))

def Kernel.freePage (page : Word) (k : Kernel) : Kernel := k.setMm (PageAlloc.freePage page k.vfs.mm)

def testPa : Word := 0x80100000#64

/-- `PTE_R | PTE_W | PTE_U` -/
def testPerm : U32 := (Vm.pteR ||| Vm.pteW ||| 1#64 <<< 4).setWidth 32

/-- `test_vm`. A `mappages` that fails here has found no page for a table. -/
def testVm (k : Kernel) : Vm.Outcome Kernel :=
  let k := k.printf "[TEST] Testing virtual memory...\n" []
  let r := k.allocPage
  let k := r.2
  if r.1 = 0#64 then .ret (k.printf "[TEST] Failed to create user page table\n" [])
  else
    let k := k.printf "[TEST] Created user page table at %p\n" [.num r.1]
    (Vm.mappages k.vfs.mm r.1 0x1000#64 pageSize testPa testPerm).bind fun q =>
      let k := k.setMm q.2
      if q.1 ≠ 0 then
        .ret ((k.printf "[MM] Out of memory!\n" []).printf "[TEST] Failed to map page\n" [])
      else
        let k := k.printf "[TEST] Mapped VA 0x1000 -> PA %p\n" [.num testPa]
        let pa2 := Vm.walkaddr k.vfs.mm r.1 0x1000#64
        if pa2 ≠ testPa then
          .ret (k.printf "[TEST] Address translation failed: got %p, expected %p\n" [.num pa2, .num testPa])
        else
          let k := k.printf "[TEST] Address translation verified\n" []
          (Vm.vmFree 3 r.1 ⟨k.vfs.mm, []⟩).bind fun t =>
            .ret ((k.setMm t.mm).printf "[TEST] Virtual memory test PASSED\n" [])

/-- The loop that copies a short text to `p->name`, and the terminator behind it. -/
def setName (text : List Byte) (x : Process) : Process :=
  { x with name := fun i => if i.val ≤ text.length then cstring text i.val else x.name i }

/-- A new process of `test_scheduler`, with its name, its priority and perhaps a policy. -/
def newProcess (name : List Byte) (priority : Int) (policy : Option SchedPolicy) (s : Sched) : ProcPtr × Sched :=
  let r := processAlloc s
  match r.1 with
  | none => r
  | some p =>
    let s := schedSetPriority (r.2.modify p (setName name)) (some p) priority
    match policy with
    | none => (some p, s)
    | some policy => (some p, schedSetPolicy s (some p) policy)

/-- What `test_scheduler` prints about a new process. -/
def processArgs (s : Sched) (p : ProcRef) : List Arg :=
  [Process.nameArg (s.procs p), .num (s.procs p).pid, num32 (BitVec.ofInt 32 (s.procs p).priority)]

def testScheduler (k : Kernel) : Kernel :=
  let k := k.printf "[TEST] Testing scheduler...\n" []
  let r1 := newProcess ("test1".toList.map byte) priorityDefault none k.sched
  let k := { k with sched := r1.2 }
  match r1.1 with
  | none => k.printf "[TEST] Failed to allocate process 1\n" []
  | some p1 =>
    let k := k.printf "[TEST] Allocated process: %s (PID %lu, Priority: %d)\n" (processArgs k.sched p1)
    let r2 := newProcess ("test2".toList.map byte) (priorityNormalMin + 10) none k.sched
    let k := { k with sched := r2.2 }
    match r2.1 with
    | none => k.printf "[TEST] Failed to allocate process 2\n" []
    | some p2 =>
      let k := k.printf "[TEST] Allocated process: %s (PID %lu, Priority: %d)\n" (processArgs k.sched p2)
      let r3 := newProcess ("rt_test".toList.map byte) 50 (some .fifo) k.sched
      let k := { k with sched := r3.2 }
      match r3.1 with
      | none => k.printf "[TEST] Failed to allocate process 3\n" []
      | some p3 =>
        let k := k.printf "[TEST] Allocated RT process: %s (PID %lu, Priority: %d, Policy: FIFO)\n"
          (processArgs k.sched p3)
        let k := { k with sched := schedAdd (schedAdd (schedAdd k.sched (some p1)) (some p2)) (some p3) }
        let k := k.printf "[TEST] Added processes to scheduler\n" []
        let k := k.printAll (schedStats k.sched)
        k.printf "[TEST] Scheduler test PASSED\n" []

/-- What `sfs_create` prints. -/
def sfsCreatePrints (name : Nat → Byte) (fs : SimpleFs.Fs) : List Output :=
  if SimpleFs.findInode fs name ≠ none then [.printf "[SFS] File already exists: %s\n" [.str name]]
  else
    match SimpleFs.findFree fs with
    | none => [.printf "[SFS] No free inodes\n" []]
    | some i => [.printf "[SFS] Created file: %s (inode %u)\n" [.str name, num32 (SimpleFs.inoOf i)]]

/-- What `sfs_delete` prints. -/
def sfsDeletePrints (name : Nat → Byte) (fs : SimpleFs.Fs) : List Output :=
  match SimpleFs.findInode fs name with
  | none => [.printf "[SFS] File not found: %s\n" [.str name]]
  | some _ => [.printf "[SFS] Deleted file: %s\n" [.str name]]

def testFile : Nat → Byte := cstring ("testfile".toList.map byte)

/-- `VFS_FILE` -/
def vfsFile : U32 := 1#32

def testFilesystem (k : Kernel) : Kernel :=
  let k := k.printf "[TEST] Testing file system...\n" []
  let r := SimpleFs.sfsCreate testFile vfsFile k.fs
  let k := k.printAll (sfsCreatePrints testFile k.fs)
  let k := { k with fs := r.2 }
  if r.1 ≤ 0 then k.printf "[TEST] Failed to create file\n" []
  else
    let k := k.printf "[TEST] Created file 'testfile' with inode %d\n" [num32 (BitVec.ofInt 32 r.1)]
    let d := SimpleFs.sfsDelete testFile k.fs
    let k := k.printAll (sfsDeletePrints testFile k.fs)
    let k := { k with fs := d.2 }
    if d.1 ≠ 0 then k.printf "[TEST] Failed to delete file\n" []
    else
      let k := k.printf "[TEST] Deleted file 'testfile'\n" []
      k.printf "[TEST] File system test PASSED\n" []

def runTests (k : Kernel) : Vm.Outcome Kernel :=
  let k := k.printAll [.printf "\n========================================\n" [],
    .printf "  Running System Tests\n" [], .printf "========================================\n\n" []]
  (testVm k).bind fun k =>
    let k := testScheduler (k.printf "\n" [])
    let k := testFilesystem (k.printf "\n" [])
    let k := k.printf "\n" []
    .ret (k.printAll [rule, .printf "  All Tests Completed\n" [],
      .printf "========================================\n\n" []])

def testMemory (l : Layout) (k : Kernel) : Kernel :=
  let k := k.printf "[TEST] Testing memory allocation...\n" []
  let page1 := k.allocPage
  let page2 := page1.2.allocPage
  let k := page2.2.printf "[TEST] Allocated pages: %p, %p\n" [.num page1.1, .num page2.1]
  let ptr1 := k.kmalloc l 256#64
  let ptr2 := ptr1.2.kmalloc l 512#64
  let k := ptr2.2.printf "[TEST] Allocated heap: %p, %p\n" [.num ptr1.1, .num ptr2.1]
  let k := (k.freePage page1.1).freePage page2.1
  k.printf "[TEST] Memory test completed\n" []

end Tests

/-- `kernel_main` up to the call of `run_shell`; `trapEntry` is the address of the assembly. -/
def kernelMain (l : Layout) (trapEntry : Word) (k : Kernel) : Vm.Outcome Kernel :=
  let k := printBanner k
  let k := k.printf "[KERNEL] Starting RISC-V OS kernel...\n" []
  let k := k.printf "[KERNEL] Kernel loaded at 0x80200000\n" []
  (vmInit (mmInit l k)).bind fun k =>
    let k := schedulerInit (trapInit trapEntry (kvminithart k))
    let k := sfsFormat l 256#32 (sfsInit (vfsInit k))
    let k := testdevRegister (testdevInit k)
    (runTests (showSystemInfo k)).bind fun k => .ret (testMemory l k)

section Shell

/-- The kernel in its shell, with the buffer of the line and the position in it. -/
structure Session where
  kernel : Kernel
  editor : Shell.Editor

/-- `run_shell` up to the first character; `buffer` has any contents. -/
def runShell (buffer : Nat → Byte) (k : Kernel) : Session :=
  ⟨k.printAll [.printf "[SHELL] Starting simple shell\n" [], .printf "Type 'help' for available commands\n" [],
    .printf "> " []], ⟨buffer, 0⟩⟩

def helpTexts : List Output :=
  [.printf "Available commands:\n" [], .printf "  help     - Show this help message\n" [],
    .printf "  info     - Show system information\n" [], .printf "  test     - Run memory test\n" [],
    .printf "  testdev  - Test VFS device driver\n" [], .printf "  ps       - Show process statistics\n" [],
    .printf "  sched    - Show scheduler statistics\n" [], .printf "  echo     - Echo back the input\n" [],
    .printf "  reboot   - Reboot the system\n" []]

def psTexts (s : Sched) : List Output :=
  [.printf "\n[PS] Process List:\n" [], rule] ++
  (match currentProc s with
    | some p => processStats s (some p)
    | none => [.printf "No current process\n" []]) ++ [rule]

def testData : List Byte := "Hello from VFS test!".toList.map byte

def Kernel.vfsClose (file : Word) (k : Kernel) : Kernel := { k with vfs := (VirtualFs.vfsClose file k.vfs).2 }

/-- The test of the device once it is open. The write at offset 0 finds room, so it prints nothing. -/
def testdevIo (file : Word) (k : Kernel) : Kernel :=
  let written := VirtualFs.vfsWrite file (cstring testData) (BitVec.ofNat 64 testData.length) k.vfs
  let k := { k with vfs := written.2 }
  if written.1.toInt < 0 then (k.printf "[TEST] Failed to write data\n" []).vfsClose file
  else
    let k := k.printf "[TEST] Wrote %d bytes\n" [num32 written.1]
    let seekRet := VirtualFs.fileSeek file 0#32 k.vfs
    let k := { k with vfs := seekRet.2 }
    if seekRet.1 ≠ 0#32 then (k.printf "[TEST] Failed to seek\n" []).vfsClose file
    else
      let bytes := VirtualFs.vfsRead file 64#64 k.vfs
      let k := { k with vfs := bytes.2.2 }
      if bytes.1.toInt < 0 then (k.printf "[TEST] Failed to read data\n" []).vfsClose file
      else
        let k := if bytes.1.toInt > 0 ∧ bytes.1.toInt < 65 then
            k.printf "[TEST] Read %d bytes: %s\n" [num32 bytes.1, .str (cstring bytes.2.1)]
          else k
        (k.vfsClose file).printf "[TEST] Test completed\n" []

/-- The command `testdev`. -/
def runTestdev (l : Layout) (k : Kernel) : Kernel :=
  let k := k.printf "[TEST] Testing /testdev device\n" []
  let file := VirtualFs.vfsOpen l TestDevice.testdevPath 0#32 k.vfs
  let k := k.printAll (vfsOpenPrints l TestDevice.testdevPath k.vfs)
  let k := { k with vfs := file.2 }
  if file.1 = 0#64 then k.printf "[TEST] Failed to open /testdev\n" [] else testdevIo file.1 k

def qemuVirtTest : Word := 0x100000#64

/-- The root of the page table that `satp` holds. -/
def satpRoot (satp : Word) : Word := (satp <<< 20) >>> 8

/-- The store of `reboot`, at the address `sepc` of the code: where the page is mapped for stores it
ends the machine, and else it is a page fault, which is exception 15. -/
def rebootStore (sepc : Word) (k : Kernel) : Kernel :=
  let pte := Vm.leafPte k.vfs.mm (satpRoot k.sched.satp) qemuVirtTest
  if Vm.pteValid pte && pte &&& Vm.pteW != 0#64 then { k with poweredOff := true }
  else { k with toTrapState := trapHandler ⟨15#64, sepc, qemuVirtTest⟩ false k.toTrapState }

def runCommand (l : Layout) (sepc : Word) (k : Kernel) : Shell.Command → Kernel
  | .help => k.printAll helpTexts
  | .ps => k.printAll (psTexts k.sched)
  | .sched => k.printAll (schedStats k.sched)
  | .info => showSystemInfo k
  | .testdev => runTestdev l k
  | .test => testMemory l k
  | .echo line => k.printf "%s\n" [.str line]
  | .reboot => rebootStore sepc (k.printf "Rebooting...\n" [])
  | .unknown line =>
    (k.printf "Unknown command: %s\n" [.str line]).printf "Type 'help' for available commands\n" []

/-- The kernel waits for ever, or the machine has ended. -/
def Kernel.stopped (k : Kernel) : Bool := k.halted || k.poweredOff

/-- What a key that does not end the line prints. -/
def editPrints (e : Shell.Editor) (c : Byte) : List Output :=
  if c = 8#8 ∨ c = 127#8 then
    if 0 < e.pos then [.printf "\x08 \x08" []] else []
  else if (32#8 ≤ c ∧ c < 127#8) ∧ e.pos < Shell.shellBufferSize - 1 then [.putc c]
  else []

/-- The loop of `run_shell` with the next character. -/
def shellKey (l : Layout) (sepc : Word) (c : Byte) (s : Session) : Session :=
  let k := { s.kernel with console := { s.kernel.console with taken := s.kernel.console.taken + 1 } }
  if Shell.isEnter c then
    let e : Shell.Editor := { s.editor with buffer := Function.update s.editor.buffer s.editor.pos 0#8 }
    let k := k.printf "\n" []
    let k := if e.pos = 0 then k else runCommand l sepc k (Shell.dispatch e)
    ⟨if k.stopped then k else k.printf "> " [], { e with pos := 0 }⟩
  else ⟨k.printAll (editPrints s.editor c), (Shell.editKey s.editor c).1⟩

inductive SessionEvent where
  | key (c : Byte)
  | trap (t : Trap)

/-- A key or a trap, while the kernel has not stopped. No process is on the CPU, so the timer
interrupt comes back from `sched_tick`. -/
def Session.step (l : Layout) (sepc : Word) (s : Session) (e : SessionEvent) : Session :=
  if s.kernel.stopped then s
  else
    match e with
    | .key c => shellKey l sepc c s
    | .trap t => { s with kernel := { s.kernel with toTrapState := trapHandler t false s.kernel.toTrapState } }

end Shell

end RiscvOs.KernelMain
