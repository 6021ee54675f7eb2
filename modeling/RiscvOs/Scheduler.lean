import RiscvOs.Process
import RiscvOs.Queues
set_option autoImplicit false

/-!
The scheduler of `kernel/process/scheduler.c` over the process table of `process.c`,
for the one CPU the kernel starts. `swtch` transfers control and writes only the saved
contexts, so a switch ends here where it is called.
-/

namespace RiscvOs.Scheduler
open WordMemory Queues

def maxProcesses : Nat := 64
def numQueueLevels : Nat := 4

def queueTimeSlices : Fin 4 → Word
  | 0 => 5#64
  | 1 => 10#64
  | 2 => 20#64
  | 3 => 40#64

abbrev Mlfq := RingBuffer ProcPtr

structure RtQueue where
  queue : Nat → ProcPtr
  size : Nat

structure CpuSched where
  current : ProcPtr
  idle : ProcPtr
  cpuId : Int
  ticks : Word
  idleTicks : Word
  deriving DecidableEq

/-- The static data of the two files. `fullReturns` is not in the source: it counts the
returns that `mlfq_enqueue` and `rt_enqueue` take because the queue is full. -/
structure Sched where
  procs : ProcRef → Process
  nextPid : Word
  globalTicks : Word
  readyQueues : Fin 4 → Mlfq
  rtQueue : RtQueue
  cpu : CpuSched
  satp : Word
  fullReturns : Nat

def Sched.modify (s : Sched) (p : ProcRef) (f : Process → Process) : Sched :=
  { s with procs := Function.update s.procs p (f (s.procs p)) }

def Sched.setLevel (s : Sched) (l : Fin 4) (q : Mlfq) : Sched :=
  { s with readyQueues := Function.update s.readyQueues l q }

/-- `proc->priority`. No queue ever holds `NULL`, so the value there is never read. -/
def Sched.prio (s : Sched) : ProcPtr → Int
  | none => 0
  | some p => (s.procs p).priority

def processAlloc (s : Sched) : ProcPtr × Sched :=
  match (List.finRange 64).find? fun i => decide ((s.procs (.slot i)).state = .unused) with
  | some i => (some (.slot i),
      { s.modify (.slot i) (Process.alloc s.nextPid s.globalTicks) with nextPid := s.nextPid + 1#64 })
  | none => (none, s)

def processFree (s : Sched) : ProcPtr → Sched
  | none => s
  | some p => s.modify p Process.free

def mlfqInit (q : Mlfq) : Mlfq := { q with head := 0, tail := 0, size := 0 }

def mlfqEnqueue (q : Mlfq) (proc : ProcPtr) : Mlfq :=
  if proc = none ∨ q.size ≥ maxProcesses then q else q.push maxProcesses proc

def mlfqDequeue (q : Mlfq) : ProcPtr × Mlfq :=
  if q.size = 0 then (none, q) else q.pop maxProcesses

def rtEnqueue (prio : ProcPtr → Int) (q : RtQueue) (proc : ProcPtr) : RtQueue :=
  if proc = none ∨ q.size ≥ maxProcesses then q
  else
    let r := shiftUp (fun x => decide (prio x ≤ prio proc)) q.size q.queue
    ⟨Function.update r.2 r.1 proc, q.size + 1⟩

def rtDequeue (q : RtQueue) : ProcPtr × RtQueue :=
  if q.size = 0 then (none, q)
  else (q.queue 0, ⟨shiftDown (q.size - 1) 0 q.queue, q.size - 1⟩)

def Sched.enqueueLevel (s : Sched) (l : Fin 4) (proc : ProcPtr) : Sched :=
  { s.setLevel l (mlfqEnqueue (s.readyQueues l) proc) with
    fullReturns := s.fullReturns + if (s.readyQueues l).size ≥ maxProcesses then 1 else 0 }

def Sched.enqueueRt (s : Sched) (proc : ProcPtr) : Sched :=
  { s with
    rtQueue := rtEnqueue s.prio s.rtQueue proc
    fullReturns := s.fullReturns + if s.rtQueue.size ≥ maxProcesses then 1 else 0 }

def idleName : Fin 32 → BitVec 8
  | 0 => 0x69#8
  | 1 => 0x64#8
  | 2 => 0x6C#8
  | 3 => 0x65#8
  | _ => 0#8

def initIdleProcess (s : Sched) : Sched :=
  { s.modify .idle fun idle =>
      { idle with
        pid := 0xFFFFFFFFFFFFFFFF#64
        state := .runnable
        priority := priorityMax
        policy := .idle
        queueLevel := 3
        cpuId := 0
        cpuAffinity := 1#64
        name := fun i => if i.val < 5 then idleName i else idle.name i
        stats := ⟨0#64, 0#64, s.globalTicks, 0#64⟩ } with
    cpu := { s.cpu with idle := some .idle } }

def schedulerInit (s : Sched) : Sched :=
  initIdleProcess { s with
    readyQueues := fun l => mlfqInit (s.readyQueues l)
    rtQueue := { s.rtQueue with size := 0 }
    cpu := { s.cpu with current := none, cpuId := 0, ticks := 0#64, idleTicks := 0#64 } }

/-- The static data when the kernel starts. -/
def Sched.boot : Sched where
  procs := fun _ => Process.zero
  nextPid := 1#64
  globalTicks := 0#64
  readyQueues := fun _ => ⟨fun _ => none, 0, 0, 0⟩
  rtQueue := ⟨fun _ => none, 0⟩
  cpu := ⟨none, none, 0, 0#64, 0#64⟩
  satp := 0#64
  fullReturns := 0

def Sched.start : Sched := schedulerInit Sched.boot

/-- The level of a `queue_level`, limited to the levels there are. -/
def clampLevel (level : Int) : Fin 4 :=
  if level < 0 then 0 else if level ≥ numQueueLevels then 3 else Fin.ofNat 4 level.toNat

def schedAdd (s : Sched) : ProcPtr → Sched
  | none => s
  | some p =>
    let s := s.modify p (Process.setState .runnable)
    match (s.procs p).policy with
    | .fifo => s.enqueueRt (some p)
    | .rr => s.enqueueRt (some p)
    | .idle => s
    | .normal => s.enqueueLevel (clampLevel (s.procs p).queueLevel) (some p)

/-- The loop of `sched_next` over the MLFQ levels. -/
def nextFrom : List (Fin 4) → Sched → ProcPtr × Sched
  | [], s => (s.cpu.idle, s)
  | l :: ls, s =>
    if (s.readyQueues l).size > 0 then
      let r := mlfqDequeue (s.readyQueues l)
      let s := s.setLevel l r.2
      match r.1 with
      | some p => (some p, s.modify p (Process.setTimeSlice (queueTimeSlices l)))
      | none => nextFrom ls s
    else nextFrom ls s

def levels : List (Fin 4) := [0, 1, 2, 3]

/-- The level of new and of boosted processes. -/
def topLevel : Fin 4 := 0

def schedNext (s : Sched) : ProcPtr × Sched :=
  if s.rtQueue.size > 0 then
    let r := rtDequeue s.rtQueue
    let s := { s with rtQueue := r.2 }
    match r.1 with
    | some p => (some p, s)
    | none => nextFrom levels s
  else nextFrom levels s

def clampPriority (priority : Int) : Int :=
  if priority < priorityMin then priorityMin
  else if priority > priorityMax then priorityMax
  else priority

def schedSetPriority (s : Sched) (proc : ProcPtr) (priority : Int) : Sched :=
  match proc with
  | none => s
  | some p =>
    let priority := clampPriority priority
    let s := s.modify p fun x => { x with priority := priority, dynamicPriority := priority }
    if priority ≤ priorityRtMax then s.modify p fun x => { x with policy := .rr }
    else
      let range := priorityMax - priorityNormalMin + 1
      let level := ((priority - priorityNormalMin) * numQueueLevels) / range
      s.modify p fun x =>
        { x with queueLevel := if level ≥ numQueueLevels then numQueueLevels - 1 else level }

def schedSetPolicy (s : Sched) (proc : ProcPtr) (policy : SchedPolicy) : Sched :=
  match proc with
  | none => s
  | some p => s.modify p fun x => { x with policy := policy }

/-- The part of `context_switch` for the running process `p` that leaves the CPU. -/
def requeue (s : Sched) (p : ProcRef) : Sched :=
  let s := s.modify p Process.countSwitch
  if some p = s.cpu.idle then s.modify p (Process.setState .runnable)
  else
    match (s.procs p).policy with
    | .normal =>
      let s := s.modify p fun x =>
        if x.timeSlice = 0#64 ∧ x.queueLevel < numQueueLevels - 1
        then { x with queueLevel := x.queueLevel + 1 } else x
      schedAdd (s.modify p (Process.setState .runnable)) (some p)
    | .rr => schedAdd (s.modify p (Process.setState .runnable)) (some p)
    | .fifo => s
    | .idle => s

def switchOut (s : Sched) : ProcPtr → Sched
  | none => s
  | some p => if (s.procs p).state = .running then requeue s p else s

/-- The part of `context_switch` for the process that gets the CPU. -/
def switchIn (s : Sched) : ProcPtr → Sched
  | none => s
  | some p =>
    let s := s.modify p fun x =>
      { x.countSwitch.setState .running with
        stats := { x.countSwitch.stats with lastRun := s.globalTicks }
        cpuId := 0 }
    { s with
      cpu := { s.cpu with current := some p }
      satp := if (s.procs p).pagetable ≠ 0#64
        then (8#64 <<< 60) ||| ((s.procs p).pagetable >>> 12) else s.satp }

def contextSwitch (s : Sched) (old new : ProcPtr) : Sched :=
  if old = new then s else switchIn (switchOut s old) new

def schedYield (s : Sched) : Sched :=
  let r := schedNext s
  if r.1 ≠ none then contextSwitch r.2 s.cpu.current r.1 else r.2

/-- One timer tick for the running process `p`, up to the check of its time slice. -/
def tickCharge (s : Sched) (p : ProcRef) : Sched :=
  let s := s.modify p fun x => { x with stats := { x.stats with cpuTime := x.stats.cpuTime + 1#64 } }
  let s := if some p = s.cpu.idle
    then { s with cpu := { s.cpu with idleTicks := s.cpu.idleTicks + 1#64 } } else s
  s.modify p fun x => if x.timeSlice > 0#64 then { x with timeSlice := x.timeSlice - 1#64 } else x

/-- `sched_tick` up to its aging part. -/
def tickHead (s : Sched) : Sched :=
  let proc := s.cpu.current
  let s := { s with
    globalTicks := s.globalTicks + 1#64
    cpu := { s.cpu with ticks := s.cpu.ticks + 1#64 } }
  match proc with
  | none => s
  | some p =>
    let s := tickCharge s p
    if (s.procs p).timeSlice = 0#64 then
      -- A FIFO process keeps the CPU when its slice is over.
      match (s.procs p).policy with
      | .normal => schedYield s
      | .rr => schedYield s
      | .fifo => s
      | .idle => s
    else s

def Process.boost (p : Process) : Process :=
  { p with queueLevel := 0, timeSlice := queueTimeSlices 0 }

/-- The `while` loop of the aging part at one level, for as many rounds as it has entries. -/
def agingDrain (l : Fin 4) : Nat → Sched → Sched
  | 0, s => s
  | n+1, s =>
    if (s.readyQueues l).size > 0 then
      let r := mlfqDequeue (s.readyQueues l)
      let s := s.setLevel l r.2
      match r.1 with
      | none => agingDrain l n s
      | some p =>
        if (s.procs p).policy = .normal then
          agingDrain l n ((s.modify p Process.boost).enqueueLevel 0 (some p))
        else agingDrain l n s
    else s

def agingLevel (s : Sched) (l : Fin 4) : Sched := agingDrain l (s.readyQueues l).size s

def agingPass (s : Sched) : Sched := [1, 2, 3].foldl agingLevel s

/-- The aging part of `sched_tick`, which follows the preemption of the process. -/
def tickTail (s : Sched) : Sched :=
  if s.globalTicks % 100#64 = 0#64 then agingPass s else s

def schedTick (s : Sched) : Sched :=
  if s.cpu.current = none then tickHead s else tickTail (tickHead s)

end RiscvOs.Scheduler
