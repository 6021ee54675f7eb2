import RiscvOs.WordMemory
import Mathlib.Tactic.DeriveFintype
import Mathlib.Data.Fintype.Option
import Mathlib.Data.Fintype.Sum
set_option autoImplicit false

/-!
The process structure of `kernel/process/process.h`, and what `process_alloc` and
`process_free` write into a slot of the process table.
-/

namespace RiscvOs.Scheduler
open WordMemory

inductive ProcState where
  | unused | runnable | running | sleeping | zombie
  deriving DecidableEq, Repr

inductive SchedPolicy where
  | normal | fifo | rr | idle
  deriving DecidableEq, Repr

/-- The two static arrays that processes live in: `proc_table` and `idle_processes`,
of which only the entry of CPU 0 is in use. -/
inductive ProcRef where
  | slot (i : Fin 64)
  | idle
  deriving DecidableEq, Fintype, Repr

/-- A `process_t *`; `none` is `NULL`. -/
abbrev ProcPtr := Option ProcRef

structure Context where
  ra : Word
  sp : Word
  s : Fin 12 → Word

structure ProcStats where
  cpuTime : Word
  contextSwitches : Word
  startTime : Word
  lastRun : Word
  deriving DecidableEq, Repr

structure Process where
  pid : Word
  state : ProcState
  pagetable : Word
  context : Context
  kernelSp : Word
  userSp : Word
  name : Fin 32 → BitVec 8
  priority : Int
  dynamicPriority : Int
  policy : SchedPolicy
  queueLevel : Int
  timeSlice : Word
  cpuAffinity : Word
  cpuId : Int
  stats : ProcStats

def priorityMin : Int := 0
def priorityMax : Int := 139
def priorityDefault : Int := 100
def priorityRtMax : Int := 99
def priorityNormalMin : Int := 100

/-- A static process before anything has written to it. -/
def Process.zero : Process where
  pid := 0#64
  state := .unused
  pagetable := 0#64
  context := ⟨0#64, 0#64, fun _ => 0#64⟩
  kernelSp := 0#64
  userSp := 0#64
  name := fun _ => 0#8
  priority := 0
  dynamicPriority := 0
  policy := .normal
  queueLevel := 0
  timeSlice := 0#64
  cpuAffinity := 0#64
  cpuId := 0
  stats := ⟨0#64, 0#64, 0#64, 0#64⟩

/-- The fields `process_alloc` writes; the others keep what the slot held before. -/
def Process.alloc (nextPid globalTicks : Word) (p : Process) : Process :=
  { p with
    pid := nextPid
    state := .runnable
    name := Function.update p.name 0 0#8
    priority := priorityDefault
    dynamicPriority := priorityDefault
    policy := .normal
    queueLevel := 0
    timeSlice := 0#64
    cpuAffinity := 0xFFFFFFFFFFFFFFFF#64
    cpuId := -1
    stats := ⟨0#64, 0#64, globalTicks, 0#64⟩ }

def Process.free (p : Process) : Process :=
  { p with
    state := .unused
    pid := 0#64
    priority := 0
    dynamicPriority := 0
    queueLevel := 0
    timeSlice := 0#64
    cpuId := -1
    stats := { p.stats with cpuTime := 0#64, contextSwitches := 0#64 } }

def Process.setState (state : ProcState) (p : Process) : Process := { p with state := state }

def Process.setTimeSlice (slice : Word) (p : Process) : Process := { p with timeSlice := slice }

/-- `p->stats.context_switches++`. -/
def Process.countSwitch (p : Process) : Process :=
  { p with stats := { p.stats with contextSwitches := p.stats.contextSwitches + 1#64 } }

theorem card_procPtr : Fintype.card ProcPtr = 66 := by
  rw [Fintype.card_option]
  rfl

end RiscvOs.Scheduler
