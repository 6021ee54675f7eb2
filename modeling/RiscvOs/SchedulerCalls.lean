import RiscvOs.TimerTick
set_option autoImplicit false

/-!
The calls that the rest of the kernel can make, and the ones that write a single
process and nothing else.
-/

namespace RiscvOs.Scheduler
open WordMemory Queues Runs

/-- `tickHead` and `tickTail` are the two parts of a tick in between which the process that
took the tick was switched out: its aging part runs when it has the CPU again. -/
inductive SchedCall where
  | alloc
  | free (p : ProcPtr)
  | add (p : ProcPtr)
  | yield
  | tick
  | tickHead
  | tickTail
  | setPriority (p : ProcPtr) (priority : Int)
  | setPolicy (p : ProcPtr) (policy : SchedPolicy)
  deriving DecidableEq

def Sched.exec (s : Sched) : SchedCall → Sched
  | .alloc => (processAlloc s).2
  | .free p => processFree s p
  | .add p => schedAdd s p
  | .yield => schedYield s
  | .tick => schedTick s
  | .tickHead => Scheduler.tickHead s
  | .tickTail => Scheduler.tickTail s
  | .setPriority p priority => schedSetPriority s p priority
  | .setPolicy p policy => schedSetPolicy s p policy

/-- `t` is `s` with another value of the process `p`. -/
structure Rewrites (p : ProcRef) (s t : Sched) : Prop where
  rtQueue : t.rtQueue = s.rtQueue
  readyQueues : t.readyQueues = s.readyQueues
  cpu : t.cpu = s.cpu
  fullReturns : t.fullReturns = s.fullReturns
  others : ∀ q, q ≠ p → t.procs q = s.procs q

section Rewrites

variable {s t : Sched} {p : ProcRef}

theorem Rewrites.rt (h : Rewrites p s t) : t.rt = s.rt := by
  rw [Sched.rt, Sched.rt, h.rtQueue]

theorem Rewrites.level (h : Rewrites p s t) : t.level = s.level := by
  funext l
  rw [Sched.level, Sched.level, h.readyQueues]

theorem Rewrites.queued (h : Rewrites p s t) : t.queued = s.queued := by
  rw [Sched.queued, Sched.queued, h.rt, h.level]

theorem Rewrites.ok (h : Rewrites p s t) (hs : QueuesOk s) : QueuesOk t := by
  refine ⟨?_, ?_, ?_⟩
  · rw [h.rtQueue]
    exact hs.rt_size
  · rw [h.readyQueues]
    exact hs.rings
  · rw [h.queued]
    exact hs.noNull

theorem Rewrites.trans {u : Sched} (h : Rewrites p s t) (h' : Rewrites p t u) : Rewrites p s u :=
  ⟨h'.rtQueue.trans h.rtQueue, h'.readyQueues.trans h.readyQueues, h'.cpu.trans h.cpu,
    h'.fullReturns.trans h.fullReturns, fun q hq => (h'.others q hq).trans (h.others q hq)⟩

theorem modify_rewrites (f : Process → Process) : Rewrites p s (s.modify p f) :=
  ⟨rfl, rfl, rfl, rfl, fun _ hq => Function.update_of_ne hq _ _⟩

theorem processAlloc_case (s : Sched) : processAlloc s = (none, s) ∨
    ∃ i, (s.procs (.slot i)).state = .unused ∧ Rewrites (.slot i) s (processAlloc s).2 ∧
      (processAlloc s).1 = some (.slot i) ∧ (processAlloc s).2.procs (.slot i) =
        (s.procs (.slot i)).alloc s.nextPid s.globalTicks := by
  unfold processAlloc
  split
  · rename_i i hi
    have hu : (s.procs (.slot i)).state = .unused := by simpa using List.find?_some hi
    have hr : Rewrites (.slot i) s (s.modify (.slot i) (Process.alloc s.nextPid s.globalTicks)) :=
      modify_rewrites _
    exact .inr ⟨i, hu, ⟨hr.rtQueue, hr.readyQueues, hr.cpu, hr.fullReturns, hr.others⟩, rfl,
      Function.update_self ..⟩
  · exact .inl rfl

theorem schedSetPriority_rewrites (p : ProcRef) (v : Int) :
    Rewrites p s (schedSetPriority s (some p) v) := by
  simp only [schedSetPriority]
  split
  · exact (modify_rewrites _).trans (modify_rewrites _)
  · exact (modify_rewrites _).trans (modify_rewrites _)

theorem schedSetPriority_procs (p : ProcRef) (v : Int) :
    ((schedSetPriority s (some p) v).procs p).state = (s.procs p).state ∧
    ((schedSetPriority s (some p) v).procs p).priority = clampPriority v ∧
    ((schedSetPriority s (some p) v).procs p).policy =
      if clampPriority v ≤ priorityRtMax then .rr else (s.procs p).policy := by
  simp only [schedSetPriority]
  split <;> simp

theorem schedSetPolicy_rewrites (p : ProcRef) (policy : SchedPolicy) :
    Rewrites p s (schedSetPolicy s (some p) policy) :=
  modify_rewrites fun x => { x with policy := policy }

end Rewrites

theorem start_rt : Sched.start.rt = [] := rfl

theorem start_level (l : Fin 4) : Sched.start.level l = [] := rfl

theorem start_queued : Sched.start.queued = [] := rfl

theorem start_ok : QueuesOk Sched.start := by
  refine ⟨by decide, ?_, by simp [start_queued]⟩
  intro l
  exact ⟨Nat.zero_lt_succ _, Nat.zero_le _, rfl⟩

theorem start_state (p : ProcRef) : (Sched.start.procs p).state ≠ .running := by
  cases p with
  | slot i => simp [Sched.start, schedulerInit, initIdleProcess, modify_procs, Sched.boot, Process.zero]
  | idle => simp [Sched.start, schedulerInit, initIdleProcess]

end RiscvOs.Scheduler
