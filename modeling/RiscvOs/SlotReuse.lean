import RiscvOs.SchedulerCalls
set_option autoImplicit false

/-!
What a slot of the process table hands on to its next owner. `process_free` and
`process_alloc` each reset some of the fields; two histories of the table show what
neither of them resets.
-/

namespace RiscvOs.Scheduler
open WordMemory

/-- A call of the kernel, or what the owner of a slot stores in the fields of its process. -/
inductive TableCall where
  | call (c : SchedCall)
  | store (p : ProcRef) (x : Process)

/-- The owner leaves `pid` and `state` to the kernel. -/
def Sched.tableExec (s : Sched) : TableCall → Sched
  | .call c => s.exec c
  | .store p x => s.modify p fun old => { x with pid := old.pid, state := old.state }

def afterHistory (calls : List TableCall) : Sched := calls.foldl Sched.tableExec Sched.start

/-- `p->name` as a C string. -/
def Process.nameText (p : Process) : List (BitVec 8) := (List.ofFn p.name).takeWhile (· ≠ 0#8)

/-- The fields a process is run by. -/
structure SameFields (p q : Process) : Prop where
  pid : p.pid = q.pid
  state : p.state = q.state
  pagetable : p.pagetable = q.pagetable
  context : p.context = q.context
  kernelSp : p.kernelSp = q.kernelSp
  userSp : p.userSp = q.userSp
  nameText : p.nameText = q.nameText
  priority : p.priority = q.priority
  dynamicPriority : p.dynamicPriority = q.dynamicPriority
  policy : p.policy = q.policy
  queueLevel : p.queueLevel = q.queueLevel
  timeSlice : p.timeSlice = q.timeSlice
  cpuAffinity : p.cpuAffinity = q.cpuAffinity
  cpuId : p.cpuId = q.cpuId
  stats : p.stats = q.stats

/-- The fields that neither `process_free` nor `process_alloc` writes. -/
structure SameLeftovers (p q : Process) : Prop where
  pagetable : p.pagetable = q.pagetable
  context : p.context = q.context
  kernelSp : p.kernelSp = q.kernelSp
  userSp : p.userSp = q.userSp

/-- The two calls of `process_alloc` return the same slot with the same fields. -/
def AllocAgrees (s t : Sched) : Prop :=
  (processAlloc s).1 = (processAlloc t).1 ∧
    ∀ p, (processAlloc s).1 = some p → SameFields ((processAlloc s).2.procs p) ((processAlloc t).2.procs p)

/-- The slot `process_alloc` finds. -/
def firstFree (s : Sched) : Option (Fin 64) :=
  (List.finRange 64).find? fun i => decide ((s.procs (.slot i)).state = .unused)

theorem processAlloc_of_free {s : Sched} {i : Fin 64} (h : firstFree s = some i) :
    (processAlloc s).1 = some (.slot i) ∧
      (processAlloc s).2.procs (.slot i) = (s.procs (.slot i)).alloc s.nextPid s.globalTicks := by
  rw [firstFree] at h
  simp [processAlloc, h]

theorem processAlloc_of_full {s : Sched} (h : firstFree s = none) : (processAlloc s).1 = none := by
  rw [firstFree] at h
  simp [processAlloc, h]

theorem firstFree_congr {s t : Sched}
    (h : ∀ i, (s.procs (.slot i)).state = .unused ↔ (t.procs (.slot i)).state = .unused) :
    firstFree s = firstFree t := by
  simp only [firstFree, h]

theorem alloc_nameText (p : Process) (pid ticks : Word) : (p.alloc pid ticks).nameText = [] := by
  simp [Process.nameText, Process.alloc, List.ofFn_succ]

theorem alloc_sameFields_iff {p q : Process} (pid ticks : Word) :
    SameFields (p.alloc pid ticks) (q.alloc pid ticks) ↔ SameLeftovers p q := by
  constructor
  · intro h
    exact ⟨h.pagetable, h.context, h.kernelSp, h.userSp⟩
  · intro h
    have hname : (p.alloc pid ticks).nameText = (q.alloc pid ticks).nameText := by
      rw [alloc_nameText, alloc_nameText]
    exact ⟨rfl, rfl, h.pagetable, h.context, h.kernelSp, h.userSp, hname, rfl, rfl, rfl, rfl, rfl, rfl,
      rfl, rfl⟩

/-- After two histories with the same counters and the same free slots `process_alloc` returns
the same process exactly when the slot it finds has the same leftovers. -/
theorem slot_reuse_iff {as bs : List TableCall}
    (hpid : (afterHistory as).nextPid = (afterHistory bs).nextPid)
    (hticks : (afterHistory as).globalTicks = (afterHistory bs).globalTicks)
    (hfree : ∀ i, ((afterHistory as).procs (.slot i)).state = .unused ↔
      ((afterHistory bs).procs (.slot i)).state = .unused) :
    AllocAgrees (afterHistory as) (afterHistory bs) ↔
      ∀ i, firstFree (afterHistory as) = some i →
        SameLeftovers ((afterHistory as).procs (.slot i)) ((afterHistory bs).procs (.slot i)) := by
  have hsame := firstFree_congr hfree
  cases hf : firstFree (afterHistory as) with
  | none =>
    have ha := processAlloc_of_full hf
    have hb := processAlloc_of_full (hsame ▸ hf)
    simp [AllocAgrees, ha, hb]
  | some i =>
    obtain ⟨ha, hpa⟩ := processAlloc_of_free hf
    obtain ⟨hb, hpb⟩ := processAlloc_of_free (hsame ▸ hf)
    simp only [AllocAgrees, ha, hb, Option.some.injEq, forall_eq', true_and, hpa, hpb, hpid, hticks,
      alloc_sameFields_iff]

/-- A process takes the slot `p`, sets its page table and is freed. -/
def leavesPagetable (p : ProcRef) : List TableCall :=
  [.call .alloc, .store p { Process.zero with pagetable := 0x87000000#64 }, .call (.free (some p))]

/-- The same without a page table. -/
def leavesNothing (p : ProcRef) : List TableCall := [.call .alloc, .call (.free (some p))]

theorem slot_reuse_same : AllocAgrees (afterHistory (leavesNothing (.slot 0)))
    (afterHistory (leavesNothing (.slot 0) ++ [.store (.slot 1) Process.zero])) := by
  refine (slot_reuse_iff (by decide +kernel) (by decide +kernel) (by decide +kernel)).mpr ?_
  intro i hi
  have hzero : firstFree (afterHistory (leavesNothing (.slot 0))) = some 0 := by decide +kernel
  obtain rfl : i = 0 := Option.some.inj (hi.symm.trans hzero)
  exact ⟨rfl, rfl, rfl, rfl⟩

theorem slot_reuse_leaks :
    (afterHistory (leavesPagetable (.slot 0))).nextPid = (afterHistory (leavesNothing (.slot 0))).nextPid ∧
    (afterHistory (leavesPagetable (.slot 0))).globalTicks = (afterHistory (leavesNothing (.slot 0))).globalTicks ∧
    (∀ i, ((afterHistory (leavesPagetable (.slot 0))).procs (.slot i)).state = .unused ↔
      ((afterHistory (leavesNothing (.slot 0))).procs (.slot i)).state = .unused) ∧
    ¬ AllocAgrees (afterHistory (leavesPagetable (.slot 0))) (afterHistory (leavesNothing (.slot 0))) := by
  refine ⟨by decide +kernel, by decide +kernel, by decide +kernel, ?_⟩
  intro h
  have hslot : (processAlloc (afterHistory (leavesPagetable (.slot 0)))).1 = some (.slot 0) := by decide +kernel
  exact absurd (h.2 _ hslot).pagetable (by decide +kernel)

end RiscvOs.Scheduler
