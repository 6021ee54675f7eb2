import RiscvOs.SchedulerCalls
set_option autoImplicit false

/-!
What switching and queueing leave alone. They write the scheduling fields of a process and
its switch statistics; the rest of the process, its core, only changes in `process_alloc`,
`process_free` and `sched_tick`, and `satp` only when a process gets the CPU.
-/

namespace RiscvOs.Scheduler
open WordMemory Queues

/-- The process with its scheduling fields and switch statistics blanked. -/
def Process.core (x : Process) : Process :=
  { x with
    state := .unused
    priority := 0
    dynamicPriority := 0
    policy := .normal
    queueLevel := 0
    timeSlice := 0#64
    cpuId := 0
    stats := { x.stats with contextSwitches := 0#64, lastRun := 0#64 } }

theorem core_fields {x y : Process} (h : x.core = y.core) : x.pagetable = y.pagetable ∧
    x.stats.cpuTime = y.stats.cpuTime ∧ x.stats.startTime = y.stats.startTime := by
  simp only [Process.core, Process.mk.injEq, ProcStats.mk.injEq] at h
  simp [h]

/-- The cores of the processes, the CPU's data and `satp` are the same, and no process became
unused. -/
structure Kept (s t : Sched) : Prop where
  core : ∀ q, (t.procs q).core = (s.procs q).core
  used : ∀ q, (t.procs q).state = .unused → (s.procs q).state = .unused
  globalTicks : t.globalTicks = s.globalTicks
  cpu : t.cpu = s.cpu
  satp : t.satp = s.satp

section Kept

variable {s t u : Sched}

theorem Kept.refl (s : Sched) : Kept s s := ⟨fun _ => rfl, fun _ h => h, rfl, rfl, rfl⟩

theorem Kept.trans (h : Kept s t) (h' : Kept t u) : Kept s u :=
  ⟨fun q => (h'.core q).trans (h.core q), fun q hq => h.used q (h'.used q hq),
    h'.globalTicks.trans h.globalTicks, h'.cpu.trans h.cpu, h'.satp.trans h.satp⟩

theorem Kept.of_procs (hp : t.procs = s.procs) (hg : t.globalTicks = s.globalTicks)
    (hc : t.cpu = s.cpu) (hsatp : t.satp = s.satp) : Kept s t := by
  refine ⟨?_, ?_, hg, hc, hsatp⟩ <;> simp [hp]

theorem Kept.modify {p : ProcRef} {f : Process → Process} (hf : ∀ x, (f x).core = x.core)
    (hu : ∀ x, (f x).state = .unused → x.state = .unused) : Kept s (s.modify p f) := by
  refine ⟨?_, ?_, rfl, rfl, rfl⟩
  · intro q
    rw [modify_procs]
    by_cases hq : q = p <;> simp [hq, hf]
  · intro q h
    rw [modify_procs] at h
    by_cases hq : q = p
    · rw [if_pos hq] at h
      exact hq ▸ hu _ h
    · rwa [if_neg hq] at h

theorem kept_setState {p : ProcRef} {st : ProcState} (hst : st ≠ .unused) :
    Kept s (s.modify p (Process.setState st)) :=
  .modify (fun _ => rfl) fun _ h => absurd h hst

theorem schedAdd_kept (x : ProcPtr) : Kept s (schedAdd s x) := by
  cases x with
  | none => exact .refl s
  | some p =>
    have hready : Kept s (s.modify p (Process.setState .runnable)) := kept_setState (by decide)
    simp only [schedAdd]
    split
    all_goals exact hready.trans (.of_procs rfl rfl rfl rfl)

theorem nextFrom_kept (ls : List (Fin 4)) : Kept s (nextFrom ls s).2 := by
  induction ls generalizing s with
  | nil => exact .refl s
  | cons l ls ih =>
    simp only [nextFrom]
    split
    · have hlevel : Kept s (s.setLevel l (mlfqDequeue (s.readyQueues l)).2) := .of_procs rfl rfl rfl rfl
      split
      · exact hlevel.trans (.modify (fun _ => rfl) fun _ h => h)
      · exact hlevel.trans ih
    · exact ih

theorem schedNext_kept (s : Sched) : Kept s (schedNext s).2 := by
  simp only [schedNext]
  split
  · have hrt : Kept s { s with rtQueue := (rtDequeue s.rtQueue).2 } := .of_procs rfl rfl rfl rfl
    split
    · exact hrt
    · exact hrt.trans (nextFrom_kept levels)
  · exact nextFrom_kept levels

theorem requeue_kept (p : ProcRef) : Kept s (requeue s p) := by
  have hcount : Kept s (s.modify p Process.countSwitch) := .modify (fun _ => rfl) fun _ h => h
  simp only [requeue]
  split
  · exact hcount.trans (kept_setState (by decide))
  · split
    · refine hcount.trans ((Kept.modify ?_ ?_).trans
        ((kept_setState (by decide)).trans (schedAdd_kept _)))
      · intro x
        split <;> rfl
      · intro x
        split <;> exact id
    · exact hcount.trans ((kept_setState (by decide)).trans (schedAdd_kept _))
    · exact hcount
    · exact hcount

theorem switchOut_kept (x : ProcPtr) : Kept s (switchOut s x) := by
  cases x with
  | none => exact .refl s
  | some p =>
    simp only [switchOut]
    split
    · exact requeue_kept p
    · exact .refl s

/-- The process `p` has got the CPU. -/
structure Switched (p : ProcRef) (s t : Sched) : Prop where
  core : ∀ q, (t.procs q).core = (s.procs q).core
  used : ∀ q, (t.procs q).state = .unused → (s.procs q).state = .unused
  globalTicks : t.globalTicks = s.globalTicks
  cpu : t.cpu = { s.cpu with current := some p }
  other : s.cpu.current ≠ some p
  running : (t.procs p).state = .running
  satp : t.satp = if (t.procs p).pagetable ≠ 0#64
    then (8#64 <<< 60) ||| ((t.procs p).pagetable >>> 12) else s.satp

theorem switchIn_switched {p : ProcRef} (h : Kept s t) (hp : s.cpu.current ≠ some p) :
    Switched p s (switchIn t (some p)) := by
  have hcore (q : ProcRef) : ((switchIn t (some p)).procs q).core = (t.procs q).core := by
    simp only [switchIn, modify_procs]
    by_cases hq : q = p
    · subst hq
      rw [if_pos rfl]
      rfl
    · rw [if_neg hq]
  have hused (q : ProcRef) (hq : ((switchIn t (some p)).procs q).state = .unused) :
      (t.procs q).state = .unused := by
    rw [switchIn_state] at hq
    by_cases hqp : q = p
    · rw [if_pos hqp] at hq
      cases hq
    · rwa [if_neg hqp] at hq
  refine ⟨fun q => (hcore q).trans (h.core q), fun q hq => h.used q (hused q hq), h.globalTicks, ?_, hp,
    ?_, ?_⟩
  · rw [← h.cpu]
    rfl
  · rw [switchIn_state, if_pos rfl]
  · rw [← h.satp]
    rfl

/-- A yield changes neither the CPU's data nor `satp`, or it gives the CPU to another process. -/
theorem schedYield_dispatch (s : Sched) : Kept s (schedYield s) ∨ ∃ p, Switched p s (schedYield s) := by
  have hnext := schedNext_kept s
  simp only [schedYield]
  cases hn : (schedNext s).1 with
  | none => exact .inl hnext
  | some p =>
    simp only [ne_eq, reduceCtorEq, not_false_eq_true, if_true, contextSwitch]
    split
    · exact .inl hnext
    · rename_i hc
      exact .inr ⟨p, switchIn_switched (hnext.trans (switchOut_kept _)) hc⟩

theorem agingDrain_kept (l : Fin 4) (n : Nat) : Kept s (agingDrain l n s) := by
  induction n generalizing s with
  | zero => exact .refl s
  | succ n ih =>
    have hlevel : Kept s (s.setLevel l (mlfqDequeue (s.readyQueues l)).2) := .of_procs rfl rfl rfl rfl
    simp only [agingDrain]
    split
    · split
      · exact hlevel.trans ih
      · rename_i p _
        split
        · have hboost : Kept (s.setLevel l (mlfqDequeue (s.readyQueues l)).2)
              ((s.setLevel l (mlfqDequeue (s.readyQueues l)).2).modify p Process.boost) :=
            .modify (fun _ => rfl) fun _ h => h
          refine (hlevel.trans hboost).trans (Kept.trans (.of_procs ?_ ?_ ?_ ?_) ih) <;> rfl
        · exact hlevel.trans ih
    · exact .refl s

theorem agingPass_kept (s : Sched) : Kept s (agingPass s) :=
  ((agingDrain_kept 1 _).trans (agingDrain_kept 2 _)).trans (agingDrain_kept 3 _)

theorem tickTail_kept (s : Sched) : Kept s (tickTail s) := by
  simp only [tickTail]
  split
  · exact agingPass_kept s
  · exact .refl s

theorem schedSetPriority_kept (x : ProcPtr) (v : Int) : Kept s (schedSetPriority s x v) := by
  cases x with
  | none => exact .refl s
  | some p =>
    simp only [schedSetPriority]
    split
    all_goals
      refine (Kept.modify ?_ ?_).trans (Kept.modify ?_ ?_) <;> intro x
      all_goals first
        | rfl
        | exact id

theorem schedSetPolicy_kept (x : ProcPtr) (policy : SchedPolicy) :
    Kept s (schedSetPolicy s x policy) := by
  cases x with
  | none => exact .refl s
  | some p => exact Kept.modify (f := fun x => { x with policy := policy }) (fun _ => rfl) fun _ h => h

end Kept

section Charged

variable {s : Sched}

/-- `p->stats.cpu_time++`. -/
def Process.charge (x : Process) : Process :=
  { x with stats := { x.stats with cpuTime := x.stats.cpuTime + 1#64 } }

/-- The counters of one tick, before the time slice is checked. -/
structure Charged (s u : Sched) : Prop where
  core : ∀ q, (u.procs q).core = if s.cpu.current = some q then (s.procs q).core.charge else (s.procs q).core
  state : ∀ q, (u.procs q).state = (s.procs q).state
  globalTicks : u.globalTicks = s.globalTicks + 1#64
  cpu : u.cpu = { s.cpu with
    ticks := s.cpu.ticks + 1#64
    idleTicks := s.cpu.idleTicks + if s.cpu.current ≠ none ∧ s.cpu.current = s.cpu.idle then 1#64 else 0#64 }
  satp : u.satp = s.satp

/-- A tick of the time slice. -/
def Process.spend (x : Process) : Process :=
  if x.timeSlice > 0#64 then { x with timeSlice := x.timeSlice - 1#64 } else x

theorem spend_core (x : Process) : x.spend.core = x.core := by
  unfold Process.spend
  split <;> rfl

theorem spend_state (x : Process) : x.spend.state = x.state := by
  unfold Process.spend
  split <;> rfl

theorem tickCharge_fields (p : ProcRef) :
    (tickCharge s p).procs = Function.update s.procs p (s.procs p).charge.spend ∧
    (tickCharge s p).globalTicks = s.globalTicks ∧ (tickCharge s p).satp = s.satp ∧
    (tickCharge s p).cpu = { s.cpu with
      idleTicks := s.cpu.idleTicks + if some p = s.cpu.idle then 1#64 else 0#64 } := by
  unfold tickCharge
  by_cases hidle : some p = s.cpu.idle
  · simp [hidle, Sched.modify, Process.charge, Process.spend]
  · simp [hidle, Sched.modify, Process.charge, Process.spend]

theorem charged_none (hcur : s.cpu.current = none) : Charged s { s with
    globalTicks := s.globalTicks + 1#64
    cpu := { s.cpu with ticks := s.cpu.ticks + 1#64 } } := by
  refine ⟨?_, fun _ => rfl, rfl, ?_, rfl⟩ <;> simp [hcur]

theorem charged_some {p : ProcRef} (hcur : s.cpu.current = some p) : Charged s (tickCharge { s with
    globalTicks := s.globalTicks + 1#64
    cpu := { s.cpu with ticks := s.cpu.ticks + 1#64 } } p) := by
  obtain ⟨hprocs, hticks, hsatp, hcpu⟩ := tickCharge_fields (s := { s with
    globalTicks := s.globalTicks + 1#64
    cpu := { s.cpu with ticks := s.cpu.ticks + 1#64 } }) p
  refine ⟨?_, ?_, hticks, ?_, hsatp⟩
  · intro q
    rw [hprocs]
    by_cases hq : q = p
    · subst hq
      rw [Function.update_self, spend_core, if_pos hcur]
      rfl
    · rw [Function.update_of_ne hq, if_neg]
      simpa [hcur] using Ne.symm hq
  · intro q
    rw [hprocs]
    by_cases hq : q = p
    · subst hq
      rw [Function.update_self, spend_state]
      rfl
    · rw [Function.update_of_ne hq]
  · rw [hcpu]
    simp [hcur]

/-- A tick counts, and may then take the CPU from the process. -/
theorem tickHead_charged (s : Sched) : ∃ u, Charged s u ∧ (tickHead s = u ∨ tickHead s = schedYield u) := by
  unfold tickHead
  cases hcur : s.cpu.current with
  | none => exact ⟨_, charged_none hcur, .inl rfl⟩
  | some p =>
    refine ⟨_, charged_some hcur, ?_⟩
    simp only
    repeat' split
    all_goals simp

end Charged

end RiscvOs.Scheduler
