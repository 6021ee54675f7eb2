import RiscvOs.ReadyQueues
set_option autoImplicit false

/-!
What `sched_next` and a switch do, case by case. Everything that only moves counters,
time slices or statistics is `Quiet`, so that an invariant of the queues has to be
checked for `sched_add`, for the choice of `sched_next` and for the switch itself.
-/

namespace RiscvOs.Scheduler
open WordMemory Queues

/-- `t` differs from `s` only in counters, time slices, levels and statistics. -/
structure Quiet (s t : Sched) : Prop where
  rtQueue : t.rtQueue = s.rtQueue
  readyQueues : t.readyQueues = s.readyQueues
  current : t.cpu.current = s.cpu.current
  idle : t.cpu.idle = s.cpu.idle
  fullReturns : t.fullReturns = s.fullReturns
  state : ∀ q, (t.procs q).state = (s.procs q).state
  sameClass : SameClass s t

section QuietLemmas

variable {s t u : Sched}

theorem Quiet.trans (h : Quiet s t) (h' : Quiet t u) : Quiet s u :=
  ⟨h'.rtQueue.trans h.rtQueue, h'.readyQueues.trans h.readyQueues, h'.current.trans h.current,
    h'.idle.trans h.idle, h'.fullReturns.trans h.fullReturns,
    fun q => (h'.state q).trans (h.state q), h.sameClass.trans h'.sameClass⟩

theorem Quiet.modify {p : ProcRef} {f : Process → Process}
    (hs : ∀ x : Process, (f x).state = x.state) (hp : ∀ x : Process, (f x).policy = x.policy)
    (hr : ∀ x : Process, (f x).priority = x.priority) : Quiet s (s.modify p f) :=
  ⟨rfl, rfl, rfl, rfl, rfl, fun _ => modify_state (hs _), .modify (hp _) (hr _)⟩

theorem Quiet.rt (h : Quiet s t) : t.rt = s.rt := by
  rw [Sched.rt, Sched.rt, h.rtQueue]

theorem Quiet.level (h : Quiet s t) : t.level = s.level := by
  funext l
  rw [Sched.level, Sched.level, h.readyQueues]

theorem Quiet.queued (h : Quiet s t) : t.queued = s.queued := by
  rw [Sched.queued, Sched.queued, h.rt, h.level]

theorem Quiet.ok (h : Quiet s t) (hs : QueuesOk s) : QueuesOk t := by
  refine ⟨?_, ?_, ?_⟩
  · rw [h.rtQueue]
    exact hs.rt_size
  · rw [h.readyQueues]
    exact hs.rings
  · rw [h.queued]
    exact hs.noNull

end QuietLemmas

section Requeue

variable {s : Sched} {p : ProcRef}

theorem schedAdd_setState :
    schedAdd (s.modify p (Process.setState .runnable)) (some p) = schedAdd s (some p) := by
  have hm : (s.modify p (Process.setState .runnable)).modify p (Process.setState .runnable) =
      s.modify p (Process.setState .runnable) := by
    simp [Sched.modify, Process.setState]
  simp only [schedAdd, hm]

/-- What becomes of a running process that leaves the CPU. -/
inductive RequeueCase (s : Sched) (p : ProcRef) : Sched → Prop
  | idle {u : Sched} (hidle : some p = s.cpu.idle) (hu : Quiet s u) :
      RequeueCase s p (u.modify p (Process.setState .runnable))
  | added {u : Sched} (hidle : some p ≠ s.cpu.idle)
      (hpol : (s.procs p).policy = .normal ∨ (s.procs p).policy = .rr) (hu : Quiet s u) :
      RequeueCase s p (schedAdd u (some p))
  | dropped {u : Sched} (hidle : some p ≠ s.cpu.idle)
      (hpol : (s.procs p).policy = .fifo ∨ (s.procs p).policy = .idle) (hu : Quiet s u) :
      RequeueCase s p u

theorem quiet_countSwitch : Quiet s (s.modify p Process.countSwitch) :=
  .modify (fun _ => rfl) (fun _ => rfl) (fun _ => rfl)

theorem requeue_case : RequeueCase s p (requeue s p) := by
  have hc : Quiet s (s.modify p Process.countSwitch) := quiet_countSwitch
  have hpol : ((s.modify p Process.countSwitch).procs p).policy = (s.procs p).policy := by
    rw [modify_self, Process.countSwitch]
  simp only [requeue]
  split
  · rename_i hidle
    exact .idle hidle hc
  · rename_i hidle
    simp only [hpol]
    cases hp : (s.procs p).policy with
    | normal =>
      simp only [schedAdd_setState]
      refine .added hidle (.inl hp) (hc.trans (.modify ?_ ?_ ?_)) <;>
        · intro x
          split <;> rfl
    | fifo => exact .dropped hidle (.inl hp) hc
    | rr =>
      simp only [schedAdd_setState]
      exact .added hidle (.inr hp) hc
    | idle => exact .dropped hidle (.inr hp) hc

theorem requeue_ok (h : QueuesOk s) : QueuesOk (requeue s p) := by
  have hcase := requeue_case (s := s) (p := p)
  generalize requeue s p = t at hcase
  cases hcase with
  | idle _ hu => exact (hu.ok h).modify p _
  | added _ _ hu => exact schedAdd_ok (hu.ok h) _
  | dropped _ _ hu => exact hu.ok h

/-- With room in the queues, a running process that leaves the CPU is queued once more. -/
theorem requeue_perm (h : QueuesOk s) (hidle : some p ≠ s.cpu.idle)
    (hpol : (s.procs p).policy = .normal ∨ (s.procs p).policy = .rr)
    (hroom : s.queued.length < maxProcesses) :
    (requeue s p).queued.Perm (some p :: s.queued) ∧
      (∀ q, ((requeue s p).procs q).state = if q = p then .runnable else (s.procs q).state) ∧
      (requeue s p).fullReturns = s.fullReturns := by
  have hcase := requeue_case (s := s) (p := p)
  generalize requeue s p = t at hcase
  cases hcase with
  | idle he => exact absurd he hidle
  | @added u _ _ hu =>
    have hr : u.room p = true := by
      apply room_of_length
      · rwa [hu.queued]
      · rw [(hu.sameClass p).1]
        rcases hpol with hpol | hpol <;> simp [hpol]
    refine ⟨?_, ?_, ?_⟩
    · have hperm := schedAdd_perm (p := p) (hu.ok h)
      rwa [hr, if_pos rfl, hu.queued] at hperm
    · intro q
      rw [schedAdd_state, hu.state]
    · rw [schedAdd_fullReturns hr, hu.fullReturns]
  | dropped _ hpol' => rcases hpol with hpol | hpol <;> simp [hpol] at hpol'

end Requeue

section Switch

variable {s : Sched}

theorem switchOut_ok (h : QueuesOk s) (old : ProcPtr) : QueuesOk (switchOut s old) := by
  cases old with
  | none => exact h
  | some p =>
    unfold switchOut
    by_cases hr : (s.procs p).state = .running
    · simp only [if_pos hr]
      exact requeue_ok h
    · simp only [if_neg hr]
      exact h

theorem requeue_cpu (p : ProcRef) : (requeue s p).cpu.current = s.cpu.current ∧
    (requeue s p).cpu.idle = s.cpu.idle := by
  have hcase := requeue_case (s := s) (p := p)
  generalize requeue s p = t at hcase
  cases hcase with
  | idle _ hu => exact ⟨hu.current, hu.idle⟩
  | added _ _ hu =>
    rw [schedAdd_cpu]
    exact ⟨hu.current, hu.idle⟩
  | dropped _ _ hu => exact ⟨hu.current, hu.idle⟩

theorem requeue_class (p : ProcRef) : SameClass s (requeue s p) := by
  have hcase := requeue_case (s := s) (p := p)
  generalize requeue s p = t at hcase
  cases hcase with
  | idle _ hu => exact hu.sameClass.trans (.modify rfl rfl)
  | added _ _ hu => exact hu.sameClass.trans (schedAdd_class _)
  | dropped _ _ hu => exact hu.sameClass

theorem switchOut_class (old : ProcPtr) : SameClass s (switchOut s old) := by
  cases old with
  | none => exact .refl s
  | some p =>
    simp only [switchOut]
    split
    · exact requeue_class p
    · exact .refl s

theorem switchOut_idle (old : ProcPtr) : (switchOut s old).cpu.idle = s.cpu.idle := by
  cases old with
  | none => rfl
  | some p =>
    simp only [switchOut]
    split
    · exact (requeue_cpu p).2
    · rfl

theorem switchOut_of_not_running {x : ProcPtr}
    (hn : ∀ p, x = some p → (s.procs p).state ≠ .running) :
    switchOut s x = s := by
  cases x with
  | none => rfl
  | some p => simp [switchOut, hn p rfl]

section SwitchIn

variable {p : ProcRef}

@[simp] theorem switchIn_rt : (switchIn s (some p)).rt = s.rt := rfl
@[simp] theorem switchIn_level : (switchIn s (some p)).level = s.level := rfl
@[simp] theorem switchIn_queued : (switchIn s (some p)).queued = s.queued := rfl
@[simp] theorem switchIn_current : (switchIn s (some p)).cpu.current = some p := rfl
@[simp] theorem switchIn_idle : (switchIn s (some p)).cpu.idle = s.cpu.idle := rfl

theorem switchIn_state (q : ProcRef) : ((switchIn s (some p)).procs q).state =
    if q = p then .running else (s.procs q).state := by
  simp only [switchIn, modify_procs]
  by_cases hq : q = p <;> simp [hq, Process.setState]

theorem switchIn_class : SameClass s (switchIn s (some p)) := by
  intro q
  simp only [switchIn, modify_procs]
  by_cases hq : q = p <;> simp [hq, Process.setState, Process.countSwitch]

theorem switchIn_ok (h : QueuesOk s) : QueuesOk (switchIn s (some p)) :=
  ⟨h.rt_size, h.rings, h.noNull⟩

end SwitchIn

end Switch

/-- The CPU's data and the state, policy and priority of every process are the same. -/
structure SameProcs (s t : Sched) : Prop where
  cpu : t.cpu = s.cpu
  state : ∀ q, (t.procs q).state = (s.procs q).state
  sameClass : SameClass s t

theorem SameProcs.refl (s : Sched) : SameProcs s s := ⟨rfl, fun _ => rfl, .refl s⟩

theorem SameProcs.trans {s t u : Sched} (h : SameProcs s t) (h' : SameProcs t u) :
    SameProcs s u :=
  ⟨h'.cpu.trans h.cpu, fun q => (h'.state q).trans (h.state q), h.sameClass.trans h'.sameClass⟩

section Next

variable {s t : Sched} {x : ProcPtr}

theorem nextFrom_procs (ls : List (Fin 4)) : SameProcs s (nextFrom ls s).2 := by
  induction ls generalizing s with
  | nil => exact .refl s
  | cons l ls ih =>
    simp only [nextFrom]
    split
    · split
      · exact ⟨rfl, fun _ => modify_state rfl, SameClass.modify rfl rfl⟩
      · exact ⟨ih.cpu, ih.state, ih.sameClass⟩
    · exact ih

theorem schedNext_procs (s : Sched) : SameProcs s (schedNext s).2 := by
  simp only [schedNext]
  split
  · split
    · exact ⟨rfl, fun _ => rfl, .of_procs rfl⟩
    · have h := nextFrom_procs (s := { s with rtQueue := (rtDequeue s.rtQueue).2 }) levels
      exact ⟨h.cpu, h.state, h.sameClass⟩
  · exact nextFrom_procs levels

theorem nextFrom_fullReturns (ls : List (Fin 4)) :
    (nextFrom ls s).2.fullReturns = s.fullReturns := by
  induction ls generalizing s with
  | nil => rfl
  | cons l ls ih =>
    simp only [nextFrom]
    split
    · split
      · rfl
      · exact ih
    · exact ih

theorem schedNext_fullReturns (s : Sched) : (schedNext s).2.fullReturns = s.fullReturns := by
  simp only [schedNext]
  split
  · split
    · rfl
    · exact nextFrom_fullReturns levels
  · exact nextFrom_fullReturns levels

theorem nextFrom_ok (h : QueuesOk s) (ls : List (Fin 4)) : QueuesOk (nextFrom ls s).2 := by
  induction ls generalizing s with
  | nil => exact h
  | cons l ls ih =>
    simp only [nextFrom]
    split
    · rename_i hs
      split
      · exact (dequeue_ok h hs).modify _ _
      · exact ih (dequeue_ok h hs)
    · exact ih h

theorem dequeue_rt_ok (h : QueuesOk s) (hs : s.rtQueue.size > 0) :
    QueuesOk { s with rtQueue := (rtDequeue s.rtQueue).2 } := by
  obtain ⟨p, _, hl⟩ := dequeue_rt h hs
  refine ⟨?_, h.rings, ?_⟩
  · have hle := h.rt_size
    simp only [rtDequeue]
    split
    · exact hle
    · exact Nat.le_trans (Nat.sub_le _ _) hle
  · intro hm
    apply h.noNull
    rcases mem_queued.mp hm with hm | hm
    · exact mem_queued.mpr (.inl (hl ▸ List.mem_cons_of_mem _ hm))
    · exact mem_queued.mpr (.inr hm)

theorem schedNext_ok (h : QueuesOk s) : QueuesOk (schedNext s).2 := by
  simp only [schedNext]
  split
  · rename_i hs
    split
    · exact dequeue_rt_ok h hs
    · exact nextFrom_ok (dequeue_rt_ok h hs) levels
  · exact nextFrom_ok h levels

/-- The chosen process leaves the queues, or nothing was queued at all. -/
theorem NextCase.perm (h : NextCase s x t) :
    s.queued.Perm (x :: t.queued) ∨ s.queued = [] ∧ x = s.cpu.idle ∧ t = s := by
  cases h with
  | realTime hrt hlevel =>
    left
    rw [Sched.queued, Sched.queued, hrt, hlevel, List.cons_append]
  | normal l hrt hrt' _ hlevel =>
    left
    rw [Sched.queued, Sched.queued, hrt, hrt', hlevel]
    exact allLevels_update (List.Perm.refl _)
  | idle hempty hx ht => exact .inr ⟨hempty, hx, ht⟩

theorem NextCase.mem_queued {y : ProcPtr} (h : NextCase s x t) (hy : y ∈ t.queued) :
    y ∈ s.queued := by
  rcases h.perm with hp | ⟨_, _, rfl⟩
  · exact hp.mem_iff.mpr (List.mem_cons_of_mem _ hy)
  · exact hy

end Next

section Yield

variable {s : Sched}

inductive YieldCase (s : Sched) : Sched → Prop
  | same {p : ProcRef} {t : Sched} (hnext : NextCase s (some p) t) (hok : QueuesOk t)
      (hprocs : SameProcs s t) (hfull : t.fullReturns = s.fullReturns)
      (hcur : s.cpu.current = some p) : YieldCase s t
  | switch {p : ProcRef} {t : Sched} (hnext : NextCase s (some p) t) (hok : QueuesOk t)
      (hprocs : SameProcs s t) (hfull : t.fullReturns = s.fullReturns)
      (hcur : s.cpu.current ≠ some p) :
      YieldCase s (switchIn (switchOut t s.cpu.current) (some p))

theorem schedYield_case (h : QueuesOk s) (hidle : s.cpu.idle = some .idle) :
    YieldCase s (schedYield s) := by
  have hcase := schedNext_case h
  have hok := schedNext_ok h
  have hprocs := schedNext_procs s
  have hfull := schedNext_fullReturns s
  unfold schedYield
  cases hn : (schedNext s).1 with
  | none =>
    rcases hcase.perm with hp | ⟨_, hi, _⟩
    · exact absurd (hp.mem_iff.mpr (by simp [hn])) h.noNull
    · simp [hn, hidle] at hi
  | some p =>
    rw [hn] at hcase
    simp only [hn, ne_eq, reduceCtorEq, not_false_eq_true, if_true, contextSwitch]
    by_cases hc : s.cpu.current = some p
    · rw [if_pos hc]
      exact .same hcase hok hprocs hfull hc
    · rw [if_neg hc]
      exact .switch hcase hok hprocs hfull hc

theorem schedYield_ok (h : QueuesOk s) (hidle : s.cpu.idle = some .idle) :
    QueuesOk (schedYield s) := by
  have hcase := schedYield_case h hidle
  generalize schedYield s = u at hcase
  cases hcase with
  | same _ hok => exact hok
  | switch _ hok => exact switchIn_ok (switchOut_ok hok _)

theorem schedYield_idle (h : QueuesOk s) (hidle : s.cpu.idle = some .idle) :
    (schedYield s).cpu.idle = some .idle := by
  have hcase := schedYield_case h hidle
  generalize schedYield s = u at hcase
  cases hcase with
  | same _ _ hprocs => rw [hprocs.cpu, hidle]
  | switch _ _ hprocs => rw [switchIn_idle, switchOut_idle, hprocs.cpu, hidle]

theorem schedYield_class (h : QueuesOk s) (hidle : s.cpu.idle = some .idle) :
    SameClass s (schedYield s) := by
  have hcase := schedYield_case h hidle
  generalize schedYield s = u at hcase
  cases hcase with
  | same _ _ hprocs => exact hprocs.sameClass
  | switch _ _ hprocs =>
    exact (hprocs.sameClass.trans (switchOut_class _)).trans switchIn_class

/-- A property that survives each of the steps a switch is made of survives a yield. -/
theorem yield_invariant {I : Sched → Prop} (hquiet : ∀ s t, I s → Quiet s t → I t)
    (hready : ∀ s p, I s → I (s.modify p (Process.setState .runnable)))
    (hadd : ∀ s p, QueuesOk s → I s → I (schedAdd s (some p)))
    (hnext : ∀ s x t, I s → NextCase s x t → SameProcs s t → I t)
    (hin : ∀ s p, I s → I (switchIn s (some p)))
    (hok : QueuesOk s) (hidle : s.cpu.idle = some .idle) (h : I s) : I (schedYield s) := by
  have hout (t : Sched) (x : ProcPtr) (hok : QueuesOk t) (ht : I t) : I (switchOut t x) := by
    cases x with
    | none => exact ht
    | some p =>
      simp only [switchOut]
      split
      · have hcase := requeue_case (s := t) (p := p)
        generalize requeue t p = u at hcase
        cases hcase with
        | idle _ hu => exact hready _ p (hquiet _ _ ht hu)
        | added _ _ hu => exact hadd _ p (hu.ok hok) (hquiet _ _ ht hu)
        | dropped _ _ hu => exact hquiet _ _ ht hu
      · exact ht
  have hcase := schedYield_case hok hidle
  generalize schedYield s = u at hcase
  cases hcase with
  | same hn _ hprocs => exact hnext _ _ _ h hn hprocs
  | switch hn hok hprocs => exact hin _ _ (hout _ _ hok (hnext _ _ _ h hn hprocs))

end Yield

end RiscvOs.Scheduler
