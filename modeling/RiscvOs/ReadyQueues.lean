import RiscvOs.Scheduler
set_option autoImplicit false

/-!
The ready queues as lists: what is queued at each level and in the real-time queue,
and what every function of the scheduler does to these lists, to the current process
and to the state, policy and priority of the processes.
-/

namespace RiscvOs.Scheduler
open WordMemory Queues

section Levels

variable {α : Type}

def allLevels (f : Fin 4 → List α) : List α := levels.flatMap f

theorem allLevels_eq (f : Fin 4 → List α) : allLevels f = f 0 ++ (f 1 ++ (f 2 ++ f 3)) := by
  simp [allLevels, levels]

theorem level_cases (l : Fin 4) : l = 0 ∨ l = 1 ∨ l = 2 ∨ l = 3 := by omega

theorem mem_allLevels {f : Fin 4 → List α} {x : α} : x ∈ allLevels f ↔ ∃ l, x ∈ f l := by
  have hl (l : Fin 4) : l ∈ levels := by
    simpa [levels] using level_cases l
  simp [allLevels, hl]

theorem allLevels_eq_nil {f : Fin 4 → List α} : allLevels f = [] ↔ ∀ l, f l = [] := by
  simp only [List.eq_nil_iff_forall_not_mem, mem_allLevels, not_exists]
  exact forall_comm

theorem allLevels_update {f : Fin 4 → List α} {l : Fin 4} {x : α} {xs : List α}
    (h : xs.Perm (x :: f l)) : (allLevels (Function.update f l xs)).Perm (x :: allLevels f) := by
  rcases level_cases l with rfl | rfl | rfl | rfl
  · simpa [allLevels_eq] using h.append_right _
  · have hp := (h.append_right (f 2 ++ f 3)).append_left (f 0)
    simpa [allLevels_eq] using hp.trans List.perm_middle
  · have hp := ((h.append_right (f 3)).append_left (f 1)).append_left (f 0)
    simpa [allLevels_eq] using hp.trans ((List.perm_middle.append_left _).trans List.perm_middle)
  · have hp := ((h.append_left (f 2)).append_left (f 1)).append_left (f 0)
    simpa [allLevels_eq] using hp.trans
      (((List.perm_middle.append_left _).append_left _).trans
        ((List.perm_middle.append_left _).trans List.perm_middle))

theorem length_le_allLevels (f : Fin 4 → List α) (l : Fin 4) :
    (f l).length ≤ (allLevels f).length := by
  rcases level_cases l with rfl | rfl | rfl | rfl <;> simp [allLevels_eq] <;> omega

end Levels

section RtQueue

variable {q : RtQueue}

theorem rtEnqueue_listing (prio : ProcPtr → Int) (h : q.size < maxProcesses) (p : ProcRef) :
    listing (rtEnqueue prio q (some p)).queue (rtEnqueue prio q (some p)).size =
      insertAfter (fun x => decide (prio x ≤ prio (some p))) (some p) (listing q.queue q.size) := by
  rw [rtEnqueue, if_neg (by simp [h])]
  exact listing_shiftUp _ _ _ _

theorem rtDequeue_listing (h : q.size ≠ 0) :
    listing q.queue q.size = (rtDequeue q).1 :: listing (rtDequeue q).2.queue (rtDequeue q).2.size := by
  obtain ⟨n, hn⟩ := Nat.exists_eq_succ_of_ne_zero h
  rw [rtDequeue, if_neg h, hn]
  exact listing_shiftDown n q.queue

end RtQueue

/-- The entries `rt_queue.queue[0..size-1]`. -/
def Sched.rt (s : Sched) : List ProcPtr := listing s.rtQueue.queue s.rtQueue.size

def Sched.level (s : Sched) (l : Fin 4) : List ProcPtr := (s.readyQueues l).contents maxProcesses

/-- All entries of the five queues. -/
def Sched.queued (s : Sched) : List ProcPtr := s.rt ++ allLevels s.level

structure QueuesOk (s : Sched) : Prop where
  rt_size : s.rtQueue.size ≤ maxProcesses
  rings : ∀ l, (s.readyQueues l).Valid maxProcesses
  noNull : none ∉ s.queued

@[simp] theorem rt_length (s : Sched) : s.rt.length = s.rtQueue.size := listing_length _ _

@[simp] theorem level_length (s : Sched) (l : Fin 4) :
    (s.level l).length = (s.readyQueues l).size := RingBuffer.contents_length

theorem mem_queued {s : Sched} {x : ProcPtr} :
    x ∈ s.queued ↔ x ∈ s.rt ∨ ∃ l, x ∈ s.level l := by
  rw [Sched.queued, List.mem_append, mem_allLevels]

theorem queued_eq_nil {s : Sched} : s.queued = [] ↔ s.rt = [] ∧ ∀ l, s.level l = [] := by
  rw [Sched.queued, List.append_eq_nil_iff, allLevels_eq_nil]

section Modify

@[simp] theorem setState_state (x : Process) (st : ProcState) : (x.setState st).state = st := rfl
@[simp] theorem setState_policy (x : Process) (st : ProcState) :
    (x.setState st).policy = x.policy := rfl
@[simp] theorem setState_priority (x : Process) (st : ProcState) :
    (x.setState st).priority = x.priority := rfl
@[simp] theorem setState_queueLevel (x : Process) (st : ProcState) :
    (x.setState st).queueLevel = x.queueLevel := rfl

variable {s : Sched} {p q : ProcRef} {f : Process → Process}

theorem modify_procs : (s.modify p f).procs q = if q = p then f (s.procs p) else s.procs q :=
  Function.update_apply ..

@[simp] theorem modify_self : (s.modify p f).procs p = f (s.procs p) := Function.update_self ..

@[simp] theorem modify_rtQueue : (s.modify p f).rtQueue = s.rtQueue := rfl
@[simp] theorem modify_readyQueues : (s.modify p f).readyQueues = s.readyQueues := rfl
@[simp] theorem modify_rt : (s.modify p f).rt = s.rt := rfl
@[simp] theorem modify_level : (s.modify p f).level = s.level := rfl
@[simp] theorem modify_queued : (s.modify p f).queued = s.queued := rfl
@[simp] theorem modify_cpu : (s.modify p f).cpu = s.cpu := rfl
@[simp] theorem modify_fullReturns : (s.modify p f).fullReturns = s.fullReturns := rfl

theorem modify_state (h : (f (s.procs p)).state = (s.procs p).state) :
    ((s.modify p f).procs q).state = (s.procs q).state := by
  rw [modify_procs]
  by_cases hq : q = p
  · simp [hq, h]
  · simp [hq]

end Modify

/-- The scheduling class of every process, its policy and its priority, is the same. -/
def SameClass (s t : Sched) : Prop :=
  ∀ q, (t.procs q).policy = (s.procs q).policy ∧ (t.procs q).priority = (s.procs q).priority

theorem SameClass.refl (s : Sched) : SameClass s s := fun _ => ⟨rfl, rfl⟩

theorem SameClass.trans {s t u : Sched} (h : SameClass s t) (h' : SameClass t u) :
    SameClass s u := by
  intro q
  exact ⟨(h' q).1.trans (h q).1, (h' q).2.trans (h q).2⟩

theorem SameClass.of_procs {s t : Sched} (h : t.procs = s.procs) : SameClass s t := by
  intro q
  rw [h]
  exact ⟨rfl, rfl⟩

theorem SameClass.modify {s : Sched} {p : ProcRef} {f : Process → Process}
    (hp : (f (s.procs p)).policy = (s.procs p).policy)
    (hr : (f (s.procs p)).priority = (s.procs p).priority) : SameClass s (s.modify p f) := by
  intro q
  rw [modify_procs]
  by_cases hq : q = p
  · simp [hq, hp, hr]
  · simp [hq]

theorem SameClass.prio {s t : Sched} (h : SameClass s t) : t.prio = s.prio := by
  funext x
  cases x with
  | none => rfl
  | some p => exact (h p).2

section Enqueue

variable {s : Sched}

theorem QueuesOk.modify (h : QueuesOk s) (p : ProcRef) (f : Process → Process) :
    QueuesOk (s.modify p f) :=
  ⟨h.rt_size, h.rings, h.noNull⟩

theorem enqueueLevel_level (h : QueuesOk s) (l : Fin 4) (p : ProcRef) :
    (s.enqueueLevel l (some p)).level = Function.update s.level l
      (if (s.level l).length < maxProcesses then s.level l ++ [some p] else s.level l) := by
  funext k
  by_cases hk : k = l
  · subst hk
    by_cases hs : (s.readyQueues k).size < maxProcesses
    · simp only [Sched.level, Sched.enqueueLevel, Sched.setLevel, Function.update_self, mlfqEnqueue,
        RingBuffer.contents_length, hs, if_true]
      rw [if_neg (by simp [hs]), (h.rings k).push_contents hs]
    · simp only [Sched.level, Sched.enqueueLevel, Sched.setLevel, Function.update_self, mlfqEnqueue,
        RingBuffer.contents_length, hs, if_false]
      rw [if_pos (by omega)]
  · simp [Sched.level, Sched.enqueueLevel, Sched.setLevel, hk]

theorem enqueueRt_rt (s : Sched) (p : ProcRef) :
    (s.enqueueRt (some p)).rt = if s.rt.length < maxProcesses
      then insertAfter (fun x => decide (s.prio x ≤ s.prio (some p))) (some p) s.rt else s.rt := by
  by_cases hs : s.rtQueue.size < maxProcesses
  · rw [rt_length, if_pos hs]
    exact rtEnqueue_listing s.prio hs p
  · rw [rt_length, if_neg hs, Sched.rt, Sched.enqueueRt]
    simp only [rtEnqueue]
    rw [if_pos (by omega)]
    rfl

theorem enqueueLevel_perm (h : QueuesOk s) (l : Fin 4) (p : ProcRef) :
    (s.enqueueLevel l (some p)).queued.Perm
      (if (s.level l).length < maxProcesses then some p :: s.queued else s.queued) := by
  have hl := enqueueLevel_level h l p
  by_cases hs : (s.level l).length < maxProcesses
  · rw [if_pos hs] at hl ⊢
    have hp := allLevels_update (f := s.level) (List.perm_append_singleton (some p) (s.level l))
    rw [Sched.queued, hl]
    exact (hp.append_left s.rt).trans List.perm_middle
  · rw [if_neg hs, Function.update_eq_self] at hl
    rw [if_neg hs, Sched.queued, hl]
    exact List.Perm.refl _

theorem enqueueRt_perm (s : Sched) (p : ProcRef) :
    (s.enqueueRt (some p)).queued.Perm
      (if s.rt.length < maxProcesses then some p :: s.queued else s.queued) := by
  have hr := enqueueRt_rt s p
  by_cases hs : s.rt.length < maxProcesses
  · rw [if_pos hs] at hr ⊢
    rw [Sched.queued, hr]
    exact (insertAfter_perm _ _ _).append_right _
  · rw [if_neg hs] at hr ⊢
    rw [Sched.queued, hr]
    exact List.Perm.refl _

theorem enqueueLevel_ok (h : QueuesOk s) (l : Fin 4) (p : ProcRef) :
    QueuesOk (s.enqueueLevel l (some p)) := by
  refine ⟨h.rt_size, ?_, ?_⟩
  · intro k
    by_cases hk : k = l
    · subst hk
      simp only [Sched.enqueueLevel, Sched.setLevel, Function.update_self, mlfqEnqueue]
      by_cases hs : (s.readyQueues k).size < maxProcesses
      · rw [if_neg (by simp [hs])]
        exact (h.rings k).push hs _
      · rw [if_pos (by omega)]
        exact h.rings k
    · simp only [Sched.enqueueLevel, Sched.setLevel, Function.update_of_ne hk]
      exact h.rings k
  · intro hm
    have hp := (enqueueLevel_perm h l p).mem_iff.mp hm
    split at hp
    · exact h.noNull (by simpa using hp)
    · exact h.noNull hp

theorem enqueueRt_ok (h : QueuesOk s) (p : ProcRef) : QueuesOk (s.enqueueRt (some p)) := by
  refine ⟨?_, h.rings, ?_⟩
  · have hle := h.rt_size
    simp only [Sched.enqueueRt, rtEnqueue]
    split
    · exact hle
    · rename_i hs
      simp only [reduceCtorEq, false_or] at hs
      show s.rtQueue.size + 1 ≤ maxProcesses
      omega
  · intro hm
    have hp := (enqueueRt_perm s p).mem_iff.mp hm
    split at hp
    · exact h.noNull (by simpa using hp)
    · exact h.noNull hp

end Enqueue

section Add

variable {s : Sched} {p : ProcRef}

/-- The queue that `sched_add` picks for `p` has a free cell. -/
def Sched.room (s : Sched) (p : ProcRef) : Bool :=
  match (s.procs p).policy with
  | .fifo => s.rt.length < maxProcesses
  | .rr => s.rt.length < maxProcesses
  | .idle => false
  | .normal => (s.level (clampLevel (s.procs p).queueLevel)).length < maxProcesses

theorem schedAdd_normal (hp : (s.procs p).policy = .normal) : schedAdd s (some p) =
    (s.modify p (Process.setState .runnable)).enqueueLevel
      (clampLevel (s.procs p).queueLevel) (some p) := by
  simp [schedAdd, hp]

theorem schedAdd_realTime (hp : (s.procs p).policy = .fifo ∨ (s.procs p).policy = .rr) :
    schedAdd s (some p) = (s.modify p (Process.setState .runnable)).enqueueRt (some p) := by
  rcases hp with hp | hp <;> simp [schedAdd, hp]

theorem schedAdd_idle (hp : (s.procs p).policy = .idle) :
    schedAdd s (some p) = s.modify p (Process.setState .runnable) := by
  simp [schedAdd, hp]

theorem policy_cases (x : SchedPolicy) : x = .normal ∨ (x = .fifo ∨ x = .rr) ∨ x = .idle := by
  cases x <;> simp

theorem room_normal (hp : (s.procs p).policy = .normal) :
    s.room p = decide ((s.level (clampLevel (s.procs p).queueLevel)).length < maxProcesses) := by
  simp [Sched.room, hp]

theorem room_realTime (hp : (s.procs p).policy = .fifo ∨ (s.procs p).policy = .rr) :
    s.room p = decide (s.rt.length < maxProcesses) := by
  rcases hp with hp | hp <;> simp [Sched.room, hp]

theorem room_idle (hp : (s.procs p).policy = .idle) : s.room p = false := by
  simp [Sched.room, hp]

theorem schedAdd_procs (q : ProcRef) : (schedAdd s (some p)).procs q =
    if q = p then (s.procs p).setState .runnable else s.procs q := by
  rw [← modify_procs (f := Process.setState .runnable)]
  simp only [schedAdd]
  split <;> rfl

@[simp] theorem schedAdd_cpu (x : ProcPtr) : (schedAdd s x).cpu = s.cpu := by
  cases x with
  | none => rfl
  | some p =>
    simp only [schedAdd]
    split <;> rfl

theorem schedAdd_state (q : ProcRef) : ((schedAdd s (some p)).procs q).state =
    if q = p then .runnable else (s.procs q).state := by
  rw [schedAdd_procs]
  by_cases hq : q = p <;> simp [hq]

theorem schedAdd_class (x : ProcPtr) : SameClass s (schedAdd s x) := by
  cases x with
  | none => exact .refl s
  | some p =>
    intro q
    rw [schedAdd_procs]
    by_cases hq : q = p <;> simp [hq]

theorem schedAdd_ok (h : QueuesOk s) (x : ProcPtr) : QueuesOk (schedAdd s x) := by
  cases x with
  | none => exact h
  | some p =>
    have hm := h.modify p (Process.setState .runnable)
    simp only [schedAdd]
    split
    · exact enqueueRt_ok hm p
    · exact enqueueRt_ok hm p
    · exact hm
    · exact enqueueLevel_ok hm _ p

theorem schedAdd_perm (h : QueuesOk s) :
    (schedAdd s (some p)).queued.Perm (if s.room p then some p :: s.queued else s.queued) := by
  have hm := h.modify p (Process.setState .runnable)
  rcases policy_cases (s.procs p).policy with hp | hp | hp
  · simpa [schedAdd_normal hp, room_normal hp] using enqueueLevel_perm hm _ p
  · simpa [schedAdd_realTime hp, room_realTime hp] using
      enqueueRt_perm (s.modify p (Process.setState .runnable)) p
  · simp [schedAdd_idle hp, room_idle hp]

theorem mem_schedAdd (h : QueuesOk s) {x : ProcPtr} (hx : x ∈ (schedAdd s (some p)).queued) :
    x = some p ∨ x ∈ s.queued := by
  have hm := (schedAdd_perm h).mem_iff.mp hx
  split at hm
  · exact List.mem_cons.mp hm
  · exact .inr hm

theorem schedAdd_rt : (schedAdd s (some p)).rt =
    if ((s.procs p).policy = .fifo ∨ (s.procs p).policy = .rr) ∧ s.rt.length < maxProcesses
    then insertAfter (fun x => decide (s.prio x ≤ s.prio (some p))) (some p) s.rt
    else s.rt := by
  rcases policy_cases (s.procs p).policy with hp | hp | hp
  · rw [schedAdd_normal hp]
    simp [hp, Sched.enqueueLevel, Sched.setLevel, Sched.rt]
  · have hprio : (s.modify p (Process.setState .runnable)).prio = s.prio :=
      (SameClass.modify (p := p) (f := Process.setState .runnable) rfl rfl).prio
    rw [schedAdd_realTime hp, enqueueRt_rt, hprio, modify_rt]
    simp [hp]
  · simp [schedAdd_idle hp, hp]

theorem mem_schedAdd_level (h : QueuesOk s) {l : Fin 4} {x : ProcPtr}
    (hx : x ∈ (schedAdd s (some p)).level l) :
    x ∈ s.level l ∨ x = some p ∧ (s.procs p).policy = .normal ∧ l = clampLevel (s.procs p).queueLevel := by
  have hm := h.modify p (Process.setState .runnable)
  rcases policy_cases (s.procs p).policy with hp | hp | hp
  · rw [schedAdd_normal hp, enqueueLevel_level hm, modify_level] at hx
    by_cases hl : l = clampLevel (s.procs p).queueLevel
    · subst hl
      rw [Function.update_self] at hx
      by_cases hs : (s.level (clampLevel (s.procs p).queueLevel)).length < maxProcesses
      · rw [if_pos hs] at hx
        simpa [hp] using hx
      · rw [if_neg hs] at hx
        exact .inl hx
    · rw [Function.update_of_ne hl] at hx
      exact .inl hx
  · rw [schedAdd_realTime hp] at hx
    exact .inl hx
  · rw [schedAdd_idle hp] at hx
    exact .inl hx

theorem schedAdd_fullReturns (h : s.room p = true) :
    (schedAdd s (some p)).fullReturns = s.fullReturns := by
  rcases policy_cases (s.procs p).policy with hp | hp | hp
  · rw [room_normal hp] at h
    have hs : ¬ maxProcesses ≤ (s.readyQueues (clampLevel (s.procs p).queueLevel)).size := by
      simpa using h
    simp [schedAdd_normal hp, Sched.enqueueLevel, Sched.setLevel, hs]
  · rw [room_realTime hp] at h
    have hs : ¬ maxProcesses ≤ s.rtQueue.size := by simpa using h
    simp [schedAdd_realTime hp, Sched.enqueueRt, hs]
  · simp [schedAdd_idle hp]

theorem length_le_queued (s : Sched) :
    s.rt.length ≤ s.queued.length ∧ ∀ l, (s.level l).length ≤ s.queued.length := by
  have hl := length_le_allLevels s.level
  simp only [Sched.queued, List.length_append]
  exact ⟨by omega, fun l => by have := hl l; omega⟩

theorem room_of_length (h : s.queued.length < maxProcesses) (hp : (s.procs p).policy ≠ .idle) :
    s.room p = true := by
  obtain ⟨hr, hl⟩ := length_le_queued s
  rcases policy_cases (s.procs p).policy with hpol | hpol | hpol
  · rw [room_normal hpol, decide_eq_true_eq]
    exact (hl _).trans_lt h
  · rw [room_realTime hpol, decide_eq_true_eq]
    exact hr.trans_lt h
  · exact absurd hpol hp

end Add

section Next

variable {s : Sched}

/-- Where `sched_next` finds the process `x` that it returns, and what is left in `t`. -/
inductive NextCase (s : Sched) (x : ProcPtr) (t : Sched) : Prop
  | realTime (hrt : s.rt = x :: t.rt) (hlevel : t.level = s.level)
  | normal (l : Fin 4) (hrt : s.rt = []) (hrt' : t.rt = []) (hup : ∀ k < l, s.level k = [])
      (hlevel : s.level = Function.update t.level l (x :: t.level l))
  | idle (hempty : s.queued = []) (hx : x = s.cpu.idle) (ht : t = s)

theorem size_pos_iff (l : Fin 4) : (s.readyQueues l).size > 0 ↔ s.level l ≠ [] := by
  rw [← level_length, gt_iff_lt, List.length_pos_iff]

theorem setLevel_level (l : Fin 4) (q : Mlfq) :
    (s.setLevel l q).level = Function.update s.level l (q.contents maxProcesses) := by
  funext k
  by_cases hk : k = l
  · subst hk
    simp [Sched.level, Sched.setLevel]
  · simp [Sched.level, Sched.setLevel, hk]

/-- The head of a level that is not empty. -/
theorem dequeue_level (h : QueuesOk s) {l : Fin 4} (hs : (s.readyQueues l).size > 0) :
    ∃ p, (mlfqDequeue (s.readyQueues l)).1 = some p ∧
      s.level l = some p :: (mlfqDequeue (s.readyQueues l)).2.contents maxProcesses := by
  have hne : (s.readyQueues l).size ≠ 0 := by omega
  have hpop := (h.rings l).pop_contents hne
  rw [mlfqDequeue, if_neg hne]
  cases hx : ((s.readyQueues l).pop maxProcesses).1 with
  | none =>
    have hmem : none ∈ s.level l := by
      rw [Sched.level, hpop, hx]
      exact List.mem_cons_self
    exact absurd (mem_queued.mpr (.inr ⟨l, hmem⟩)) h.noNull
  | some p => exact ⟨p, rfl, by rw [Sched.level, hpop, hx]⟩

theorem dequeue_ok (h : QueuesOk s) {l : Fin 4} (hs : (s.readyQueues l).size > 0) :
    QueuesOk (s.setLevel l (mlfqDequeue (s.readyQueues l)).2) := by
  have hne : (s.readyQueues l).size ≠ 0 := by omega
  obtain ⟨p, _, hl⟩ := dequeue_level h hs
  refine ⟨h.rt_size, ?_, ?_⟩
  · intro k
    by_cases hk : k = l
    · subst hk
      simp only [Sched.setLevel, Function.update_self, mlfqDequeue, if_neg hne]
      exact (h.rings k).pop hne
    · simp only [Sched.setLevel, Function.update_of_ne hk]
      exact h.rings k
  · intro hm
    apply h.noNull
    rcases mem_queued.mp hm with hm | ⟨k, hm⟩
    · exact mem_queued.mpr (.inl hm)
    · rw [setLevel_level] at hm
      by_cases hk : k = l
      · subst hk
        rw [Function.update_self] at hm
        exact mem_queued.mpr (.inr ⟨k, hl ▸ List.mem_cons_of_mem _ hm⟩)
      · rw [Function.update_of_ne hk] at hm
        exact mem_queued.mpr (.inr ⟨k, hm⟩)

theorem nextFrom_case {ls : List (Fin 4)} (h : QueuesOk s) (hsort : ls.Pairwise (· < ·))
    (hrt : s.rt = []) (hempty : ∀ k, k ∉ ls → s.level k = []) :
    NextCase s (nextFrom ls s).1 (nextFrom ls s).2 := by
  induction ls with
  | nil => exact .idle (queued_eq_nil.mpr ⟨hrt, fun l => hempty l (by simp)⟩) rfl rfl
  | cons l ls ih =>
    unfold nextFrom
    by_cases hs : (s.readyQueues l).size > 0
    · obtain ⟨p, hp, hl⟩ := dequeue_level h hs
      simp only [if_pos hs, hp]
      refine .normal l hrt hrt ?_ ?_
      · intro k hk
        apply hempty
        intro hm
        rcases List.mem_cons.mp hm with rfl | hm
        · exact lt_irrefl _ hk
        · exact lt_asymm hk ((List.pairwise_cons.mp hsort).1 k hm)
      · rw [modify_level, setLevel_level, Function.update_self, Function.update_idem, ← hl,
          Function.update_eq_self]
    · rw [if_neg hs]
      refine ih (List.pairwise_cons.mp hsort).2 ?_
      intro k hk
      by_cases hkl : k = l
      · subst hkl
        rw [size_pos_iff, not_not] at hs
        exact hs
      · exact hempty k (by simp [hkl, hk])

theorem dequeue_rt (h : QueuesOk s) (hs : s.rtQueue.size > 0) :
    ∃ p, (rtDequeue s.rtQueue).1 = some p ∧
      s.rt = some p :: listing (rtDequeue s.rtQueue).2.queue (rtDequeue s.rtQueue).2.size := by
  have hl := rtDequeue_listing (q := s.rtQueue) (by omega)
  cases hx : (rtDequeue s.rtQueue).1 with
  | none =>
    have hmem : none ∈ s.rt := by
      rw [Sched.rt, hl, hx]
      exact List.mem_cons_self
    exact absurd (mem_queued.mpr (.inl hmem)) h.noNull
  | some p => exact ⟨p, rfl, by rw [Sched.rt, hl, hx]⟩

theorem schedNext_case (h : QueuesOk s) : NextCase s (schedNext s).1 (schedNext s).2 := by
  unfold schedNext
  by_cases hs : s.rtQueue.size > 0
  · obtain ⟨p, hp, hl⟩ := dequeue_rt h hs
    simp only [if_pos hs, hp]
    exact .realTime hl rfl
  · rw [if_neg hs]
    have hrt : s.rt = [] := by
      rw [← List.length_eq_zero_iff, rt_length]
      omega
    refine nextFrom_case h (by decide) hrt ?_
    intro k hk
    exact absurd (by rcases level_cases k with rfl | rfl | rfl | rfl <;> decide) hk

end Next

end RiscvOs.Scheduler
