import RiscvOs.SchedulerCalls
set_option autoImplicit false

/-!
No process is lost or duplicated: a process is queued at most once, and only the
current process is running. The queues never fill up, because they hold different
processes of a table that has no more of them than a queue has cells.
-/

namespace RiscvOs.Scheduler
open WordMemory Queues Runs

/-- No process is queued twice, and only the current process, which is not queued, is running. -/
structure Distinct (s : Sched) : Prop where
  ok : QueuesOk s
  idle : s.cpu.idle = some .idle
  nodup : s.queued.Nodup
  running : ∀ p, (s.procs p).state = .running → s.cpu.current = some p ∧ some p ∉ s.queued

section Distinct

variable {s t : Sched} {p : ProcRef} {x : ProcPtr}

theorem Distinct.start : Distinct Sched.start := by
  refine ⟨start_ok, rfl, by simp [start_queued], ?_⟩
  intro p hp
  exact absurd hp (start_state p)

theorem Distinct.quiet (h : Distinct s) (hq : Quiet s t) : Distinct t := by
  refine ⟨hq.ok h.ok, hq.idle.trans h.idle, ?_, ?_⟩
  · rw [hq.queued]
    exact h.nodup
  · intro p hp
    rw [hq.state] at hp
    rw [hq.current, hq.queued]
    exact h.running p hp

theorem Distinct.rewrites (h : Distinct s) (hr : Rewrites p s t)
    (hp : (t.procs p).state = .running → (s.procs p).state = .running) : Distinct t := by
  refine ⟨hr.ok h.ok, ?_, ?_, ?_⟩
  · rw [hr.cpu]
    exact h.idle
  · rw [hr.queued]
    exact h.nodup
  · intro q hq
    rw [hr.cpu, hr.queued]
    apply h.running
    by_cases he : q = p
    · subst he
      exact hp hq
    · rwa [hr.others q he] at hq

theorem Distinct.add (h : Distinct s) (hq : some p ∉ s.queued) :
    Distinct (schedAdd s (some p)) := by
  refine ⟨schedAdd_ok h.ok _, ?_, ?_, ?_⟩
  · rw [schedAdd_cpu]
    exact h.idle
  · rw [(schedAdd_perm h.ok).nodup_iff]
    split
    · exact List.nodup_cons.mpr ⟨hq, h.nodup⟩
    · exact h.nodup
  · intro q hr
    rw [schedAdd_state] at hr
    by_cases he : q = p
    · simp [he] at hr
    · rw [if_neg he] at hr
      obtain ⟨hc, hn⟩ := h.running q hr
      refine ⟨by rw [schedAdd_cpu, hc], ?_⟩
      intro hm
      rcases mem_schedAdd h.ok hm with hm | hm
      · exact he (Option.some.inj hm)
      · exact hn hm

theorem Distinct.next (h : Distinct s) (hnext : NextCase s x t) (hok : QueuesOk t)
    (hprocs : SameProcs s t) :
    Distinct t ∧ x ∉ t.queued := by
  have hnodup : (x :: t.queued).Nodup := by
    rcases hnext.perm with hp | ⟨hn, _, he⟩
    · exact hp.nodup_iff.mp h.nodup
    · simp [he, hn]
  refine ⟨⟨hok, ?_, (List.nodup_cons.mp hnodup).2, ?_⟩, (List.nodup_cons.mp hnodup).1⟩
  · rw [hprocs.cpu]
    exact h.idle
  · intro q hq
    rw [hprocs.state] at hq
    obtain ⟨hc, hn⟩ := h.running q hq
    rw [hprocs.cpu]
    exact ⟨hc, fun hm => hn (hnext.mem_queued hm)⟩

/-- A running process that leaves the CPU is put back by `context_switch`. -/
def Sched.Requeues (s : Sched) : Prop :=
  ∀ p ∈ s.cpu.current, (s.procs p).state = .running → p ≠ .idle →
    (s.procs p).policy = .normal ∨ (s.procs p).policy = .rr

theorem Distinct.requeued (h : Distinct s) (hp : (s.procs p).state = .running)
    (hpol : p ≠ .idle → (s.procs p).policy = .normal ∨ (s.procs p).policy = .rr) :
    Distinct (requeue s p) ∧ (∀ q, ((requeue s p).procs q).state ≠ .running) ∧
      ∀ y ∈ (requeue s p).queued, y ∈ s.queued ∨ y = some p := by
  obtain ⟨hc, hn⟩ := h.running p hp
  have honly (q : ProcRef) (hq : (s.procs q).state = .running) : q = p := by
    have hqc := (h.running q hq).1
    rw [hc] at hqc
    exact (Option.some.inj hqc).symm
  have hcase := requeue_case (s := s) (p := p)
  generalize requeue s p = t at hcase
  cases hcase with
  | @idle u _ hu =>
    have hst (q : ProcRef) : ((u.modify p (Process.setState .runnable)).procs q).state ≠ .running := by
      rw [modify_procs]
      by_cases hq : q = p
      · simp [hq]
      · rw [if_neg hq, hu.state]
        exact fun hr => hq (honly q hr)
    refine ⟨(h.quiet hu).rewrites (modify_rewrites _) fun hr => absurd hr (hst p), hst, ?_⟩
    intro y hy
    rw [modify_queued, hu.queued] at hy
    exact .inl hy
  | @added u _ _ hu =>
    refine ⟨(h.quiet hu).add (by rwa [hu.queued]), ?_, ?_⟩
    · intro q
      rw [schedAdd_state]
      by_cases hq : q = p
      · simp [hq]
      · rw [if_neg hq, hu.state]
        exact fun hr => hq (honly q hr)
    · intro y hy
      rcases mem_schedAdd (hu.ok h.ok) hy with hy | hy
      · exact .inr hy
      · rw [hu.queued] at hy
        exact .inl hy
  | dropped hidle hpol' _ =>
    have hne : p ≠ .idle := by
      intro he
      rw [he, h.idle] at hidle
      exact hidle rfl
    rcases hpol hne with hpol | hpol <;> simp [hpol] at hpol'

theorem Distinct.leave (h : Distinct s) (hreq : s.Requeues) :
    Distinct (switchOut s s.cpu.current) ∧
      (∀ q, ((switchOut s s.cpu.current).procs q).state ≠ .running) ∧
      ∀ y ∈ (switchOut s s.cpu.current).queued, y ∈ s.queued ∨ y = s.cpu.current := by
  by_cases hr : ∃ p, s.cpu.current = some p ∧ (s.procs p).state = .running
  · obtain ⟨p, hc, hp⟩ := hr
    have hs : switchOut s (some p) = requeue s p := if_pos hp
    rw [hc, hs]
    exact h.requeued hp (hreq p hc hp)
  · have hs := switchOut_of_not_running (x := s.cpu.current) fun p hp hst => hr ⟨p, hp, hst⟩
    rw [hs]
    exact ⟨h, fun q hq => hr ⟨q, (h.running q hq).1, hq⟩, fun y hy => .inl hy⟩

theorem Distinct.enter (h : Distinct s) (hn : ∀ q, (s.procs q).state ≠ .running)
    (hp : some p ∉ s.queued) : Distinct (switchIn s (some p)) := by
  refine ⟨switchIn_ok h.ok, h.idle, h.nodup, ?_⟩
  intro q hq
  rw [switchIn_state] at hq
  by_cases he : q = p
  · subst he
    exact ⟨rfl, hp⟩
  · rw [if_neg he] at hq
    exact absurd hq (hn q)

theorem SameProcs.requeues (h : SameProcs s t) (hs : s.Requeues) : t.Requeues := by
  intro p
  rw [h.cpu, h.state, (h.sameClass p).1]
  exact hs p

theorem Distinct.yield (h : Distinct s) (hreq : s.Requeues) : Distinct (schedYield s) := by
  have hcase := schedYield_case h.ok h.idle
  generalize schedYield s = u at hcase
  cases hcase with
  | same hnext hok hprocs => exact (h.next hnext hok hprocs).1
  | @switch p t hnext hok hprocs _ hcur =>
    obtain ⟨ht, hx⟩ := h.next hnext hok hprocs
    have hout := ht.leave (hprocs.requeues hreq)
    rw [hprocs.cpu] at hout
    obtain ⟨hd, hn, hm⟩ := hout
    refine hd.enter hn ?_
    intro hp
    rcases hm _ hp with hp | hp
    · exact hx hp
    · exact hcur hp.symm

theorem Distinct.aging (h : Distinct s) : Distinct (agingPass s) := by
  have ha := agingPass_aged h.ok
  refine ⟨ha.ok, ?_, ?_, ?_⟩
  · rw [ha.procs.cpu]
    exact h.idle
  · obtain ⟨l, hp, hl⟩ := ha.sublist
    exact hp.nodup_iff.mp (h.nodup.sublist hl)
  · intro q hq
    rw [ha.procs.state] at hq
    obtain ⟨hc, hn⟩ := h.running q hq
    rw [ha.procs.cpu]
    exact ⟨hc, fun hm => hn (ha.sublist.subset hm)⟩

theorem Distinct.ticks (h : Distinct s) :
    Distinct (tickHead s) ∧ Distinct (tickTail s) ∧ Distinct (schedTick s) := by
  refine tick_invariant (I := Distinct) (fun s t hs hq => hs.quiet hq) ?_
    (fun s hs => hs.aging) h
  intro s p hs hc hpol
  apply hs.yield
  intro q hq _ _
  rw [hc] at hq
  cases hq
  exact hpol

end Distinct

/-- The entries of the queues and the processes `ps` outside them are different pointers. -/
theorem Distinct.length_add_le {s : Sched} (h : Distinct s) (ps : List ProcRef) (hps : ps.Nodup)
    (hn : ∀ p ∈ ps, some p ∉ s.queued) : s.queued.length + ps.length ≤ maxProcesses + 1 := by
  have hnd : (none :: (s.queued ++ ps.map some)).Nodup := by
    rw [List.nodup_cons, List.nodup_append']
    refine ⟨by simp [h.ok.noNull], h.nodup, hps.map (Option.some_injective _), ?_⟩
    intro x hx hm
    obtain ⟨p, hp, rfl⟩ := List.mem_map.mp hm
    exact hn p hp hx
  have hle := hnd.length_le_card
  rw [card_procPtr] at hle
  simp only [List.length_cons, List.length_append, List.length_map] at hle
  simp only [maxProcesses]
  omega

theorem Distinct.length_le {s : Sched} (h : Distinct s) {p : ProcRef} (hp : some p ∉ s.queued) :
    s.queued.length ≤ maxProcesses := by
  simpa using h.length_add_le [p] (List.nodup_singleton p) (by simpa using hp)

/-- Two processes that are not queued leave room in every queue. -/
theorem Distinct.length_lt {s : Sched} (h : Distinct s) {p q : ProcRef} (hpq : p ≠ q)
    (hp : some p ∉ s.queued) (hq : some q ∉ s.queued) : s.queued.length < maxProcesses := by
  have hle := h.length_add_le [p, q] (by simp [hpq]) (by simp [hp, hq])
  simp only [List.length_cons, List.length_nil] at hle
  omega

section Yielding

/-- The yielder is still there after the switch to `t`, and only the current process is running. -/
def YieldKeeps (p : ProcRef) (t : Sched) : Prop :=
  (t.cpu.current = some p ∨ (t.procs p).state = .runnable ∧ t.queued.count (some p) = 1) ∧
    ∀ q, (t.procs q).state = .running ↔ t.cpu.current = some q

/-- A queued process is not added again, and no process yields that would not be put back. -/
def YieldOk (s : Sched) : SchedCall → Prop
  | .add p => p ∉ s.queued
  | .yield => s.Requeues
  | _ => True

instance Requeues.decidable (s : Sched) : Decidable s.Requeues :=
  inferInstanceAs (Decidable (∀ p ∈ s.cpu.current, (s.procs p).state = .running → p ≠ .idle →
    (s.procs p).policy = .normal ∨ (s.procs p).policy = .rr))

instance YieldOk.decidable (s : Sched) : (c : SchedCall) → Decidable (YieldOk s c)
  | .add p => inferInstanceAs (Decidable (p ∉ s.queued))
  | .yield => inferInstanceAs (Decidable s.Requeues)
  | .alloc | .free _ | .tick | .tickHead | .tickTail | .setPriority _ _ | .setPolicy _ _ =>
    inferInstanceAs (Decidable True)

variable {s t : Sched} {c : SchedCall}

theorem Distinct.exec (h : Distinct s) (hok : YieldOk s c) : Distinct (s.exec c) := by
  cases c with
  | alloc =>
    rcases processAlloc_case s with he | ⟨i, _, hr, _, hp⟩
    · simp only [Sched.exec, he]
      exact h
    · refine h.rewrites hr ?_
      intro hrun
      simp [Sched.exec, hp, Process.alloc] at hrun
  | free p =>
    cases p with
    | none => exact h
    | some p =>
      refine h.rewrites (modify_rewrites Process.free) ?_
      intro hrun
      simp [Sched.exec, processFree, Process.free] at hrun
  | add p =>
    cases p with
    | none => exact h
    | some p => exact h.add hok
  | yield => exact h.yield hok
  | tick => exact h.ticks.2.2
  | tickHead => exact h.ticks.1
  | tickTail => exact h.ticks.2.1
  | setPriority p v =>
    cases p with
    | none => exact h
    | some p =>
      refine h.rewrites (schedSetPriority_rewrites p v) ?_
      intro hrun
      rwa [← (schedSetPriority_procs p v).1]
  | setPolicy p policy =>
    cases p with
    | none => exact h
    | some p =>
      refine h.rewrites (schedSetPolicy_rewrites p policy) ?_
      intro hrun
      simpa [Sched.exec, schedSetPolicy] using hrun

theorem Distinct.run {calls : List SchedCall}
    (h : Run (guarded YieldOk Sched.exec) Sched.start calls s) : Distinct s := by
  refine h.guarded_invariant Distinct ?_ Distinct.start
  intro s c hs hok
  exact hs.exec hok

/-- The next process is not the running one, which is not in any queue. -/
theorem Distinct.next_ne (h : Distinct s) {p x : ProcRef} (hp : (s.procs p).state = .running)
    (hi : p ≠ .idle) (hnext : NextCase s (some x) t) : x ≠ p := by
  intro he
  subst he
  rcases hnext.perm with hq | ⟨_, he, _⟩
  · exact (h.running x hp).2 (hq.mem_iff.mpr List.mem_cons_self)
  · rw [h.idle] at he
    exact hi (Option.some.inj he)

/-- A running process that yields goes through the queues before the next one is let in. -/
theorem Distinct.yield_eq (h : Distinct s) {p : ProcRef} (hc : s.cpu.current = some p)
    (hi : p ≠ .idle) (hp : (s.procs p).state = .running) :
    ∃ x t, x ≠ p ∧ NextCase s (some x) t ∧ QueuesOk t ∧ SameProcs s t ∧
      schedYield s = switchIn (requeue t p) (some x) := by
  have hcase := schedYield_case h.ok h.idle
  generalize schedYield s = u at hcase
  cases hcase with
  | same hnext _ _ _ hcur =>
    rw [hc] at hcur
    exact absurd (Option.some.inj hcur).symm (h.next_ne hp hi hnext)
  | @switch x t hnext hok hprocs _ _ =>
    refine ⟨x, t, h.next_ne hp hi hnext, hnext, hok, hprocs, ?_⟩
    rw [hc, Scheduler.switchOut, if_pos (by rw [hprocs.state, hp])]

theorem Distinct.yield_keeps (h : Distinct s) {p : ProcRef} (hc : s.cpu.current = some p)
    (hi : p ≠ .idle) (hp : (s.procs p).state = .running)
    (hpol : (s.procs p).policy = .normal ∨ (s.procs p).policy = .rr) :
    YieldKeeps p (schedYield s) := by
  obtain ⟨x, t, hne, hnext, hok, hprocs, hy⟩ := h.yield_eq hc hi hp
  obtain ⟨ht, hx⟩ := h.next hnext hok hprocs
  have htp : (t.procs p).state = .running := by rw [hprocs.state, hp]
  have hq := (ht.running p htp).2
  have hti : some p ≠ t.cpu.idle := by
    rw [ht.idle]
    exact fun he => hi (Option.some.inj he)
  have hlen := ht.length_lt hne hx hq
  have htpol : (t.procs p).policy = .normal ∨ (t.procs p).policy = .rr := by
    rwa [(hprocs.sameClass p).1]
  obtain ⟨hperm, hstate, _⟩ := requeue_perm ht.ok hti htpol hlen
  rw [hy]
  refine ⟨.inr ⟨?_, ?_⟩, ?_⟩
  · simp [switchIn_state, hne.symm, hstate]
  · rw [switchIn_queued, hperm.count_eq]
    simp [List.count_eq_zero_of_not_mem hq]
  · intro q
    rw [switchIn_state, switchIn_current, Option.some.injEq]
    by_cases hqx : q = x
    · simp [hqx]
    · have hn := (ht.requeued htp (fun _ => htpol)).2.1 q
      simp [hqx, hn, Ne.symm hqx]

theorem Distinct.yield_drops (h : Distinct s) {p : ProcRef} (hc : s.cpu.current = some p)
    (hi : p ≠ .idle) (hp : (s.procs p).state = .running) (hpol : (s.procs p).policy = .fifo) :
    ¬ YieldKeeps p (schedYield s) := by
  obtain ⟨x, t, hne, _, _, hprocs, hy⟩ := h.yield_eq hc hi hp
  have hst : ((requeue t p).procs p).state = .running := by
    have hcase := requeue_case (s := t) (p := p)
    generalize requeue t p = u at hcase
    cases hcase with
    | idle he =>
      rw [hprocs.cpu, h.idle] at he
      exact absurd (Option.some.inj he) hi
    | added _ hpol' =>
      rw [(hprocs.sameClass p).1] at hpol'
      simp [hpol] at hpol'
    | dropped _ _ hu => rw [hu.state, hprocs.state, hp]
  rw [hy]
  intro hk
  obtain ⟨hk, _⟩ := hk
  rw [switchIn_current, switchIn_state, if_neg hne.symm, hst] at hk
  rcases hk with hk | ⟨hk, _⟩
  · exact hne (Option.some.inj hk)
  · cases hk

/-- In every state reached without adding a queued process and without a yield that drops
the yielder, a yield keeps the yielder exactly when it is not a FIFO process. -/
theorem yield_keeps_iff {calls : List SchedCall} {p : ProcRef}
    (h : Run (guarded YieldOk Sched.exec) Sched.start calls s) (hc : s.cpu.current = some p)
    (hi : p ≠ .idle) (hp : (s.procs p).state = .running) (hpol : (s.procs p).policy ≠ .idle) :
    YieldKeeps p (schedYield s) ↔ (s.procs p).policy ≠ .fifo := by
  have hd := Distinct.run h
  constructor
  · intro hk hf
    exact hd.yield_drops hc hi hp hf hk
  · intro hf
    refine hd.yield_keeps hc hi hp ?_
    cases hq : (s.procs p).policy <;> simp_all

/-- Slot 0 is allocated, added as a normal process and given the CPU. -/
theorem yield_keeps_iff_normal : ∃ s, Run (guarded YieldOk Sched.exec) Sched.start
      [.alloc, .add (some (.slot 0)), .yield] s ∧
    s.cpu.current = some (.slot 0) ∧ YieldKeeps (.slot 0) (schedYield s) := by
  have hrun := run_guarded_iff.mpr ⟨show Admissible YieldOk Sched.exec Sched.start
    [.alloc, .add (some (.slot 0)), .yield] by decide +kernel, rfl⟩
  refine ⟨_, hrun, by decide +kernel, ?_⟩
  exact (yield_keeps_iff hrun (p := .slot 0) (by decide +kernel) (by decide) (by decide +kernel)
    (by decide +kernel)).mpr (by decide +kernel)

/-- A FIFO process that yields with nothing else to run is gone: it is still marked running,
and it is in no queue. -/
theorem yield_loses_fifo : ∃ s, Run (guarded (fun _ _ => True) Sched.exec) Sched.start
      [.alloc, .setPolicy (some (.slot 0)) .fifo, .add (some (.slot 0)), .yield] s ∧
    s.cpu.current = some (.slot 0) ∧ (s.procs (.slot 0)).state = .running ∧
    (s.procs (.slot 0)).policy = .fifo ∧ s.queued = [] ∧
    ¬ YieldKeeps (.slot 0) (schedYield s) := by
  refine ⟨_, run_unguarded _ _, by decide +kernel, by decide +kernel, by decide +kernel, by decide +kernel, ?_⟩
  intro hk
  have hc := (hk.2 (.slot 0)).mp (by decide +kernel)
  exact absurd hc (by decide +kernel)

end Yielding

end RiscvOs.Scheduler
