import RiscvOs.Routing
set_option autoImplicit false

/-!
The order of the real-time queue, and whether real-time processes come first at a
switch. The process that leaves the CPU is put back only after the next one has been
chosen, so that it is never weighed against it; and a priority changes without the queue
being put in order again.
-/

namespace RiscvOs.Scheduler
open WordMemory Queues Runs

/-- Normal and round-robin processes, whose priorities change only while they are not queued. -/
def UnqueuedPriority (s : Sched) : SchedCall → Prop
  | .setPriority p _ => p ≠ some .idle ∧ p ∉ s.queued
  | .free _ => False
  | .setPolicy _ _ => False
  | _ => True

instance UnqueuedPriority.decidable (s : Sched) :
    (c : SchedCall) → Decidable (UnqueuedPriority s c)
  | .setPriority p _ => inferInstanceAs (Decidable (p ≠ some .idle ∧ p ∉ s.queued))
  | .free _ | .setPolicy _ _ => inferInstanceAs (Decidable False)
  | .alloc | .add _ | .yield | .tick | .tickHead | .tickTail => inferInstanceAs (Decidable True)

/-- If the call that led from `s` to `t` changed the current process while real-time processes
are queued, the new one is a real-time process that is at least as urgent as all of them. -/
def RealTimeFirst (s t : Sched) : Prop :=
  t.cpu.current ≠ s.cpu.current → t.rt ≠ [] →
    ∃ p, t.cpu.current = some p ∧ ((t.procs p).policy = .fifo ∨ (t.procs p).policy = .rr) ∧
      ∀ x ∈ t.rt, t.prio (some p) ≤ t.prio x

/-- A running round-robin process, which goes back to the real-time queue. -/
def Sched.BusyRt (s : Sched) (p : ProcRef) : Prop :=
  s.cpu.current = some p ∧ (s.procs p).state = .running ∧ (s.procs p).policy = .rr

abbrev NormalOrRr (policy : SchedPolicy) : Prop := policy = .normal ∨ policy = .rr

section Precedence

variable {s t : Sched} {p : ProcRef}

theorem unqueuedPriority_run {calls : List SchedCall}
    (h : Run (guarded UnqueuedPriority Sched.exec) Sched.start calls s) : Classed NormalOrRr s := by
  refine h.guarded_invariant (Classed NormalOrRr) ?_ (.start (.inl rfl))
  intro s c hs hok
  cases c with
  | alloc => exact hs.alloc (.inl rfl)
  | add x => exact hs.add x
  | yield => exact hs.yield
  | tick => exact hs.ticks.2.2
  | tickHead => exact hs.ticks.1
  | tickTail => exact hs.ticks.2.1
  | free p => exact hok.elim
  | setPriority x v =>
    cases x with
    | none => exact hs
    | some p =>
      have hp : p ≠ .idle := fun he => hok.1 (congrArg some he)
      refine hs.rewrites (schedSetPriority_rewrites p v) hp hok.2 ?_
      rw [Sched.exec, (schedSetPriority_procs p v).2.2]
      split
      · exact .inr rfl
      · cases p with
        | slot i => exact hs.table i
        | idle => exact absurd rfl hp
  | setPolicy p policy => exact hok.elim

/-- The real-time queue after the current process has left the CPU. -/
theorem switchOut_rt (h : Classed NormalOrRr s) (hprocs : SameProcs s t) :
    ((∀ p, ¬ s.BusyRt p) → (switchOut t s.cpu.current).rt = t.rt) ∧
    ∀ p, s.BusyRt p → t.rt.length < maxProcesses → (switchOut t s.cpu.current).rt =
      insertAfter (fun x => decide (s.prio x ≤ s.prio (some p))) (some p) t.rt := by
  constructor
  · intro hb
    cases hc : s.cpu.current with
    | none => rfl
    | some p =>
      by_cases hr : (t.procs p).state = .running
      · rw [switchOut, if_pos hr]
        have hcase := requeue_case (s := t) (p := p)
        generalize requeue t p = u at hcase
        cases hcase with
        | idle _ hu => exact hu.rt
        | @added u _ hpol hu =>
          have hnr : (t.procs p).policy ≠ .rr := by
            intro hp
            rw [hprocs.state] at hr
            rw [(hprocs.sameClass p).1] at hp
            exact hb p ⟨hc, hr, hp⟩
          rw [schedAdd_rt, if_neg, hu.rt]
          rw [(hu.sameClass p).1]
          rcases hpol with hpol | hpol <;> simp [hpol] at hnr ⊢
        | dropped _ _ hu => exact hu.rt
      · rw [switchOut, if_neg hr]
  · intro p hb hlen
    obtain ⟨hc, hr, hp⟩ := hb
    have hprio : t.prio = s.prio := hprocs.sameClass.prio
    rw [hc, switchOut, if_pos (by rw [hprocs.state, hr])]
    have hcase := requeue_case (s := t) (p := p)
    generalize requeue t p = u at hcase
    rw [← (hprocs.sameClass p).1] at hp
    cases hcase with
    | idle he =>
      rw [hprocs.cpu, h.serving.idle] at he
      cases he
      rw [(hprocs.sameClass _).1, h.idlePolicy] at hp
      cases hp
    | @added u _ _ hu =>
      rw [schedAdd_rt, if_pos, hu.rt, hu.sameClass.prio, hprio]
      rw [(hu.sameClass p).1, hu.rt]
      exact ⟨.inr hp, hlen⟩
    | dropped _ hpol => simp [hp] at hpol

theorem realTimeFirst_switch (hcur : s.cpu.current ≠ some p) (hprocs : SameProcs s t) :
    RealTimeFirst s (switchIn (switchOut t s.cpu.current) (some p)) ↔
      ((switchOut t s.cpu.current).rt ≠ [] →
        ((s.procs p).policy = .fifo ∨ (s.procs p).policy = .rr) ∧
          ∀ x ∈ (switchOut t s.cpu.current).rt, s.prio (some p) ≤ s.prio x) := by
  have hclass := (hprocs.sameClass.trans (switchOut_class s.cpu.current)).trans
    (switchIn_class (p := p))
  rw [RealTimeFirst, hclass.prio]
  simp [hcur.symm, (hclass _).1]

/-- The process `p` that `sched_next` takes from queues that are in order, leaving `t`. -/
inductive Chosen (s t : Sched) (p : ProcRef) : Prop
  | realTime (hpol : (s.procs p).policy = .fifo ∨ (s.procs p).policy = .rr)
      (hrt : s.rt = some p :: t.rt) (hle : ∀ x ∈ t.rt, s.prio (some p) ≤ s.prio x)
  | other (hpol : ¬ ((s.procs p).policy = .fifo ∨ (s.procs p).policy = .rr))
      (hrt : s.rt = []) (hrt' : t.rt = [])

theorem Classed.chosen (h : Classed NormalOrRr s) (hnext : NextCase s (some p) t) :
    Chosen s t p := by
  cases hnext with
  | realTime hrt =>
    have hsort := h.sorted
    rw [RtSorted, hrt, List.pairwise_cons] at hsort
    exact .realTime (h.routed.rt p (hrt ▸ List.mem_cons_self)) hrt hsort.1
  | normal l hrt hrt' _ hl =>
    have hm : some p ∈ s.level l := by
      rw [hl, Function.update_self]
      exact List.mem_cons_self
    exact .other (by simp [h.routed.level l p hm]) hrt hrt'
  | idle hempty hx ht =>
    rw [h.serving.idle] at hx
    cases hx
    have hrt := (queued_eq_nil.mp hempty).1
    exact .other (by simp [h.idlePolicy]) hrt (ht ▸ hrt)

theorem Chosen.rt_length_lt (h : Chosen s t p) (hok : QueuesOk s) :
    t.rt.length < maxProcesses := by
  cases h with
  | realTime _ hrt =>
    have hle := hok.rt_size
    rw [← rt_length, hrt, List.length_cons] at hle
    exact hle
  | other _ _ hrt' => simp [hrt', maxProcesses]

/-- The head of the real-time queue is at least as urgent as the round-robin process `p`. -/
def Sched.HeadBefore (s : Sched) (p : ProcRef) : Prop :=
  ∃ x ∈ s.rt.head?, s.prio x ≤ s.prio (some p)

/-- The chosen process precedes the process `q` and the rest of the real-time queue exactly
when the head of the queue precedes `q`. -/
theorem Chosen.headBefore_iff (h : Chosen s t p) (q : ProcRef) :
    s.HeadBefore q ↔ ((s.procs p).policy = .fifo ∨ (s.procs p).policy = .rr) ∧
      ∀ x ∈ some q :: t.rt, s.prio (some p) ≤ s.prio x := by
  cases h with
  | realTime hpol hrt hle =>
    simp only [Sched.HeadBefore, hrt, List.head?_cons, Option.mem_def, Option.some.injEq,
      exists_eq_left', List.forall_mem_cons]
    exact ⟨fun hq => ⟨hpol, hq, hle⟩, fun hq => hq.2.1⟩
  | other hpol hrt => simp [Sched.HeadBefore, hrt, hpol]

theorem realTimeFirst_switch_free (h : Classed NormalOrRr s) (hnext : NextCase s (some p) t)
    (hprocs : SameProcs s t) (hcur : s.cpu.current ≠ some p) (hno : ∀ q, ¬ s.BusyRt q) :
    RealTimeFirst s (switchIn (switchOut t s.cpu.current) (some p)) := by
  rw [realTimeFirst_switch hcur hprocs, (switchOut_rt h hprocs).1 hno]
  intro hne
  cases h.chosen hnext with
  | realTime hpol _ hle => exact ⟨hpol, hle⟩
  | other _ _ hrt' => exact absurd hrt' hne

theorem realTimeFirst_switch_busy (h : Classed NormalOrRr s) (hnext : NextCase s (some p) t)
    (hprocs : SameProcs s t) (hcur : s.cpu.current ≠ some p) {q : ProcRef} (hq : s.BusyRt q) :
    RealTimeFirst s (switchIn (switchOut t s.cpu.current) (some p)) ↔ s.HeadBefore q := by
  have hchosen := h.chosen hnext
  rw [realTimeFirst_switch hcur hprocs, hchosen.headBefore_iff,
    (switchOut_rt h hprocs).2 q hq (hchosen.rt_length_lt h.serving.ok)]
  have hperm := insertAfter_perm (fun x => decide (s.prio x ≤ s.prio (some q))) (some q) t.rt
  have hne : insertAfter (fun x => decide (s.prio x ≤ s.prio (some q))) (some q) t.rt ≠ [] := by
    intro hn
    rw [hn] at hperm
    cases hperm.symm.eq_nil
  simp only [ne_eq, hne, not_false_eq_true, forall_const, hperm.mem_iff]

theorem realTimeFirst_yield_iff (h : Classed NormalOrRr s) :
    RealTimeFirst s (schedYield s) ↔ ∀ p, s.BusyRt p → s.HeadBefore p := by
  have hcase := schedYield_case h.serving.ok h.serving.idle
  generalize schedYield s = u at hcase
  cases hcase with
  | @same p t hnext _ hprocs _ hcur =>
    refine iff_of_true (fun hne => absurd (by rw [hprocs.cpu]) hne) ?_
    intro q hb
    have hqp : q = p := Option.some.inj (hb.1.symm.trans hcur)
    subst hqp
    cases h.chosen hnext with
    | realTime _ hrt => exact ⟨_, by rw [hrt]; rfl, le_refl _⟩
    | other hpol => exact absurd (.inr hb.2.2) hpol
  | @switch p t hnext _ hprocs _ hcur =>
    by_cases hb : ∃ q, s.BusyRt q
    · obtain ⟨q, hq⟩ := hb
      rw [realTimeFirst_switch_busy h hnext hprocs hcur hq]
      constructor
      · intro hh r hr
        rwa [Option.some.inj (hr.1.symm.trans hq.1)]
      · intro hall
        exact hall q hq
    · have hno : ∀ q, ¬ s.BusyRt q := fun q hq => hb ⟨q, hq⟩
      exact iff_of_true (realTimeFirst_switch_free h hnext hprocs hcur hno)
        (fun q hq => absurd hq (hno q))

theorem Quiet.busyRt (hq : Quiet s t) (p : ProcRef) : t.BusyRt p ↔ s.BusyRt p := by
  rw [Sched.BusyRt, Sched.BusyRt, hq.current, hq.state, (hq.sameClass p).1]

theorem Quiet.headBefore (hq : Quiet s t) (p : ProcRef) : t.HeadBefore p ↔ s.HeadBefore p := by
  rw [Sched.HeadBefore, Sched.HeadBefore, hq.rt, hq.sameClass.prio]

theorem realTimeFirst_tickHead_iff (h : Classed NormalOrRr s) :
    RealTimeFirst s (tickHead s) ↔
      ∀ p, s.BusyRt p → (s.procs p).timeSlice.toNat ≤ 1 → s.HeadBefore p := by
  have hcase := tickHead_case s
  generalize tickHead s = u at hcase
  cases hcase with
  | noProcess hcur hu =>
    refine iff_of_true (fun hne => absurd hu.current hne) ?_
    intro p hb
    rw [Sched.BusyRt, hcur] at hb
    cases hb.1
  | @expired p u hcur hslice hpol hu =>
    have hfirst : RealTimeFirst s (schedYield u) ↔ RealTimeFirst u (schedYield u) := by
      rw [RealTimeFirst, RealTimeFirst, hu.current]
    rw [hfirst, realTimeFirst_yield_iff (h.quiet hu)]
    simp only [hu.busyRt, hu.headBefore]
    constructor
    · intro hy q hb _
      exact hy q hb
    · intro hy q hb
      have hqp : q = p := Option.some.inj (hb.1.symm.trans hcur)
      exact hy q hb (hqp ▸ hslice)
  | @kept p u hcur hkeep hu =>
    refine iff_of_true (fun hne => absurd hu.current hne) ?_
    intro q hb hslice
    have hqp : q = p := Option.some.inj (hb.1.symm.trans hcur)
    subst hqp
    simp only [hb.2.2, reduceCtorEq, or_false] at hkeep
    omega

theorem realTimeFirst_tick_iff (h : Classed NormalOrRr s) :
    RealTimeFirst s (schedTick s) ↔
      ∀ p, s.BusyRt p → (s.procs p).timeSlice.toNat ≤ 1 → s.HeadBefore p := by
  rw [← realTimeFirst_tickHead_iff h]
  unfold schedTick tickTail
  split
  · exact Iff.rfl
  · split
    · have ha := agingPass_aged h.ticks.1.serving.ok
      simp only [RealTimeFirst, ha.procs.cpu, ha.rt, ha.procs.sameClass.prio,
        (ha.procs.sameClass _).1]
    · exact Iff.rfl

end Precedence

/-- In every state that can be reached, real-time processes come first after a yield exactly
when a round-robin process that yields is not more urgent than the head of the real-time
queue, and after a tick exactly when the same holds of one whose time slice is over. -/
theorem real_time_first_iff {calls : List SchedCall} {s : Sched}
    (h : Run (guarded UnqueuedPriority Sched.exec) Sched.start calls s) :
    (RealTimeFirst s (schedYield s) ↔ ∀ p, s.BusyRt p → s.HeadBefore p) ∧
    (RealTimeFirst s (schedTick s) ↔
      ∀ p, s.BusyRt p → (s.procs p).timeSlice.toNat ≤ 1 → s.HeadBefore p) :=
  ⟨realTimeFirst_yield_iff (unqueuedPriority_run h), realTimeFirst_tick_iff (unqueuedPriority_run h)⟩

/-- Two round-robin processes of the same priority take turns. -/
theorem real_time_first_iff_equal : ∃ s, Run (guarded UnqueuedPriority Sched.exec) Sched.start
      [.alloc, .alloc, .setPriority (some (.slot 0)) 50, .setPriority (some (.slot 1)) 50,
        .add (some (.slot 0)), .add (some (.slot 1)), .yield] s ∧
    s.cpu.current = some (.slot 0) ∧ RealTimeFirst s (schedYield s) := by
  have hrun := run_guarded_iff.mpr ⟨show Admissible UnqueuedPriority Sched.exec Sched.start
    [.alloc, .alloc, .setPriority (some (.slot 0)) 50, .setPriority (some (.slot 1)) 50,
      .add (some (.slot 0)), .add (some (.slot 1)), .yield] by decide +kernel, rfl⟩
  refine ⟨_, hrun, by decide +kernel, (real_time_first_iff hrun).1.mpr ?_⟩
  intro p hb
  have hp : p = .slot 0 := Option.some.inj (hb.1.symm.trans (by decide +kernel))
  rw [hp]
  exact ⟨some (.slot 1), by decide +kernel, by decide +kernel⟩

/-- A round-robin process that yields is replaced by a normal process. -/
theorem normal_before_real_time : ∃ s, Run (guarded UnqueuedPriority Sched.exec) Sched.start
      [.alloc, .alloc, .setPriority (some (.slot 0)) 50, .add (some (.slot 0)),
        .add (some (.slot 1)), .yield] s ∧
    s.cpu.current = some (.slot 0) ∧ (schedYield s).cpu.current = some (.slot 1) ∧
    ((schedYield s).procs (.slot 1)).policy = .normal ∧ ¬ RealTimeFirst s (schedYield s) := by
  have hrun := run_guarded_iff.mpr ⟨show Admissible UnqueuedPriority Sched.exec Sched.start
    [.alloc, .alloc, .setPriority (some (.slot 0)) 50, .add (some (.slot 0)),
      .add (some (.slot 1)), .yield] by decide +kernel, rfl⟩
  refine ⟨_, hrun, by decide +kernel, by decide +kernel, by decide +kernel, ?_⟩
  intro hfirst
  obtain ⟨p, hc, hpol, _⟩ := hfirst (by decide +kernel) (by decide +kernel)
  have hp : p = .slot 1 := Option.some.inj (hc.symm.trans (by decide +kernel))
  rw [hp] at hpol
  exact absurd hpol (by decide +kernel)

/-- The priority `v` fits at cell `i` of the real-time queue among the processes other than `p`:
those in front are at least as urgent, and those behind are at most as urgent. -/
def Sched.FitsAt (s : Sched) (p : ProcRef) (v : Int) (i : Nat) : Prop :=
  ∀ j < s.rtQueue.size, s.rtQueue.queue j ≠ some p →
    (j < i → s.prio (s.rtQueue.queue j) ≤ v) ∧ (i < j → v ≤ s.prio (s.rtQueue.queue j))

/-- The new priority `v` of `p` fits wherever `p` stands in the real-time queue. -/
def Sched.PriorityFits (s : Sched) (p : ProcRef) (v : Int) : Prop :=
  ∀ i < s.rtQueue.size, s.rtQueue.queue i = some p → s.FitsAt p v i

/-- Each `sched_set_priority` fits into the real-time queue. -/
def FittingPriority (s : Sched) : SchedCall → Prop
  | .setPriority (some p) v => s.PriorityFits p (clampPriority v)
  | .free _ => False
  | _ => True

instance FitsAt.decidable (s : Sched) (p : ProcRef) (v : Int) (i : Nat) :
    Decidable (s.FitsAt p v i) :=
  inferInstanceAs (Decidable (∀ j < s.rtQueue.size, s.rtQueue.queue j ≠ some p →
    (j < i → s.prio (s.rtQueue.queue j) ≤ v) ∧ (i < j → v ≤ s.prio (s.rtQueue.queue j))))

instance PriorityFits.decidable (s : Sched) (p : ProcRef) (v : Int) :
    Decidable (s.PriorityFits p v) :=
  inferInstanceAs (Decidable (∀ i < s.rtQueue.size, s.rtQueue.queue i = some p → s.FitsAt p v i))

instance FittingPriority.decidable (s : Sched) : (c : SchedCall) → Decidable (FittingPriority s c)
  | .setPriority (some p) v => inferInstanceAs (Decidable (s.PriorityFits p (clampPriority v)))
  | .free _ => inferInstanceAs (Decidable False)
  | .setPriority none _ | .alloc | .add _ | .yield | .tick | .tickHead | .tickTail
  | .setPolicy _ _ => inferInstanceAs (Decidable True)

section Order

variable {s t : Sched} {p : ProcRef}

theorem rtSorted_iff : RtSorted s ↔ ∀ i j, i < j → j < s.rtQueue.size →
    s.prio (s.rtQueue.queue i) ≤ s.prio (s.rtQueue.queue j) :=
  listing_pairwise

theorem schedSetPriority_prio (p : ProcRef) (v : Int) (x : ProcPtr) :
    (schedSetPriority s (some p) v).prio x =
      if x = some p then clampPriority v else s.prio x := by
  cases x with
  | none => rfl
  | some q =>
    by_cases hq : q = p
    · subst hq
      simp [Sched.prio, (schedSetPriority_procs q v).2.1]
    · simp [Sched.prio, (schedSetPriority_rewrites p v).others q hq, hq]

/-- A new priority keeps the queue sorted exactly when it fits. -/
theorem rtSorted_setPriority_iff (h : RtSorted s) (p : ProcRef) (v : Int) :
    RtSorted (schedSetPriority s (some p) v) ↔ s.PriorityFits p (clampPriority v) := by
  rw [rtSorted_iff] at h
  rw [rtSorted_iff, (schedSetPriority_rewrites p v).rtQueue]
  simp only [schedSetPriority_prio]
  constructor
  · intro ht i hi hp j hj hne
    constructor
    · intro hji
      simpa [hp, hne] using ht j i hji hi
    · intro hij
      simpa [hp, hne] using ht i j hij hj
  · intro hfit i j hij hj
    by_cases hi : s.rtQueue.queue i = some p
    · by_cases hjp : s.rtQueue.queue j = some p
      · simp [hi, hjp]
      · simpa [hi, hjp] using (hfit i (by omega) hi j hj hjp).2 hij
    · by_cases hjp : s.rtQueue.queue j = some p
      · simpa [hi, hjp] using (hfit j hj hjp i (by omega) hi).1 hij
      · simpa [hi, hjp] using h i j hij hj

/-- The queues are in use and the real-time queue is sorted. -/
structure Ordered (s : Sched) : Prop where
  serving : Serving s
  sorted : RtSorted s

theorem Ordered.exec {c : SchedCall} (h : Ordered s) (hok : FittingPriority s c) :
    Ordered (s.exec c) := by
  have hc (p : ProcPtr) : c ≠ .free p := by
    intro he
    rw [he] at hok
    exact hok
  refine ⟨h.serving.exec hc, ?_⟩
  have hticks := tick_invariant (I := Ordered)
    (fun _ _ hs hq => ⟨hs.serving.quiet hq, hs.sorted.quiet hq⟩)
    (fun _ _ hs _ _ => ⟨hs.serving.yield, hs.sorted.yield hs.serving.ok hs.serving.idle⟩)
    (fun _ hs => ⟨hs.serving.aging, hs.sorted.aging hs.serving.ok⟩) h
  cases c with
  | alloc =>
    rcases processAlloc_case s with he | ⟨i, hi, hr, _, _⟩
    · simp only [Sched.exec, he]
      exact h.sorted
    · exact h.sorted.rewrites hr fun hm => h.serving.live _ (mem_queued.mpr (.inl hm)) hi
  | free p => exact absurd rfl (hc p)
  | add x => exact h.sorted.add x
  | yield => exact h.sorted.yield h.serving.ok h.serving.idle
  | tick => exact hticks.2.2.sorted
  | tickHead => exact hticks.1.sorted
  | tickTail => exact hticks.2.1.sorted
  | setPriority x v =>
    cases x with
    | none => exact h.sorted
    | some p => exact (rtSorted_setPriority_iff h.sorted p v).mpr hok
  | setPolicy x policy =>
    cases x with
    | none => exact h.sorted
    | some p =>
      rw [rtSorted_iff]
      have hprio : (s.exec (.setPolicy (some p) policy)).prio = s.prio := by
        funext y
        cases y with
        | none => rfl
        | some q => by_cases hq : q = p <;> simp [Sched.exec, schedSetPolicy, Sched.prio, modify_procs, hq]
      rw [hprio]
      exact rtSorted_iff.mp h.sorted

/-- What `sched_next` takes from the real-time queue is as urgent as anything in it. -/
theorem Ordered.next_minimal (h : Ordered s) (hs : s.rtQueue.size > 0) :
    ∃ p, (schedNext s).1 = some p ∧
      ∀ i < s.rtQueue.size, s.prio (some p) ≤ s.prio (s.rtQueue.queue i) := by
  obtain ⟨p, hp, hl⟩ := dequeue_rt h.serving.ok hs
  refine ⟨p, by simp only [schedNext, if_pos hs, hp], ?_⟩
  have h0 : s.rtQueue.queue 0 = some p := by
    have hne : s.rtQueue.size ≠ 0 := by omega
    simpa [rtDequeue, hne] using hp
  intro i hi
  rw [← h0]
  by_cases hz : i = 0
  · rw [hz]
  · exact rtSorted_iff.mp h.sorted 0 i (by omega) hi

end Order

/-- In every run whose new priorities fit, the real-time queue is in the order of the
priorities and `sched_next` takes one of the most urgent processes from it; a new priority
that does not fit puts it out of order. -/
theorem real_time_queue_sorted {calls : List SchedCall} {s : Sched}
    (h : Run (guarded FittingPriority Sched.exec) Sched.start calls s) :
    (∀ i j, i < j → j < s.rtQueue.size →
      s.prio (s.rtQueue.queue i) ≤ s.prio (s.rtQueue.queue j)) ∧
    (s.rtQueue.size > 0 → ∃ p, (schedNext s).1 = some p ∧
      ∀ i < s.rtQueue.size, s.prio (some p) ≤ s.prio (s.rtQueue.queue i)) ∧
    ∀ p v, RtSorted (schedSetPriority s (some p) v) ↔ s.PriorityFits p (clampPriority v) := by
  have hs : Ordered s := by
    refine h.guarded_invariant Ordered ?_ ⟨Serving.start, RtSorted.start⟩
    intro s c hs hok
    exact hs.exec hok
  exact ⟨rtSorted_iff.mp hs.sorted, hs.next_minimal, rtSorted_setPriority_iff hs.sorted⟩

/-- The head of the queue becomes less urgent, but not less than the process behind it. -/
theorem real_time_queue_sorted_two : ∃ s, Run (guarded FittingPriority Sched.exec) Sched.start
      [.alloc, .alloc, .setPriority (some (.slot 0)) 10, .setPriority (some (.slot 1)) 20,
        .add (some (.slot 0)), .add (some (.slot 1)), .setPriority (some (.slot 0)) 15] s ∧
    s.prio (s.rtQueue.queue 0) ≤ s.prio (s.rtQueue.queue 1) := by
  have hrun := run_guarded_iff.mpr ⟨show Admissible FittingPriority Sched.exec Sched.start
    [.alloc, .alloc, .setPriority (some (.slot 0)) 10, .setPriority (some (.slot 1)) 20,
      .add (some (.slot 0)), .add (some (.slot 1)), .setPriority (some (.slot 0)) 15]
    by decide +kernel, rfl⟩
  exact ⟨_, hrun, (real_time_queue_sorted hrun).1 0 1 (by decide) (by decide +kernel)⟩

/-- The head of the queue becomes less urgent than the process behind it, and is taken all
the same. -/
theorem real_time_queue_unsorted : ∃ s, Run (guarded (fun _ _ => True) Sched.exec) Sched.start
      [.alloc, .alloc, .setPriority (some (.slot 0)) 10, .setPriority (some (.slot 1)) 20,
        .add (some (.slot 0)), .add (some (.slot 1)), .setPriority (some (.slot 0)) 30] s ∧
    s.rt = [some (.slot 0), some (.slot 1)] ∧ ¬ RtSorted s ∧
    (schedNext s).1 = some (.slot 0) ∧ s.prio (some (.slot 1)) < s.prio (some (.slot 0)) := by
  refine ⟨_, run_unguarded _ _, by decide +kernel, ?_, by decide +kernel, by decide +kernel⟩
  intro hs
  exact absurd (rtSorted_iff.mp hs 0 1 (by decide) (by decide +kernel)) (by decide +kernel)

end RiscvOs.Scheduler
