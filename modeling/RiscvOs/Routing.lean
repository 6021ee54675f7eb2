import RiscvOs.SchedulerCalls
set_option autoImplicit false

/-!
Which queue holds which process: the real-time queue holds real-time processes in the
order of their priorities, the levels hold normal processes, and all of them are in use.
-/

namespace RiscvOs.Scheduler
open WordMemory Queues Runs

section Membership

variable {s t : Sched} {p : ProcRef} {x y : ProcPtr}

theorem NextCase.rt_suffix (h : NextCase s x t) : t.rt <:+ s.rt := by
  cases h with
  | realTime hrt => exact hrt ▸ List.suffix_cons _ _
  | normal _ hrt hrt' => rw [hrt, hrt']
  | idle _ _ ht => rw [ht]

theorem NextCase.mem_level (h : NextCase s x t) {k : Fin 4} (hy : y ∈ t.level k) :
    y ∈ s.level k := by
  cases h with
  | realTime _ hlevel => rwa [hlevel] at hy
  | normal l _ _ _ hlevel =>
    rw [hlevel]
    by_cases hk : k = l
    · subst hk
      rw [Function.update_self]
      exact List.mem_cons_of_mem _ hy
    · rwa [Function.update_of_ne hk]
  | idle _ _ ht => rwa [ht] at hy

theorem Aged.mem_level (h : Aged s t) {k : Fin 4} (hy : y ∈ t.level k) : ∃ l, y ∈ s.level l := by
  by_cases hk : k = 0
  · rw [hk, h.top] at hy
    rcases List.mem_append.mp (List.mem_of_mem_take hy) with hy | hy
    · exact ⟨0, hy⟩
    · have hm := (List.mem_filter.mp hy).1
      rcases List.mem_append.mp hm with hm | hm
      · exact ⟨1, hm⟩
      · rcases List.mem_append.mp hm with hm | hm
        · exact ⟨2, hm⟩
        · exact ⟨3, hm⟩
  · rw [h.lower k hk] at hy
    cases hy

end Membership

/-- Every queued process has the policy its queue is for. -/
structure Routed (s : Sched) : Prop where
  rt : ∀ p, some p ∈ s.rt → (s.procs p).policy = .fifo ∨ (s.procs p).policy = .rr
  level : ∀ l p, some p ∈ s.level l → (s.procs p).policy = .normal

section Routed

variable {s t : Sched} {p : ProcRef} {x : ProcPtr}

theorem Routed.lower_normal (h : Routed s) (hok : QueuesOk s)
    (hx : x ∈ s.level 1 ++ (s.level 2 ++ s.level 3)) : s.isNormal x = true := by
  have hm : x ∈ allLevels s.level := by
    rw [allLevels_eq]
    exact List.mem_append_right _ hx
  cases x with
  | none => exact absurd (List.mem_append_right _ hm) hok.noNull
  | some p =>
    obtain ⟨l, hl⟩ := mem_allLevels.mp hm
    exact decide_eq_true (h.level l p hl)

theorem Routed.start : Routed Sched.start := by
  refine ⟨?_, ?_⟩
  · intro p hp
    simp [start_rt] at hp
  · intro l p hp
    simp [start_level] at hp

/-- The entries of `t` are entries of `s` of the same kind. -/
theorem Routed.of_subset (h : Routed s) (hc : SameClass s t) (hrt : ∀ x ∈ t.rt, x ∈ s.rt)
    (hl : ∀ k, ∀ x ∈ t.level k, ∃ l, x ∈ s.level l) : Routed t := by
  refine ⟨?_, ?_⟩
  · intro p hp
    rw [(hc p).1]
    exact h.rt p (hrt _ hp)
  · intro k p hp
    rw [(hc p).1]
    obtain ⟨l, hm⟩ := hl k _ hp
    exact h.level l p hm

theorem Routed.quiet (h : Routed s) (hq : Quiet s t) : Routed t := by
  refine h.of_subset hq.sameClass ?_ ?_
  · rw [hq.rt]
    exact fun x hx => hx
  · rw [hq.level]
    exact fun k x hx => ⟨k, hx⟩

theorem Routed.rewrites (h : Routed s) (hr : Rewrites p s t) (hp : some p ∉ s.queued) :
    Routed t := by
  refine ⟨?_, ?_⟩
  · intro q hq
    rw [hr.rt] at hq
    have hne : q ≠ p := fun he => hp (mem_queued.mpr (.inl (he ▸ hq)))
    rw [hr.others q hne]
    exact h.rt q hq
  · intro l q hq
    rw [hr.level] at hq
    have hne : q ≠ p := fun he => hp (mem_queued.mpr (.inr ⟨l, he ▸ hq⟩))
    rw [hr.others q hne]
    exact h.level l q hq

theorem mem_schedAdd_rt (hx : x ∈ (schedAdd s (some p)).rt) :
    x ∈ s.rt ∨ x = some p ∧ ((s.procs p).policy = .fifo ∨ (s.procs p).policy = .rr) := by
  rw [schedAdd_rt] at hx
  split at hx
  · rename_i hp
    rcases List.mem_cons.mp ((insertAfter_perm _ _ _).mem_iff.mp hx) with he | hx
    · exact .inr ⟨he, hp.1⟩
    · exact .inl hx
  · exact .inl hx

theorem Routed.add (h : Routed s) (hok : QueuesOk s) (x : ProcPtr) : Routed (schedAdd s x) := by
  cases x with
  | none => exact h
  | some p =>
    have hc := schedAdd_class (s := s) (some p)
    refine ⟨?_, ?_⟩
    · intro q hq
      rw [(hc q).1]
      rcases mem_schedAdd_rt hq with hq | ⟨he, hp⟩
      · exact h.rt q hq
      · cases he
        exact hp
    · intro l q hq
      rw [(hc q).1]
      rcases mem_schedAdd_level hok hq with hq | ⟨he, hp, _⟩
      · exact h.level l q hq
      · cases he
        exact hp

theorem Routed.yield (h : Routed s) (hok : QueuesOk s) (hidle : s.cpu.idle = some .idle) :
    Routed (schedYield s) := by
  refine yield_invariant (fun s t hs hq => hs.quiet hq) ?_ (fun s p hok hs => hs.add hok _) ?_ ?_
    hok hidle h
  · intro s p hs
    exact hs.of_subset (.modify rfl rfl) (fun x hx => hx) (fun k x hx => ⟨k, hx⟩)
  · intro s x t hs hnext hprocs
    exact hs.of_subset hprocs.sameClass (fun _ hx => hnext.rt_suffix.subset hx)
      (fun k _ hx => ⟨k, hnext.mem_level hx⟩)
  · intro s p hs
    exact hs.of_subset switchIn_class (fun x hx => hx) (fun k x hx => ⟨k, hx⟩)

theorem Routed.aging (h : Routed s) (hok : QueuesOk s) : Routed (agingPass s) := by
  have ha := agingPass_aged hok
  refine h.of_subset ha.procs.sameClass ?_ (fun k x hx => ha.mem_level hx)
  rw [ha.rt]
  exact fun x hx => hx

end Routed

/-- The real-time queue is in the order of the priorities its processes have now. -/
def RtSorted (s : Sched) : Prop := s.rt.Pairwise fun a b => s.prio a ≤ s.prio b

section Sorted

variable {s t : Sched} {p : ProcRef} {x : ProcPtr}

theorem RtSorted.start : RtSorted Sched.start := by
  rw [RtSorted, start_rt]
  exact List.Pairwise.nil

theorem RtSorted.of_sublist (h : RtSorted s) (hc : SameClass s t) (hrt : t.rt.Sublist s.rt) :
    RtSorted t := by
  rw [RtSorted, hc.prio]
  exact h.sublist hrt

theorem RtSorted.quiet (h : RtSorted s) (hq : Quiet s t) : RtSorted t :=
  h.of_sublist hq.sameClass (hq.rt ▸ List.Sublist.refl _)

theorem RtSorted.rewrites (h : RtSorted s) (hr : Rewrites p s t) (hp : some p ∉ s.rt) :
    RtSorted t := by
  rw [RtSorted, hr.rt]
  refine h.imp_of_mem ?_
  intro a b ha hb hab
  have hprio (y : ProcPtr) (hy : y ∈ s.rt) : t.prio y = s.prio y := by
    cases y with
    | none => rfl
    | some q =>
      have hne : q ≠ p := fun he => hp (he ▸ hy)
      simp only [Sched.prio, hr.others q hne]
  rwa [hprio a ha, hprio b hb]

theorem RtSorted.add (h : RtSorted s) (x : ProcPtr) : RtSorted (schedAdd s x) := by
  cases x with
  | none => exact h
  | some p =>
    rw [RtSorted, (schedAdd_class (some p)).prio, schedAdd_rt]
    split
    · exact insertAfter_sorted s.prio _ h
    · exact h

theorem RtSorted.yield (h : RtSorted s) (hok : QueuesOk s) (hidle : s.cpu.idle = some .idle) :
    RtSorted (schedYield s) := by
  refine yield_invariant (fun s t hs hq => hs.quiet hq) ?_ (fun s p _ hs => hs.add _) ?_ ?_
    hok hidle h
  · intro s p hs
    exact hs.of_sublist (.modify rfl rfl) (List.Sublist.refl _)
  · intro s x t hs hnext hprocs
    exact hs.of_sublist hprocs.sameClass hnext.rt_suffix.sublist
  · intro s p hs
    exact hs.of_sublist switchIn_class (List.Sublist.refl _)

theorem RtSorted.aging (h : RtSorted s) (hok : QueuesOk s) : RtSorted (agingPass s) := by
  have ha := agingPass_aged hok
  exact h.of_sublist ha.procs.sameClass (ha.rt ▸ List.Sublist.refl _)

end Sorted

/-- Every queued process is in use. -/
def Live (s : Sched) : Prop := ∀ p, some p ∈ s.queued → (s.procs p).state ≠ .unused

section Live

variable {s t : Sched} {p : ProcRef}

/-- The queues of `t` hold `p` and processes of the queues of `s`, and only `p` has another
state. -/
theorem Live.of_state (h : Live s) (hq : ∀ q, q ≠ p → some q ∈ t.queued → some q ∈ s.queued)
    (hp : (t.procs p).state ≠ .unused)
    (hst : ∀ q, q ≠ p → (t.procs q).state = (s.procs q).state) : Live t := by
  intro q hm
  by_cases he : q = p
  · rwa [he]
  · rw [hst q he]
    exact h q (hq q he hm)

theorem Live.quiet (h : Live s) (hq : Quiet s t) : Live t := by
  intro p hp
  rw [hq.state]
  exact h p (hq.queued ▸ hp)

theorem Live.add (h : Live s) (hok : QueuesOk s) (x : ProcPtr) : Live (schedAdd s x) := by
  cases x with
  | none => exact h
  | some p =>
    refine h.of_state (p := p) ?_ (by simp [schedAdd_state]) (fun q he => by simp [schedAdd_state, he])
    intro q he hm
    exact (mem_schedAdd hok hm).resolve_left (fun hp => he (Option.some.inj hp))

theorem Live.yield (h : Live s) (hok : QueuesOk s) (hidle : s.cpu.idle = some .idle) :
    Live (schedYield s) := by
  refine yield_invariant (I := Live) (fun s t hs hq => hs.quiet hq) ?_
    (fun s p hok hs => hs.add hok _) ?_ ?_ hok hidle h
  · intro s p hs
    exact hs.of_state (p := p) (fun q _ hm => hm) (by simp) (fun q he => by simp [modify_procs, he])
  · intro s x t hs hnext hprocs p hp
    rw [hprocs.state]
    exact hs p (hnext.mem_queued hp)
  · intro s p hs
    exact hs.of_state (p := p) (fun q _ hm => hm) (by simp [switchIn_state])
      (fun q he => by simp [switchIn_state, he])

theorem Live.aging (h : Live s) (hok : QueuesOk s) : Live (agingPass s) := by
  have ha := agingPass_aged hok
  intro p hp
  rw [ha.procs.state]
  exact h p (ha.sublist.subset hp)

end Live

/-- What every call but `process_free` keeps. -/
structure Serving (s : Sched) : Prop where
  ok : QueuesOk s
  idle : s.cpu.idle = some .idle
  live : Live s

section Serving

variable {s t : Sched} {p : ProcRef}

theorem Serving.start : Serving Sched.start := by
  refine ⟨start_ok, rfl, ?_⟩
  intro p hp
  simp [start_queued] at hp

theorem Serving.quiet (h : Serving s) (hq : Quiet s t) : Serving t :=
  ⟨hq.ok h.ok, hq.idle.trans h.idle, h.live.quiet hq⟩

theorem Serving.add (h : Serving s) (x : ProcPtr) : Serving (schedAdd s x) :=
  ⟨schedAdd_ok h.ok x, by rw [schedAdd_cpu, h.idle], h.live.add h.ok x⟩

theorem Serving.yield (h : Serving s) : Serving (schedYield s) :=
  ⟨schedYield_ok h.ok h.idle, schedYield_idle h.ok h.idle, h.live.yield h.ok h.idle⟩

theorem Serving.aging (h : Serving s) : Serving (agingPass s) := by
  have ha := agingPass_aged h.ok
  exact ⟨ha.ok, by rw [ha.procs.cpu, h.idle], h.live.aging h.ok⟩

theorem Serving.rewrites (h : Serving s) (hr : Rewrites p s t)
    (hp : some p ∈ s.queued → (t.procs p).state ≠ .unused) : Serving t := by
  refine ⟨hr.ok h.ok, by rw [hr.cpu, h.idle], ?_⟩
  intro q hq
  rw [hr.queued] at hq
  by_cases he : q = p
  · subst he
    exact hp hq
  · rw [hr.others q he]
    exact h.live q hq

theorem Serving.exec {c : SchedCall} (h : Serving s) (hc : ∀ p, c ≠ .free p) :
    Serving (s.exec c) := by
  have hticks := tick_invariant (I := Serving) (fun _ _ hs hq => hs.quiet hq)
    (fun _ _ hs _ _ => hs.yield) (fun _ hs => hs.aging) h
  cases c with
  | alloc =>
    rcases processAlloc_case s with he | ⟨i, _, hr, _, hp⟩
    · simp only [Sched.exec, he]
      exact h
    · refine h.rewrites hr ?_
      simp [Sched.exec, hp, Process.alloc]
  | free p => exact absurd rfl (hc p)
  | add x => exact h.add x
  | yield => exact h.yield
  | tick => exact hticks.2.2
  | tickHead => exact hticks.1
  | tickTail => exact hticks.2.1
  | setPriority x v =>
    cases x with
    | none => exact h
    | some p =>
      refine h.rewrites (schedSetPriority_rewrites p v) ?_
      rw [Sched.exec, (schedSetPriority_procs p v).1]
      exact h.live p
  | setPolicy x policy =>
    cases x with
    | none => exact h
    | some p =>
      refine h.rewrites (schedSetPolicy_rewrites p policy) ?_
      simpa [Sched.exec, schedSetPolicy] using h.live p

end Serving

/-- The processes of the table have policies of `P`, the idle process has its own, and the
queues are routed and sorted by them. -/
structure Classed (P : SchedPolicy → Prop) (s : Sched) : Prop where
  serving : Serving s
  routed : Routed s
  sorted : RtSorted s
  table : ∀ i, P (s.procs (.slot i)).policy
  idlePolicy : (s.procs .idle).policy = .idle

section Classed

variable {P : SchedPolicy → Prop} {s t : Sched} {p : ProcRef}

theorem Classed.start (hP : P .normal) : Classed P Sched.start :=
  ⟨Serving.start, Routed.start, RtSorted.start, fun _ => hP, rfl⟩

theorem Classed.of_class (h : Classed P s) (hc : SameClass s t) (hserving : Serving t)
    (hrouted : Routed t) (hsorted : RtSorted t) : Classed P t := by
  refine ⟨hserving, hrouted, hsorted, ?_, ?_⟩
  · intro i
    rw [(hc _).1]
    exact h.table i
  · rw [(hc _).1]
    exact h.idlePolicy

theorem Classed.quiet (h : Classed P s) (hq : Quiet s t) : Classed P t :=
  h.of_class hq.sameClass (h.serving.quiet hq) (h.routed.quiet hq) (h.sorted.quiet hq)

theorem Classed.add (h : Classed P s) (x : ProcPtr) : Classed P (schedAdd s x) :=
  h.of_class (schedAdd_class x) (h.serving.add x) (h.routed.add h.serving.ok x) (h.sorted.add x)

theorem Classed.yield (h : Classed P s) : Classed P (schedYield s) := by
  have hok := h.serving.ok
  have hidle := h.serving.idle
  exact h.of_class (schedYield_class hok hidle) h.serving.yield (h.routed.yield hok hidle)
    (h.sorted.yield hok hidle)

theorem Classed.aging (h : Classed P s) : Classed P (agingPass s) := by
  have hok := h.serving.ok
  exact h.of_class (agingPass_aged hok).procs.sameClass h.serving.aging (h.routed.aging hok)
    (h.sorted.aging hok)

theorem Classed.ticks (h : Classed P s) :
    Classed P (tickHead s) ∧ Classed P (tickTail s) ∧ Classed P (schedTick s) :=
  tick_invariant (I := Classed P) (fun _ _ hs hq => hs.quiet hq) (fun _ _ hs _ _ => hs.yield)
    (fun _ hs => hs.aging) h

/-- A process of the table that is not queued gets another value. -/
theorem Classed.rewrites (h : Classed P s) (hr : Rewrites p s t) (hp : p ≠ .idle)
    (hq : some p ∉ s.queued) (hpol : P (t.procs p).policy) : Classed P t := by
  have hrt : some p ∉ s.rt := fun hm => hq (mem_queued.mpr (.inl hm))
  refine ⟨h.serving.rewrites hr (fun hm => absurd hm hq), h.routed.rewrites hr hq, h.sorted.rewrites hr hrt, ?_, ?_⟩
  · intro i
    by_cases hi : .slot i = p
    · rwa [hi]
    · rw [hr.others _ hi]
      exact h.table i
  · rw [hr.others _ hp.symm]
    exact h.idlePolicy

theorem Classed.alloc (h : Classed P s) (hP : P .normal) : Classed P (processAlloc s).2 := by
  rcases processAlloc_case s with he | ⟨i, hi, hr, _, hp⟩
  · rwa [he]
  · refine h.rewrites hr (by simp) (fun hm => h.serving.live _ hm hi) ?_
    rw [hp]
    exact hP

theorem Classed.idle_unqueued (h : Classed P s) : some .idle ∉ s.queued := by
  intro hm
  have hpol := h.idlePolicy
  rcases mem_queued.mp hm with hm | ⟨l, hm⟩
  · rcases h.routed.rt _ hm with hp | hp <;> simp [hp] at hpol
  · simp [h.routed.level l _ hm] at hpol

end Classed

end RiscvOs.Scheduler
