import RiscvOs.Accounting
import RiscvOs.AgingOrder
import RiscvOs.DispatchOrder
import RiscvOs.LastPriority
import RiscvOs.Refills
set_option autoImplicit false

/-!
The turn of a normal process: it gets the slice of the level it was taken from, keeps the CPU
for so many ticks, and goes one level down with the last of them.
-/

namespace RiscvOs.Scheduler
open WordMemory Queues Runs

/-- The level below, if there is one. -/
def levelBelow (l : Fin 4) : Fin 4 := ⟨min (l.val + 1) 3, by omega⟩

/-- Processes that are queued or current are not added, and those that are queued keep their
priority and policy. Unlike in `OrderOk`, also the idle process may get another policy. -/
def TurnOk (s : Sched) : SchedCall → Prop
  | .free _ => False
  | .add x => x = none ∨ x ∉ s.queued ∧ x ≠ s.cpu.current
  | .setPriority x _ | .setPolicy x _ => x ∉ s.queued
  | .alloc | .yield | .tick | .tickHead | .tickTail => True

instance TurnOk.decidable (s : Sched) : (c : SchedCall) → Decidable (TurnOk s c)
  | .free _ => inferInstanceAs (Decidable False)
  | .add _ => inferInstanceAs (Decidable (_ ∨ _))
  | .setPriority _ _ | .setPolicy _ _ => inferInstanceAs (Decidable (¬ _))
  | .alloc | .yield | .tick | .tickHead | .tickTail => inferInstanceAs (Decidable True)

section Graded

/-- Every `queue_level` is one of the four, and a queued process has that of its queue. -/
structure LevelsOk (s : Sched) : Prop where
  bounds : ∀ q, 0 ≤ (s.procs q).queueLevel ∧ (s.procs q).queueLevel ≤ 3
  placed : ∀ l q, some q ∈ s.level l → (s.procs q).queueLevel = l.val

/-- The processes wait in the queues of their policy and level, each in one of them. -/
structure Graded (s : Sched) : Prop extends LevelsOk s where
  serving : Serving s
  routed : Routed s
  once : Once s

variable {s t : Sched} {p : ProcRef}

theorem Graded.ok (h : Graded s) : QueuesOk s := h.serving.ok

theorem clampLevel_val {n : Int} (h : 0 ≤ n ∧ n ≤ 3) : ((clampLevel n).val : Int) = n := by
  obtain ⟨k, rfl⟩ := Int.eq_ofNat_of_zero_le h.1
  have hk : k < 4 := by omega
  have hlow : ¬ ((k : Int) < 0) := by omega
  have hhigh : ¬ ((k : Int) ≥ numQueueLevels) := by
    simp only [numQueueLevels]
    omega
  rw [clampLevel, if_neg hlow, if_neg hhigh]
  simp [Fin.ofNat, Nat.mod_eq_of_lt hk]

/-- The levels hold no new processes, and every process keeps its `queue_level`. -/
theorem LevelsOk.of_same (h : LevelsOk s) (hlevel : ∀ l x, x ∈ t.level l → x ∈ s.level l)
    (hsame : ∀ q, (t.procs q).queueLevel = (s.procs q).queueLevel) : LevelsOk t := by
  refine ⟨?_, ?_⟩
  · intro q
    rw [hsame]
    exact h.bounds q
  · intro l q hq
    rw [hsame]
    exact h.placed l q (hlevel l _ hq)

theorem LevelsOk.rewrites (h : LevelsOk s) (hr : Rewrites p s t) (hq : some p ∉ s.queued)
    (hp : 0 ≤ (t.procs p).queueLevel ∧ (t.procs p).queueLevel ≤ 3) : LevelsOk t := by
  refine ⟨?_, ?_⟩
  · intro q
    by_cases hqp : q = p
    · rw [hqp]
      exact hp
    · rw [hr.others q hqp]
      exact h.bounds q
  · intro l q hm
    rw [hr.level] at hm
    have hqp : q ≠ p := by
      rintro rfl
      exact hq (mem_queued.mpr (.inr ⟨l, hm⟩))
    rw [hr.others q hqp]
    exact h.placed l q hm

theorem LevelsOk.add (h : LevelsOk s) (hok : QueuesOk s) (x : ProcPtr) : LevelsOk (schedAdd s x) := by
  cases x with
  | none => exact h
  | some p =>
    refine ⟨?_, ?_⟩
    · intro q
      rw [(schedAdd_fields p q).1]
      exact h.bounds q
    · intro l q hq
      rw [(schedAdd_fields p q).1]
      rcases mem_schedAdd_level hok hq with hm | ⟨he, _, rfl⟩
      · exact h.placed l q hm
      · cases he
        exact (clampLevel_val (h.bounds p)).symm

theorem LevelsOk.aging (h : LevelsOk s) (hok : QueuesOk s) : LevelsOk (agingPass s) := by
  have haged := agingPass_aged hok
  have hlift := (agingPass_lifts hok).1
  refine ⟨?_, ?_⟩
  · intro q
    rcases hlift q with he | he
    · rw [he]
      exact h.bounds q
    · rw [he]
      simp [Process.boost]
  · intro l q hq
    by_cases hl : l = 0
    · subst hl
      rw [haged.top] at hq
      rcases List.mem_append.mp (List.mem_of_mem_take hq) with hq | hq
      · exact hlift.level_zero (by simpa using h.placed 0 q hq)
      · obtain ⟨hm, hnorm⟩ := List.mem_filter.mp hq
        have hpol : (s.procs q).policy = .normal := of_decide_eq_true hnorm
        rw [agingPass_procs hok, if_pos ⟨hm, hpol⟩]
        rfl
    · rw [haged.lower l hl] at hq
      cases hq

theorem schedNext_queueLevel (h : QueuesOk s) (q : ProcRef) :
    ((schedNext s).2.procs q).queueLevel = (s.procs q).queueLevel := by
  cases schedNext_fillCase h with
  | kept _ hprocs => rw [hprocs]
  | filled l r _ _ hprocs =>
    rw [hprocs]
    by_cases hq : q = r
    · subst hq
      rw [Function.update_self]
      rfl
    · rw [Function.update_of_ne hq]
  | idle _ _ hprocs => rw [hprocs]

theorem demote_bounds {x : Process} (h : 0 ≤ x.queueLevel ∧ x.queueLevel ≤ 3) :
    0 ≤ x.demote.queueLevel ∧ x.demote.queueLevel ≤ 3 := by
  unfold Process.demote
  split
  · next hlow =>
    simp only [numQueueLevels] at hlow
    simp only
    omega
  · exact h

/-- A process that leaves the CPU is rewritten, and then queued or not. -/
theorem requeue_form (hb : 0 ≤ (s.procs p).queueLevel ∧ (s.procs p).queueLevel ≤ 3) :
    ∃ f : Process → Process, (0 ≤ (f (s.procs p)).queueLevel ∧ (f (s.procs p)).queueLevel ≤ 3) ∧
      (requeue s p = s.modify p f ∨ requeue s p = schedAdd (s.modify p f) (some p)) := by
  have hmodify (f g : Process → Process) : (s.modify p f).modify p g = s.modify p fun x => g (f x) := by
    simp [Sched.modify]
  by_cases hidle : some p = s.cpu.idle
  · refine ⟨fun x => x.countSwitch.setState .runnable, hb, .inl ?_⟩
    rw [← hmodify]
    exact if_pos hidle
  · cases hpol : (s.procs p).policy with
    | normal =>
      exact ⟨fun x => x.countSwitch.demote, demote_bounds hb, .inr (requeue_normal hidle hpol)⟩
    | rr =>
      refine ⟨Process.countSwitch, hb, .inr ?_⟩
      simp [requeue, hidle, hpol, Process.countSwitch, schedAdd_setState]
    | fifo =>
      refine ⟨Process.countSwitch, hb, .inl ?_⟩
      simp [requeue, hidle, hpol, Process.countSwitch]
    | idle =>
      refine ⟨Process.countSwitch, hb, .inl ?_⟩
      simp [requeue, hidle, hpol, Process.countSwitch]

theorem LevelsOk.switchOut (h : LevelsOk s) (hok : QueuesOk s) {x : ProcPtr} (hx : x ∉ s.queued) :
    LevelsOk (switchOut s x) := by
  cases x with
  | none => exact h
  | some p =>
    simp only [Scheduler.switchOut]
    split
    · obtain ⟨f, hf, he⟩ := requeue_form (h.bounds p)
      have hmodify : LevelsOk (s.modify p f) := h.rewrites (modify_rewrites f) hx (by rwa [modify_self])
      rcases he with he | he
      · rw [he]
        exact hmodify
      · rw [he]
        exact hmodify.add (hok.modify p f) (some p)
    · exact h

theorem Graded.yield (h : Graded s) : Graded (schedYield s) := by
  obtain ⟨p, hn⟩ := h.serving.next_some
  have hcase := schedNext_case h.ok
  have hnext : LevelsOk (schedNext s).2 :=
    h.toLevelsOk.of_same (fun _ _ hx => hcase.mem_level hx) (schedNext_queueLevel h.ok)
  refine ⟨?_, h.serving.yield, h.routed.yield h.ok h.serving.idle, h.once.yield h.ok h.serving.idle⟩
  by_cases hc : s.cpu.current = some p
  · have hsame : schedYield s = (schedNext s).2 := by
      simp [schedYield, contextSwitch, hn, hc]
    rw [hsame]
    exact hnext
  · have hcur : s.cpu.current ∉ (schedNext s).2.queued := fun hm => h.once.current (hcase.mem_queued hm)
    rw [schedYield_eq hn hc]
    exact (hnext.switchOut (schedNext_ok h.ok) hcur).of_same (fun _ _ hx => hx)
      fun q => (switchIn_fields p q).1

theorem Graded.quiet (h : Graded s) (hu : Quiet s t)
    (hsame : ∀ q, (t.procs q).queueLevel = (s.procs q).queueLevel) : Graded t := by
  refine ⟨h.toLevelsOk.of_same ?_ hsame, h.serving.quiet hu, h.routed.quiet hu, h.once.quiet hu⟩
  rw [hu.level]
  exact fun _ _ hx => hx

theorem Graded.rewrites (h : Graded s) (hr : Rewrites p s t) (hq : some p ∉ s.queued)
    (hp : 0 ≤ (t.procs p).queueLevel ∧ (t.procs p).queueLevel ≤ 3) : Graded t :=
  ⟨h.toLevelsOk.rewrites hr hq hp, h.serving.rewrites hr fun hm => absurd hm hq, h.routed.rewrites hr hq,
    h.once.rewrites hr⟩

/-- The counters of a tick change no level. -/
theorem Graded.spend (h : Graded s) (hu : Quiet s t)
    (hprocs : t.procs = Function.update s.procs p (s.procs p).charge.spend) : Graded t := by
  refine h.quiet hu ?_
  intro q
  rw [hprocs]
  by_cases hq : q = p
  · subst hq
    rw [Function.update_self, (spend_fields _).1]
  · rw [Function.update_of_ne hq]

theorem Graded.tickHead (h : Graded s) : Graded (tickHead s) := by
  cases hc : s.cpu.current with
  | none =>
    have hcase := tickHead_case s
    have hprocs : (Scheduler.tickHead s).procs = s.procs := by
      simp [Scheduler.tickHead, hc]
    generalize Scheduler.tickHead s = t at hcase hprocs
    cases hcase with
    | noProcess _ hu => exact h.quiet hu fun q => by rw [hprocs]
    | expired hp _ _ _ => exact absurd hc (by simp [hp])
    | kept hp _ _ => exact absurd hc (by simp [hp])
  | some p =>
    obtain ⟨u, hu, _, hprocs, heq⟩ := tickHead_spends hc
    have hgraded := h.spend hu hprocs
    rw [heq]
    split
    · exact hgraded.yield
    · exact hgraded

theorem Graded.aging (h : Graded s) : Graded (agingPass s) :=
  ⟨h.toLevelsOk.aging h.ok, h.serving.aging, h.routed.aging h.ok, h.once.aging h.ok⟩

theorem Graded.tickTail (h : Graded s) : Graded (tickTail s) := by
  unfold Scheduler.tickTail
  split
  · exact h.aging
  · exact h

theorem Graded.tick (h : Graded s) : Graded (schedTick s) := by
  unfold schedTick
  split
  · exact h.tickHead
  · exact h.tickHead.tickTail

theorem clampPriority_le (v : Int) : clampPriority v ≤ priorityMax := by
  unfold clampPriority
  split
  · decide
  · split
    · exact le_refl _
    · next hv => exact not_lt.mp hv

theorem priorityLevel_bounds {v : Int} (hv : priorityRtMax < clampPriority v) :
    0 ≤ priorityLevel (clampPriority v) ∧ priorityLevel (clampPriority v) ≤ 3 := by
  have hmax := clampPriority_le v
  have hlevel : 0 ≤ ((clampPriority v - priorityNormalMin) * numQueueLevels) /
        (priorityMax - priorityNormalMin + 1) ∧
      ((clampPriority v - priorityNormalMin) * numQueueLevels) / (priorityMax - priorityNormalMin + 1) <
        numQueueLevels := by
    simp only [priorityRtMax, priorityMax] at hv hmax
    simp only [numQueueLevels, priorityNormalMin, priorityMax]
    omega
  rw [priorityLevel, if_neg (not_le.mpr hlevel.2)]
  refine ⟨hlevel.1, Int.lt_add_one_iff.mp ?_⟩
  exact hlevel.2

theorem setPriority_bounds (h : 0 ≤ (s.procs p).queueLevel ∧ (s.procs p).queueLevel ≤ 3) (v : Int) :
    0 ≤ ((schedSetPriority s (some p) v).procs p).queueLevel ∧
      ((schedSetPriority s (some p) v).procs p).queueLevel ≤ 3 := by
  by_cases hv : clampPriority v ≤ priorityRtMax
  · rw [schedSetPriority_rt hv]
    exact h
  · rw [schedSetPriority_normal (not_le.mp hv)]
    exact priorityLevel_bounds (not_le.mp hv)

theorem Graded.start : Graded Sched.start := by
  refine ⟨⟨?_, ?_⟩, .start, .start, .start⟩
  · intro q
    cases q <;>
      simp [Sched.start, schedulerInit, initIdleProcess, modify_procs, Sched.boot, Process.zero]
  · intro l q hq
    rw [start_level] at hq
    cases hq

theorem Graded.exec (h : Graded s) {c : SchedCall} (hok : TurnOk s c) : Graded (s.exec c) := by
  cases c with
  | alloc =>
    rcases processAlloc_case s with he | ⟨i, hi, hr, _, hp⟩
    · rw [Sched.exec, he]
      exact h
    · refine h.rewrites hr (fun hm => h.serving.live _ hm hi) ?_
      rw [Sched.exec, hp]
      simp [Process.alloc]
  | free x => exact hok.elim
  | add x => exact ⟨h.toLevelsOk.add h.ok x, h.serving.add x, h.routed.add h.ok x, h.once.add h.ok hok⟩
  | yield => exact h.yield
  | tick => exact h.tick
  | tickHead => exact h.tickHead
  | tickTail => exact h.tickTail
  | setPriority x v =>
    cases x with
    | none => exact h
    | some p => exact h.rewrites (schedSetPriority_rewrites p v) hok (setPriority_bounds (h.bounds p) v)
  | setPolicy x policy =>
    cases x with
    | none => exact h
    | some p =>
      refine h.rewrites (schedSetPolicy_rewrites p policy) hok ?_
      simpa [Sched.exec, schedSetPolicy] using h.bounds p

end Graded

section Leaving

variable {s : Sched} {p : ProcRef}

theorem schedNext_procs_of_ne (h : QueuesOk s) (hn : (schedNext s).1 ≠ some p) :
    (schedNext s).2.procs p = s.procs p := by
  cases schedNext_fillCase h with
  | kept _ hprocs => rw [hprocs]
  | filled l q hx _ hprocs =>
    have hpq : p ≠ q := by
      rintro rfl
      exact hn hx
    rw [hprocs, Function.update_of_ne hpq]
  | idle _ _ hprocs => rw [hprocs]

/-- With a process that is not queued, `sched_next` leaves room in every queue. -/
theorem Graded.next_length_lt (h : Graded s) (hp : some p ∉ s.queued) :
    (schedNext s).2.queued.length < maxProcesses := by
  have hnd : (none :: some p :: s.queued).Nodup := by
    rw [List.nodup_cons, List.nodup_cons]
    exact ⟨by simp [h.ok.noNull], hp, h.once.nodup⟩
  have hle := hnd.length_le_card
  rw [card_procPtr] at hle
  simp only [List.length_cons] at hle
  simp only [maxProcesses]
  rcases (schedNext_case h.ok).perm with hp | ⟨hn, _, he⟩
  · have hlen := hp.length_eq
    rw [List.length_cons] at hlen
    omega
  · rw [he, hn]
    simp

theorem countSwitch_demote_level (x : Process) : x.countSwitch.demote.queueLevel = x.demote.queueLevel := by
  by_cases h : x.timeSlice = 0#64 ∧ x.queueLevel < numQueueLevels - 1
  · simp [Process.demote, Process.countSwitch, h]
  · simp [Process.demote, Process.countSwitch, h]

/-- `sched_next` does not give the CPU back to the process that has it, unless it is the idle one. -/
theorem Graded.next_other (h : Graded s) (hcur : s.cpu.current = some p) (hidle : p ≠ .idle) :
    (schedNext s).1 ≠ some p := by
  intro hn
  have hnext := schedNext_case h.ok
  rw [hn] at hnext
  rcases hnext.perm with hp | ⟨_, hi, _⟩
  · exact h.once.current (by rw [hcur]; exact hp.mem_iff.mpr List.mem_cons_self)
  · rw [h.serving.idle] at hi
    exact hidle (Option.some.inj hi)

/-- A running normal process that yields is queued at its level, or at the next one when its
time is used up. -/
theorem Graded.leaves (h : Graded s) (hcur : s.cpu.current = some p) (hrun : (s.procs p).state = .running)
    (hpol : (s.procs p).policy = .normal) (hidle : p ≠ .idle) : (schedYield s).cpu.current ≠ some p ∧
      ((schedYield s).procs p).state = .runnable ∧
      some p ∈ (schedYield s).level (clampLevel (s.procs p).demote.queueLevel) := by
  have hother := h.next_other hcur hidle
  have hroom := h.next_length_lt (hcur ▸ h.once.current)
  have hproc := schedNext_procs_of_ne h.ok hother
  obtain ⟨q, hn⟩ := h.serving.next_some
  have hqp : q ≠ p := by
    rintro rfl
    exact hother hn
  have hne : s.cpu.current ≠ some q := by
    rw [hcur]
    exact fun he => hqp (Option.some.inj he).symm
  have hout : switchOut (schedNext s).2 (some p) =
      schedAdd ((schedNext s).2.modify p fun x => x.countSwitch.demote) (some p) := by
    rw [switchOut, hproc, if_pos hrun, requeue_normal]
    · rw [(schedNext_procs s).cpu, h.serving.idle]
      exact fun he => hidle (Option.some.inj he)
    · rw [hproc, hpol]
  rw [schedYield_eq hn hne, hcur, hout]
  refine ⟨?_, ?_, ?_⟩
  · rw [switchIn_current]
    exact fun he => hqp (Option.some.inj he)
  · rw [switchIn_state, if_neg (Ne.symm hqp), schedAdd_state, if_pos rfl]
  · have hpol' : (((schedNext s).2.modify p fun x => x.countSwitch.demote).procs p).policy = .normal := by
      rw [modify_self, (demote_fields _).1, hproc]
      exact hpol
    have hlevel : (((schedNext s).2.modify p fun x => x.countSwitch.demote).procs p).queueLevel =
        (s.procs p).demote.queueLevel := by
      rw [modify_self, hproc, countSwitch_demote_level]
    have hfits := (length_le_queued (schedNext s).2).2 (clampLevel (s.procs p).demote.queueLevel)
    rw [switchIn_level, schedAdd_normal hpol', enqueueLevel_level (((schedNext_ok h.ok).modify p _).modify p _),
      hlevel, Function.update_self, modify_level, modify_level, if_pos (Nat.lt_of_le_of_lt hfits hroom)]
    exact List.mem_append_right _ List.mem_cons_self

end Leaving

/-- `p` does not yield, and its priority and policy stay as they are. -/
def Undisturbed (p : ProcRef) : SchedCall → Prop
  | .yield => False
  | .setPriority x _ | .setPolicy x _ => x ≠ some p
  | .alloc | .free _ | .add _ | .tick | .tickHead | .tickTail => True

instance Undisturbed.decidable (p : ProcRef) : (c : SchedCall) → Decidable (Undisturbed p c)
  | .yield => inferInstanceAs (Decidable False)
  | .setPriority _ _ | .setPolicy _ _ => inferInstanceAs (Decidable (_ ≠ _))
  | .alloc | .free _ | .add _ | .tick | .tickHead | .tickTail => inferInstanceAs (Decidable True)

/-- The process `p` has left the CPU for level `l`. -/
structure Requeued (p : ProcRef) (l : Fin 4) (s : Sched) : Prop where
  current : s.cpu.current ≠ some p
  state : (s.procs p).state = .runnable
  level : (s.procs p).queueLevel = l.val
  queued : some p ∈ s.level l

/-- The process `p` was dispatched from level `l` and has run for `k` ticks since. -/
structure Turn (p : ProcRef) (l : Fin 4) (k : Nat) (s : Sched) : Prop where
  graded : Graded s
  current : s.cpu.current = some p
  state : (s.procs p).state = .running
  policy : (s.procs p).policy = .normal
  level : (s.procs p).queueLevel = l.val
  time : (s.procs p).timeSlice.toNat + k = (queueTimeSlices l).toNat

section Turn

variable {s t : Sched} {p : ProcRef} {l : Fin 4} {k : Nat}

theorem Turn.unqueued (h : Turn p l k s) : some p ∉ s.queued := h.current ▸ h.graded.once.current

theorem Turn.of_same (h : Turn p l k s) (hg : Graded t) (hcur : t.cpu.current = s.cpu.current)
    (hp : t.procs p = s.procs p) : Turn p l k t := by
  refine ⟨hg, hcur.trans h.current, ?_, ?_, ?_, ?_⟩
  · rw [hp, h.state]
  · rw [hp, h.policy]
  · rw [hp, h.level]
  · rw [hp, h.time]

theorem Graded.yield_dispatches (h : Graded s) (hl : some p ∈ s.level l)
    (hcur : (schedYield s).cpu.current = some p) : Turn p l 0 (schedYield s) := by
  have hqueued : some p ∈ s.queued := mem_queued.mpr (.inr ⟨l, hl⟩)
  have hne : s.cpu.current ≠ some p := fun he => h.once.current (he ▸ hqueued)
  have hnormal := h.routed.level l p hl
  obtain ⟨hn, hslice, hpol, hlevel, hstate⟩ := h.serving.yield_enters hcur hne
  rw [schedNext_queueLevel h.ok, h.placed l p hl] at hlevel
  have hcase := schedNext_fillCase h.ok
  rw [hn] at hcase
  refine ⟨h.yield, hcur, hstate, hpol.trans hnormal, hlevel, ?_⟩
  rw [hslice, Nat.add_zero]
  cases hcase with
  | kept hrt hprocs =>
    rcases h.routed.rt p (List.mem_of_mem_head? hrt) with hp | hp <;> simp [hp] at hnormal
  | filled m q hx hm hprocs =>
    cases hx
    have hml : m = l := by
      have := h.placed m p hm
      rw [h.placed l p hl] at this
      omega
    rw [hprocs, Function.update_self, hml]
    rfl
  | idle hempty _ _ =>
    rw [hempty] at hqueued
    cases hqueued

theorem Graded.tickHead_dispatches (h : Graded s) (hl : some p ∈ s.level l)
    (hcur : (Scheduler.tickHead s).cpu.current = some p) : Turn p l 0 (Scheduler.tickHead s) := by
  have hne : s.cpu.current ≠ some p := fun he => h.once.current (he ▸ mem_queued.mpr (.inr ⟨l, hl⟩))
  cases hc : s.cpu.current with
  | none =>
    have hnone : (Scheduler.tickHead s).cpu.current = none := by
      simp [Scheduler.tickHead, hc]
    rw [hnone] at hcur
    cases hcur
  | some q =>
    obtain ⟨u, hu, _, hprocs, heq⟩ := tickHead_spends hc
    rw [heq] at hcur ⊢
    split at hcur
    · next hexp =>
      rw [if_pos hexp]
      exact (h.spend hu hprocs).yield_dispatches (by rw [hu.level]; exact hl) hcur
    · rw [hu.current] at hcur
      exact absurd hcur hne

/-- The aging pass reaches queued processes only. -/
theorem Turn.tickTail (h : Turn p l k s) : Turn p l k (Scheduler.tickTail s) := by
  refine h.of_same h.graded.tickTail (congrArg CpuSched.current (tickTail_kept s).cpu) ?_
  unfold Scheduler.tickTail
  split
  · rw [agingPass_procs h.graded.ok, if_neg]
    rintro ⟨hm, _⟩
    simp only [List.mem_append] at hm
    rcases hm with hm | hm | hm <;> exact h.unqueued (mem_queued.mpr (.inr ⟨_, hm⟩))
  · rfl

/-- A tick that leaves time only counts. -/
theorem Turn.tickHead (h : Turn p l k s) (hk : k + 1 < (queueTimeSlices l).toNat) :
    Turn p l (k + 1) (Scheduler.tickHead s) := by
  obtain ⟨u, hu, _, hprocs, heq⟩ := tickHead_spends h.current
  obtain ⟨hlevel, hpol, hstate, hslice⟩ := spend_fields (s.procs p)
  have htime := h.time
  have hp : u.procs p = (s.procs p).charge.spend := by rw [hprocs, Function.update_self]
  rw [heq, if_neg (by omega)]
  refine ⟨h.graded.spend hu hprocs, hu.current.trans h.current, ?_, ?_, ?_, ?_⟩
  · rw [hp, hstate, h.state]
  · rw [hp, hpol, h.policy]
  · rw [hp, hlevel, h.level]
  · rw [hp, hslice]
    omega

theorem schedTick_of_current (hcur : s.cpu.current = some p) :
    schedTick s = Scheduler.tickTail (Scheduler.tickHead s) := by
  simp [schedTick, hcur]

theorem Turn.rewrites {q : ProcRef} (h : Turn p l k s) (hr : Rewrites q s t) (hg : Graded t) (hq : p ≠ q) :
    Turn p l k t :=
  h.of_same hg (congrArg CpuSched.current hr.cpu) (hr.others p hq)

theorem Turn.alive (h : Turn p l k s) : (s.procs p).state ≠ .unused := by
  rw [h.state]
  simp

/-- One call of the continuation: it takes a tick of the slice, or nothing. -/
theorem Turn.exec {c : SchedCall} (h : Turn p l k s) (hok : TurnOk s c) (hp : Undisturbed p c)
    (hk : k + [c].countP SchedCall.isTick < (queueTimeSlices l).toNat) :
    Turn p l (k + [c].countP SchedCall.isTick) (s.exec c) := by
  have hg := h.graded.exec hok
  cases c with
  | alloc =>
    rcases processAlloc_case s with he | ⟨i, hi, hr, _, _⟩
    · rw [Sched.exec, he]
      exact h
    · refine h.rewrites hr hg ?_
      rintro rfl
      exact h.alive hi
  | free x => exact hok.elim
  | add x =>
    cases x with
    | none => exact h
    | some q =>
      have hqp : p ≠ q := by
        rintro rfl
        exact (hok.resolve_left (by simp)).2 h.current.symm
      refine h.of_same hg ?_ ?_
      · rw [Sched.exec, schedAdd_cpu]
      · rw [Sched.exec, schedAdd_procs, if_neg hqp]
  | yield => exact hp.elim
  | tick =>
    rw [Sched.exec, schedTick_of_current h.current]
    exact (h.tickHead hk).tickTail
  | tickHead => exact h.tickHead hk
  | tickTail => exact h.tickTail
  | setPriority x v =>
    cases x with
    | none => exact h
    | some q => exact h.rewrites (schedSetPriority_rewrites q v) hg fun he => hp (congrArg some he.symm)
  | setPolicy x policy =>
    cases x with
    | none => exact h
    | some q => exact h.rewrites (schedSetPolicy_rewrites q policy) hg fun he => hp (congrArg some he.symm)

theorem Turn.run {calls : List SchedCall} (h : Turn p l k s)
    (hrun : Run (guarded (fun s c => TurnOk s c ∧ Undisturbed p c) Sched.exec) s calls t)
    (hk : k + calls.countP SchedCall.isTick < (queueTimeSlices l).toNat) :
    Turn p l (k + calls.countP SchedCall.isTick) t := by
  induction calls generalizing s k with
  | nil =>
    cases hrun
    exact h
  | cons c calls ih =>
    obtain ⟨u, ⟨⟨hok, hp⟩, rfl⟩, hrest⟩ := hrun
    have hcount : (c :: calls).countP SchedCall.isTick =
        [c].countP SchedCall.isTick + calls.countP SchedCall.isTick := by
      rw [← List.countP_append]
      rfl
    rw [hcount, ← Nat.add_assoc] at hk ⊢
    exact ih (h.exec hok hp (by omega)) hrest hk

theorem clampLevel_fin (m : Fin 4) : clampLevel m.val = m := by
  rcases level_cases m with rfl | rfl | rfl | rfl <;> rfl

theorem demote_of_time {x : Process} (hx : x.timeSlice ≠ 0#64) : x.demote = x := by
  rw [Process.demote, if_neg fun hc => hx hc.1]

theorem demote_below {x : Process} (hl : x.queueLevel = l.val) (hx : x.timeSlice = 0#64) :
    x.demote.queueLevel = (levelBelow l).val := by
  by_cases hlow : x.queueLevel < numQueueLevels - 1
  · rw [Process.demote, if_pos ⟨hx, hlow⟩]
    show x.queueLevel + 1 = _
    rw [hl] at hlow ⊢
    rcases level_cases l with rfl | rfl | rfl | rfl <;> first | rfl | exact absurd hlow (by decide)
  · rw [Process.demote, if_neg fun hc => hlow hc.2]
    rw [hl] at hlow ⊢
    rcases level_cases l with rfl | rfl | rfl | rfl <;> first | rfl | exact absurd (by decide) hlow

/-- A running normal process of the table leaves for the level that `demote` gives it. -/
theorem Graded.requeues {i : Fin maxProcesses} {m : Fin 4} (h : Graded s)
    (hcur : s.cpu.current = some (.slot i)) (hrun : (s.procs (.slot i)).state = .running)
    (hpol : (s.procs (.slot i)).policy = .normal)
    (hm : (s.procs (.slot i)).demote.queueLevel = m.val) : Requeued (.slot i) m (schedYield s) := by
  obtain ⟨hother, hstate, hmem⟩ := h.leaves hcur hrun hpol (by simp)
  rw [hm, clampLevel_fin] at hmem
  exact ⟨hother, hstate, h.yield.placed m _ hmem, hmem⟩

/-- A voluntary yield with time left. -/
theorem Turn.yields {i : Fin maxProcesses} (h : Turn (.slot i) l k s) (hk : k < (queueTimeSlices l).toNat) :
    Requeued (.slot i) l (schedYield s) := by
  have hslice : (s.procs (.slot i)).timeSlice ≠ 0#64 := by
    intro hz
    have htime := h.time
    rw [hz, BitVec.toNat_ofNat, Nat.zero_mod] at htime
    omega
  refine h.graded.requeues h.current h.state h.policy ?_
  rw [demote_of_time hslice, h.level]

/-- The tick that uses up the slice. -/
theorem Turn.expires {i : Fin maxProcesses} (h : Turn (.slot i) l k s)
    (hk : k + 1 = (queueTimeSlices l).toNat) : Requeued (.slot i) (levelBelow l) (Scheduler.tickHead s) := by
  obtain ⟨u, hu, _, hprocs, heq⟩ := tickHead_spends h.current
  obtain ⟨hlevel, hpol, hstate, hslice⟩ := spend_fields (s.procs (.slot i))
  have htime := h.time
  have hp : u.procs (.slot i) = (s.procs (.slot i)).charge.spend := by rw [hprocs, Function.update_self]
  rw [heq, if_pos ⟨by omega, .inl h.policy⟩]
  refine (h.graded.spend hu hprocs).requeues (hu.current.trans h.current) ?_ ?_ ?_
  · rw [hp, hstate, h.state]
  · rw [hp, hpol, h.policy]
  · refine demote_below ?_ ?_
    · rw [hp, hlevel, h.level]
    · rw [hp, ← BitVec.toNat_inj, hslice]
      simp only [BitVec.toNat_ofNat, Nat.zero_mod]
      omega

/-- Every call that gives the CPU to a process of level `l` starts its turn. -/
theorem Graded.dispatches {c : SchedCall} (h : Graded s) (hc : c = .yield ∨ c = .tick ∨ c = .tickHead)
    (hl : some p ∈ s.level l) (hcur : (s.exec c).cpu.current = some p) : Turn p l 0 (s.exec c) := by
  rcases hc with rfl | rfl | rfl
  · exact h.yield_dispatches hl hcur
  · simp only [Sched.exec, schedTick] at hcur ⊢
    split at hcur
    · next hnone =>
      rw [if_pos hnone]
      exact h.tickHead_dispatches hl hcur
    · next hsome =>
      rw [if_neg hsome]
      rw [(tickTail_kept _).cpu] at hcur
      exact (h.tickHead_dispatches hl hcur).tickTail
  · exact h.tickHead_dispatches hl hcur

end Turn

/-- A process of the table that is taken from level `l` keeps the CPU through fewer ticks than the
level's slice has, whatever else is allocated, added or set meanwhile. The last tick of the slice
puts it one level down, before the aging pass of that tick, and a yield before that puts it
back where it was. -/
theorem normal_turn_quantum {calls cont : List SchedCall} {s u : Sched} {c : SchedCall}
    {i : Fin maxProcesses} {l : Fin 4} (hs : Run (guarded TurnOk Sched.exec) Sched.start calls s)
    (hc : c = .yield ∨ c = .tick ∨ c = .tickHead) (hl : some (.slot i) ∈ s.level l)
    (hcur : (s.exec c).cpu.current = some (.slot i))
    (hu : Run (guarded (fun s c => TurnOk s c ∧ Undisturbed (.slot i) c) Sched.exec) (s.exec c) cont u)
    (hticks : cont.countP SchedCall.isTick < (queueTimeSlices l).toNat) :
    u.cpu.current = some (.slot i) ∧ Requeued (.slot i) l (schedYield u) ∧
    (cont.countP SchedCall.isTick + 1 = (queueTimeSlices l).toNat →
      Requeued (.slot i) (levelBelow l) (tickHead u) ∧ (schedTick u).cpu.current ≠ some (.slot i)) := by
  have hgraded : Graded s := hs.guarded_invariant Graded (fun _ _ hs hok => hs.exec hok) .start
  have hturn := (hgraded.dispatches hc hl hcur).run hu (by omega)
  rw [Nat.zero_add] at hturn
  refine ⟨hturn.current, hturn.yields hticks, ?_⟩
  intro hlast
  have hout := hturn.expires hlast
  refine ⟨hout, ?_⟩
  rw [schedTick_of_current hturn.current, (tickTail_kept _).cpu]
  exact hout.current

/-- The first turn of a new process: another one is added during its five ticks. -/
theorem normal_turn_quantum_first :
    let cont : List SchedCall := [.tick, .alloc, .add (some (.slot 1)), .tick, .tick, .tick]
    ∃ s u, some (.slot 0) ∈ s.level 0 ∧ u = cont.foldl Sched.exec (schedYield s) ∧
      u.cpu.current = some (.slot 0) ∧ Requeued (.slot 0) 1 (tickHead u) := by
  intro cont
  have hs := run_guarded_iff.mpr ⟨show Admissible TurnOk Sched.exec Sched.start
    [.alloc, .add (some (.slot 0))] by decide +kernel, rfl⟩
  have hu := run_guarded_iff.mpr ⟨show Admissible (fun s c => TurnOk s c ∧ Undisturbed (.slot 0) c) Sched.exec
    (schedYield ([.alloc, .add (some (.slot 0))].foldl Sched.exec Sched.start)) cont by decide +kernel, rfl⟩
  have hl : some (.slot 0) ∈ ([.alloc, .add (some (.slot 0))].foldl Sched.exec Sched.start).level 0 := by
    decide +kernel
  have hturn := normal_turn_quantum (c := .yield) hs (.inl rfl) hl (by decide +kernel) hu (by decide)
  exact ⟨_, _, hl, rfl, hturn.1, (hturn.2.2 (by decide)).1⟩

end RiscvOs.Scheduler
