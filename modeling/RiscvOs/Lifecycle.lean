import RiscvOs.Conservation
import RiscvOs.Routing
set_option autoImplicit false

/-!
Slots of the process table that are freed and handed out again. `process_free` leaves
the queues alone, so the entry of a process that is freed while it is queued outlives it.
-/

namespace RiscvOs.Scheduler
open WordMemory Queues Runs

section Outside

variable {s t : Sched} {p q : ProcRef} {st : ProcState} {C : Prop}

/-- The process `q` is in state `st`, not queued, and current only if `C`. -/
structure Outside (q : ProcRef) (st : ProcState) (C : Prop) (s : Sched) : Prop where
  ok : QueuesOk s
  idle : s.cpu.idle = some .idle
  state : (s.procs q).state = st
  unqueued : some q ∉ s.queued
  current : s.cpu.current = some q → C

theorem Outside.quiet (h : Outside q st C s) (hq : Quiet s t) : Outside q st C t := by
  refine ⟨hq.ok h.ok, hq.idle.trans h.idle, (hq.state q).trans h.state, ?_, ?_⟩
  · rw [hq.queued]
    exact h.unqueued
  · rw [hq.current]
    exact h.current

theorem Outside.aging (h : Outside q st C s) : Outside q st C (agingPass s) := by
  have ha := agingPass_aged h.ok
  refine ⟨ha.ok, ?_, (ha.procs.state q).trans h.state, ?_, ?_⟩
  · rw [ha.procs.cpu]
    exact h.idle
  · intro hm
    exact h.unqueued (ha.sublist.subset hm)
  · rw [ha.procs.cpu]
    exact h.current

/-- A running process that leaves the CPU does not touch the others. -/
theorem requeue_other (hok : QueuesOk s) (hq : q ≠ p) :
    ((requeue s p).procs q).state = (s.procs q).state ∧
      (some q ∈ (requeue s p).queued → some q ∈ s.queued) := by
  have hcase := requeue_case (s := s) (p := p)
  generalize requeue s p = t at hcase
  cases hcase with
  | idle _ hu =>
    rw [modify_procs, if_neg hq, modify_queued, hu.queued]
    exact ⟨hu.state q, id⟩
  | added _ _ hu =>
    rw [schedAdd_state, if_neg hq]
    refine ⟨hu.state q, ?_⟩
    intro hm
    have hne : some q ≠ some p := fun he => hq (Option.some.inj he)
    exact hu.queued ▸ (mem_schedAdd (hu.ok hok) hm).resolve_left hne
  | dropped _ _ hu =>
    rw [hu.queued]
    exact ⟨hu.state q, id⟩

/-- A yield neither picks nor changes a process that is not queued and not running. -/
theorem Outside.yield (h : Outside q st C s) (hst : st ≠ .running) (hi : q ≠ .idle) :
    Outside q st C (schedYield s) := by
  have hok := schedYield_ok h.ok h.idle
  have hidle := schedYield_idle h.ok h.idle
  have hcase := schedYield_case h.ok h.idle
  generalize schedYield s = u at hcase hok hidle
  have hnotNext {x : ProcRef} {t : Sched} (hnext : NextCase s (some x) t) : q ≠ x := by
    intro he
    rcases hnext.perm with hp | ⟨_, hx, _⟩
    · exact h.unqueued (he ▸ hp.mem_iff.mpr List.mem_cons_self)
    · rw [h.idle] at hx
      exact hi (he.trans (Option.some.inj hx))
  cases hcase with
  | same hnext _ hprocs =>
    refine ⟨hok, hidle, (hprocs.state q).trans h.state, ?_, ?_⟩
    · exact fun hm => h.unqueued (hnext.mem_queued hm)
    · rw [hprocs.cpu]
      exact h.current
  | @switch x t hnext ht hprocs _ hcur =>
    have hqx := hnotNext hnext
    have htq : (t.procs q).state = st := (hprocs.state q).trans h.state
    have hunq : some q ∉ t.queued := fun hm => h.unqueued (hnext.mem_queued hm)
    have hout : ((switchOut t s.cpu.current).procs q).state = st ∧
        some q ∉ (switchOut t s.cpu.current).queued := by
      cases hc : s.cpu.current with
      | none => exact ⟨htq, hunq⟩
      | some c =>
        by_cases hr : (t.procs c).state = .running
        · have hqc : q ≠ c := by
            intro he
            rw [← he, htq] at hr
            exact hst hr
          obtain ⟨hsame, hmem⟩ := requeue_other ht hqc
          rw [switchOut, if_pos hr, hsame]
          exact ⟨htq, fun hm => hunq (hmem hm)⟩
        · rw [switchOut, if_neg hr]
          exact ⟨htq, hunq⟩
    refine ⟨hok, hidle, ?_, hout.2, ?_⟩
    · rw [switchIn_state, if_neg hqx]
      exact hout.1
    · intro hc
      exact absurd (Option.some.inj hc).symm hqx

theorem Outside.ticks (h : Outside q st C s) (hst : st ≠ .running) (hi : q ≠ .idle) :
    Outside q st C (tickHead s) ∧ Outside q st C (tickTail s) ∧ Outside q st C (schedTick s) :=
  tick_invariant (I := Outside q st C) (fun _ _ hs hq => hs.quiet hq)
    (fun _ _ hs _ _ => hs.yield hst hi) (fun _ hs => hs.aging) h

end Outside

section Used

variable {s t : Sched} {q : ProcRef}

/-- The process `q` is in use. -/
structure Used (q : ProcRef) (s : Sched) : Prop where
  ok : QueuesOk s
  idle : s.cpu.idle = some .idle
  state : (s.procs q).state ≠ .unused

theorem Used.quiet (h : Used q s) (hq : Quiet s t) : Used q t :=
  ⟨hq.ok h.ok, hq.idle.trans h.idle, by rw [hq.state]; exact h.state⟩

theorem schedAdd_used (h : (s.procs q).state ≠ .unused) (p : ProcRef) :
    ((schedAdd s (some p)).procs q).state ≠ .unused := by
  rw [schedAdd_state]
  by_cases hq : q = p <;> simp [hq, h]

theorem Used.yield (h : Used q s) : Used q (schedYield s) := by
  refine ⟨schedYield_ok h.ok h.idle, schedYield_idle h.ok h.idle, ?_⟩
  refine yield_invariant (I := fun s => (s.procs q).state ≠ .unused) ?_ ?_
    (fun _ p _ hs => schedAdd_used hs p) ?_ ?_ h.ok h.idle h.state
  · intro s t hs hq
    rwa [hq.state]
  · intro s p hs
    rw [modify_procs]
    by_cases hq : q = p <;> simp [hq, hs]
  · intro s x t hs _ hprocs
    rwa [hprocs.state]
  · intro s p hs
    rw [switchIn_state]
    by_cases hq : q = p <;> simp [hq, hs]

theorem Used.ticks (h : Used q s) :
    Used q (tickHead s) ∧ Used q (tickTail s) ∧ Used q (schedTick s) := by
  refine tick_invariant (I := Used q) (fun _ _ hs hq => hs.quiet hq)
    (fun _ _ hs _ _ => hs.yield) ?_ h
  intro s hs
  have ha := agingPass_aged hs.ok
  exact ⟨ha.ok, by rw [ha.procs.cpu, hs.idle], by rw [ha.procs.state]; exact hs.state⟩

end Used

/-- What has last happened to a slot of the table. -/
inductive Life where
  | unused | allocated | added | freed
  deriving DecidableEq

structure LifeSys where
  sched : Sched
  life : Fin 64 → Life

/-- Only a slot that is handed out and not queued is freed, and only a slot that is handed out
and neither queued nor running is added. -/
def LifeSys.Ok (s : LifeSys) : SchedCall → Prop
  | .free (some (.slot i)) =>
    (s.life i = .allocated ∨ s.life i = .added) ∧ some (.slot i) ∉ s.sched.queued
  | .add (some (.slot i)) => s.life i = .allocated ∨ s.life i = .added ∧
    some (.slot i) ∉ s.sched.queued ∧ (s.sched.procs (.slot i)).state ≠ .running
  | .free (some .idle) => False
  | .add (some .idle) => False
  | .setPriority _ _ => False
  | .setPolicy _ _ => False
  | _ => True

instance LifeSys.Ok.decidable (s : LifeSys) : (c : SchedCall) → Decidable (s.Ok c)
  | .free (some (.slot i)) => inferInstanceAs (Decidable
    ((s.life i = .allocated ∨ s.life i = .added) ∧ some (.slot i) ∉ s.sched.queued))
  | .add (some (.slot i)) => inferInstanceAs (Decidable (s.life i = .allocated ∨
    s.life i = .added ∧ some (.slot i) ∉ s.sched.queued ∧
      (s.sched.procs (.slot i)).state ≠ .running))
  | .free (some .idle) | .add (some .idle) | .setPriority _ _ | .setPolicy _ _ =>
    inferInstanceAs (Decidable False)
  | .free none | .add none | .alloc | .yield | .tick | .tickHead | .tickTail =>
    inferInstanceAs (Decidable True)

def LifeSys.nextLife (s : LifeSys) : SchedCall → Fin 64 → Life
  | .alloc =>
    match (processAlloc s.sched).1 with
    | some (.slot i) => Function.update s.life i .allocated
    | _ => s.life
  | .free (some (.slot i)) => Function.update s.life i .freed
  | .add (some (.slot i)) => Function.update s.life i .added
  | _ => s.life

def LifeSys.exec (s : LifeSys) (c : SchedCall) : LifeSys := ⟨s.sched.exec c, s.nextLife c⟩

def LifeSys.start : LifeSys := ⟨Sched.start, fun _ => .unused⟩

structure LifeInv (s : LifeSys) : Prop where
  classed : Classed (· = .normal) s.sched
  distinct : Distinct s.sched
  outside : ∀ i, s.life i ≠ .added →
    some (.slot i) ∉ s.sched.queued ∧ (s.sched.procs (.slot i)).state ≠ .running
  state : ∀ i, (s.sched.procs (.slot i)).state = .unused ↔
    s.life i = .unused ∨ s.life i = .freed

section LifeInv

variable {s : LifeSys} {t : Sched} {i : Fin 64}

theorem LifeInv.start : LifeInv LifeSys.start := by
  refine ⟨.start rfl, .start, ?_, ?_⟩
  · intro i _
    exact ⟨by simp [LifeSys.start, start_queued], start_state _⟩
  · intro i
    exact iff_of_true rfl (.inl rfl)

theorem LifeInv.requeues (h : LifeInv s) : s.sched.Requeues := by
  intro p _ _ hp
  cases p with
  | slot i => exact .inl (h.classed.table i)
  | idle => exact absurd rfl hp

theorem LifeInv.isOutside (h : LifeInv s) (hi : s.life i ≠ .added) :
    Outside (.slot i) (s.sched.procs (.slot i)).state (s.sched.cpu.current = some (.slot i))
      s.sched :=
  ⟨h.distinct.ok, h.distinct.idle, rfl, (h.outside i hi).1, id⟩

/-- The calls that leave the lives alone: they keep a process out of the queues that is out of
them, and in use one that is in use. -/
theorem LifeInv.of_sched (h : LifeInv s) (hc : Classed (· = .normal) t) (hd : Distinct t)
    (hout : ∀ i, s.life i ≠ .added → Outside (.slot i) (s.sched.procs (.slot i)).state
      (s.sched.cpu.current = some (.slot i)) t)
    (hused : ∀ i, Used (.slot i) s.sched → Used (.slot i) t) : LifeInv ⟨t, s.life⟩ := by
  refine ⟨hc, hd, ?_, ?_⟩
  · intro i hi
    have ho := hout i hi
    refine ⟨ho.unqueued, ?_⟩
    show (t.procs (.slot i)).state ≠ .running
    rw [ho.state]
    exact (h.outside i hi).2
  · intro i
    constructor
    · intro hu
      by_cases hs : (s.sched.procs (.slot i)).state = .unused
      · exact (h.state i).mp hs
      · exact absurd hu (hused i ⟨h.distinct.ok, h.distinct.idle, hs⟩).state
    · intro hl
      have hne : s.life i ≠ .added := by
        intro he
        simp [he] at hl
      show (t.procs (.slot i)).state = .unused
      rw [(hout i hne).state]
      exact (h.state i).mpr hl

/-- The calls that give the slot `i` another value and another life. -/
theorem LifeInv.of_rewrites (h : LifeInv s) (hr : Rewrites (.slot i) s.sched t) {l : Life}
    (hq : some (.slot i) ∉ s.sched.queued)
    (hpol : (t.procs (.slot i)).policy = .normal) (hrun : (t.procs (.slot i)).state ≠ .running)
    (hst : (t.procs (.slot i)).state = .unused ↔ l = .unused ∨ l = .freed) :
    LifeInv ⟨t, Function.update s.life i l⟩ := by
  refine ⟨h.classed.rewrites hr (by simp) hq hpol,
    h.distinct.rewrites hr (fun hx => absurd hx hrun), ?_, ?_⟩
  · intro j hj
    by_cases hij : j = i
    · subst hij
      refine ⟨?_, hrun⟩
      show some (.slot j) ∉ t.queued
      rwa [hr.queued]
    · simp only [Function.update_of_ne hij] at hj
      have ho := h.outside j hj
      simp only [hr.queued, hr.others (.slot j) (by simpa using hij)]
      exact ho
  · intro j
    by_cases hij : j = i
    · subst hij
      simp only [Function.update_self]
      exact hst
    · simp only [Function.update_of_ne hij, hr.others (.slot j) (by simpa using hij)]
      exact h.state j

theorem LifeInv.add (h : LifeInv s) (hq : some (.slot i) ∉ s.sched.queued) :
    LifeInv ⟨schedAdd s.sched (some (.slot i)), Function.update s.life i .added⟩ := by
  refine ⟨h.classed.add (some (.slot i)), h.distinct.add hq, ?_, ?_⟩
  · intro j hj
    have hij : j ≠ i := by
      intro he
      simp [he] at hj
    simp only [Function.update_of_ne hij] at hj
    have hne : ProcRef.slot j ≠ .slot i := by simpa using hij
    obtain ⟨ho, hr⟩ := h.outside j hj
    simp only [schedAdd_state, if_neg hne]
    refine ⟨?_, hr⟩
    intro hm
    exact ho ((mem_schedAdd h.distinct.ok hm).resolve_left fun he => hne (Option.some.inj he))
  · intro j
    by_cases hij : j = i
    · subst hij
      simp [schedAdd_state]
    · have hne : ProcRef.slot j ≠ .slot i := by simpa using hij
      simp only [Function.update_of_ne hij, schedAdd_state, if_neg hne]
      exact h.state j

theorem LifeInv.ticks (h : LifeInv s) : LifeInv ⟨tickHead s.sched, s.life⟩ ∧
    LifeInv ⟨tickTail s.sched, s.life⟩ ∧ LifeInv ⟨schedTick s.sched, s.life⟩ := by
  have ho (i : Fin 64) (hi : s.life i ≠ .added) :=
    (h.isOutside hi).ticks (h.outside i hi).2 (by simp)
  refine ⟨?_, ?_, ?_⟩
  · exact h.of_sched h.classed.ticks.1 h.distinct.ticks.1 (fun i hi => (ho i hi).1)
      (fun i hu => hu.ticks.1)
  · exact h.of_sched h.classed.ticks.2.1 h.distinct.ticks.2.1 (fun i hi => (ho i hi).2.1)
      (fun i hu => hu.ticks.2.1)
  · exact h.of_sched h.classed.ticks.2.2 h.distinct.ticks.2.2 (fun i hi => (ho i hi).2.2)
      (fun i hu => hu.ticks.2.2)

theorem LifeInv.exec {c : SchedCall} (h : LifeInv s) (hok : s.Ok c) : LifeInv (s.exec c) := by
  cases c with
  | alloc =>
    rcases processAlloc_case s.sched with he | ⟨i, hi, hr, hslot, hp⟩
    · simp only [LifeSys.exec, Sched.exec, LifeSys.nextLife, he]
      exact h
    · simp only [LifeSys.exec, Sched.exec, LifeSys.nextLife, hslot]
      have hlife := (h.state i).mp hi
      have hne : s.life i ≠ .added := by
        intro he
        simp [he] at hlife
      refine h.of_rewrites hr (h.outside i hne).1 ?_ ?_ ?_ <;>
        simp [hp, Process.alloc]
  | free x =>
    cases x with
    | none => exact h
    | some p =>
      cases p with
      | idle => exact hok.elim
      | slot i =>
        refine h.of_rewrites (l := .freed) (modify_rewrites Process.free) hok.2 ?_ ?_ ?_
        · simpa [Process.free] using h.classed.table i
        · simp [Process.free]
        · simp [Process.free]
  | add x =>
    cases x with
    | none => exact h
    | some p =>
      cases p with
      | idle => exact hok.elim
      | slot i =>
        apply h.add
        rcases hok with hl | hl
        · exact (h.outside i (by simp [hl])).1
        · exact hl.2.1
  | yield =>
    exact h.of_sched h.classed.yield (h.distinct.yield h.requeues)
      (fun i hi => (h.isOutside hi).yield (h.outside i hi).2 (by simp)) (fun i hu => hu.yield)
  | tick => exact h.ticks.2.2
  | tickHead => exact h.ticks.1
  | tickTail => exact h.ticks.2.1
  | setPriority p v => exact hok.elim
  | setPolicy p policy => exact hok.elim

/-- No call gives the CPU to a process that is not queued and not running. -/
theorem LifeInv.not_dispatched {c : SchedCall} (h : LifeInv s) (hi : s.life i ≠ .added)
    (hok : s.Ok c) (hc : (s.exec c).sched.cpu.current = some (.slot i)) :
    s.sched.cpu.current = some (.slot i) := by
  have ho := h.isOutside hi
  have hrun := (h.outside i hi).2
  cases c with
  | alloc =>
    rcases processAlloc_case s.sched with he | ⟨j, _, hr, _, _⟩
    · simpa [LifeSys.exec, Sched.exec, he] using hc
    · simpa [LifeSys.exec, Sched.exec, hr.cpu] using hc
  | free x => cases x <;> exact hc
  | add x => simpa [LifeSys.exec, Sched.exec] using hc
  | yield => exact (ho.yield hrun (by simp)).current hc
  | tick => exact (ho.ticks hrun (by simp)).2.2.current hc
  | tickHead => exact (ho.ticks hrun (by simp)).1.current hc
  | tickTail => exact (ho.ticks hrun (by simp)).2.1.current hc
  | setPriority p v => exact hok.elim
  | setPolicy p policy => exact hok.elim

theorem LifeInv.add_once (h : LifeInv s) (hi : s.life i = .allocated) :
    (schedAdd s.sched (some (.slot i))).queued.count (some (.slot i)) = 1 := by
  have hq := (h.outside i (by simp [hi])).1
  have hroom : s.sched.room (.slot i) = true := by
    apply room_of_length
    · exact h.distinct.length_lt (by simp) hq h.classed.idle_unqueued
    · simp [h.classed.table i]
  have hperm := schedAdd_perm (p := .slot i) h.distinct.ok
  rw [hroom, if_pos rfl] at hperm
  rw [hperm.count_eq, List.count_cons_self, List.count_eq_zero_of_not_mem hq]

end LifeInv

/-- In every run that frees only processes which are not queued, and adds only processes which
are handed out and neither queued nor running: a freed slot stays unused, no call gives it
the CPU, and a slot that is handed out again and added is queued once. -/
theorem freed_never_scheduled {calls : List SchedCall} {s : LifeSys}
    (h : Run (guarded LifeSys.Ok LifeSys.exec) LifeSys.start calls s) :
    (∀ i, s.life i = .freed → (s.sched.procs (.slot i)).state = .unused ∧
      ∀ c, s.Ok c → (s.exec c).sched.cpu.current = some (.slot i) →
        s.sched.cpu.current = some (.slot i)) ∧
    (∀ i, s.life i = .allocated →
      (s.exec (.add (some (.slot i)))).sched.queued.count (some (.slot i)) = 1) ∧
    s.sched.queued.Nodup := by
  have hs : LifeInv s := by
    refine h.guarded_invariant LifeInv ?_ LifeInv.start
    intro s c hs hok
    exact hs.exec hok
  refine ⟨?_, fun i hi => hs.add_once hi, hs.distinct.nodup⟩
  intro i hi
  exact ⟨(hs.state i).mpr (.inr hi), fun c hok hc => hs.not_dispatched (by simp [hi]) hok hc⟩

/-- A process is freed while it has the CPU, and its slot is handed out and added again. -/
theorem freed_never_scheduled_current : ∃ s, Run (guarded LifeSys.Ok LifeSys.exec) LifeSys.start
      [.alloc, .add (some (.slot 0)), .yield, .free (some (.slot 0)), .yield, .alloc] s ∧
    (s.exec (.add (some (.slot 0)))).sched.queued.count (some (.slot 0)) = 1 := by
  have hrun := run_guarded_iff.mpr ⟨show Admissible LifeSys.Ok LifeSys.exec LifeSys.start
    [.alloc, .add (some (.slot 0)), .yield, .free (some (.slot 0)), .yield, .alloc]
    by decide +kernel, rfl⟩
  exact ⟨_, hrun, (freed_never_scheduled hrun).2.1 0 (by decide +kernel)⟩

/-- A process is freed while it is queued: the next yield runs the freed slot, and a second
owner of the slot that is added is queued twice. -/
theorem freed_slot_scheduled : ∃ s, Run (guarded (fun _ _ => True) LifeSys.exec) LifeSys.start
      [.alloc, .add (some (.slot 0)), .free (some (.slot 0))] s ∧
    s.life 0 = .freed ∧ (schedYield s.sched).cpu.current = some (.slot 0) ∧
    ((schedYield s.sched).procs (.slot 0)).state = .running ∧
    (((s.exec .alloc).exec (.add (some (.slot 0)))).sched.queued.count (some (.slot 0))) = 2 := by
  exact ⟨_, run_unguarded _ _, by decide +kernel, by decide +kernel, by decide +kernel, by decide +kernel⟩

end RiscvOs.Scheduler
