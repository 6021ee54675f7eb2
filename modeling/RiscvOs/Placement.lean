import RiscvOs.Conservation
import RiscvOs.Routing
set_option autoImplicit false

/-!
Every process that was ever added has exactly one place, on the CPU or in a queue, as
long as the calls keep to normal and round-robin processes and to the rules of `PlaceOk`.
-/

namespace RiscvOs.Scheduler
open WordMemory Queues Runs

/-- Only processes that are neither queued nor current are added, and only processes of the
table that are not queued get another priority or policy. Nothing is freed. -/
def PlaceOk (s : Sched) : SchedCall → Prop
  | .add p => p ≠ some .idle ∧ p ∉ s.queued ∧ (p ≠ none → s.cpu.current ≠ p)
  | .setPriority p _ => p ≠ some .idle ∧ p ∉ s.queued
  | .setPolicy p policy => p ≠ some .idle ∧ p ∉ s.queued ∧ (policy = .normal ∨ policy = .rr)
  | .free _ => False
  | _ => True

instance PlaceOk.decidable (s : Sched) : (c : SchedCall) → Decidable (PlaceOk s c)
  | .add p => inferInstanceAs
    (Decidable (p ≠ some .idle ∧ p ∉ s.queued ∧ (p ≠ none → s.cpu.current ≠ p)))
  | .setPriority p _ => inferInstanceAs (Decidable (p ≠ some .idle ∧ p ∉ s.queued))
  | .setPolicy p policy => inferInstanceAs
    (Decidable (p ≠ some .idle ∧ p ∉ s.queued ∧ (policy = .normal ∨ policy = .rr)))
  | .free _ => inferInstanceAs (Decidable False)
  | .alloc | .yield | .tick | .tickHead | .tickTail => inferInstanceAs (Decidable True)

/-- The invariant, for the processes `added` so far. -/
structure Placed (added : ProcRef → Prop) (s : Sched) : Prop where
  distinct : Distinct s
  routed : Routed s
  table : ∀ i, (s.procs (.slot i)).policy = .normal ∨ (s.procs (.slot i)).policy = .rr
  current : ∀ p, s.cpu.current = some p → (s.procs p).state = .running ∧ (p = .idle ∨ added p)
  queued : ∀ p, some p ∈ s.queued → (s.procs p).state = .runnable ∧ p ≠ .idle ∧ added p
  placed : ∀ p, added p → p ≠ .idle ∧ (s.cpu.current = some p ∨ some p ∈ s.queued)
  full : s.fullReturns = 0

section Placed

variable {s t : Sched} {p : ProcRef} {added : ProcRef → Prop}

theorem Placed.start : Placed (fun _ => False) Sched.start := by
  refine ⟨Distinct.start, Routed.start, fun _ => .inl rfl, ?_, ?_, ?_, rfl⟩
  · intro p hp
    cases hp
  · intro p hp
    simp [start_queued] at hp
  · intro p hp
    cases hp

theorem Placed.policy (h : Placed added s) (hp : p ≠ .idle) :
    (s.procs p).policy = .normal ∨ (s.procs p).policy = .rr := by
  cases p with
  | slot i => exact h.table i
  | idle => exact absurd rfl hp

theorem Placed.quiet (h : Placed added s) (hq : Quiet s t) : Placed added t := by
  refine ⟨h.distinct.quiet hq, h.routed.quiet hq, ?_, ?_, ?_, ?_, hq.fullReturns.trans h.full⟩
  · intro i
    rw [(hq.sameClass _).1]
    exact h.table i
  · intro p hp
    rw [hq.state]
    exact h.current p (hq.current ▸ hp)
  · intro p hp
    rw [hq.state]
    exact h.queued p (hq.queued ▸ hp)
  · intro p hp
    rw [hq.current, hq.queued]
    exact h.placed p hp

/-- A process of the table that is neither current nor queued gets another value. -/
theorem Placed.rewrites (h : Placed added s) (hr : Rewrites p s t) (hp : p ≠ .idle)
    (hq : some p ∉ s.queued) (hstate : (t.procs p).state = .running ↔ (s.procs p).state = .running)
    (hpol : (t.procs p).policy = .normal ∨ (t.procs p).policy = .rr) : Placed added t := by
  refine ⟨h.distinct.rewrites hr hstate.mp, h.routed.rewrites hr hq, ?_, ?_, ?_, ?_,
    hr.fullReturns.trans h.full⟩
  · intro i
    by_cases hi : .slot i = p
    · rwa [hi]
    · rw [hr.others _ hi]
      exact h.table i
  · intro q hc
    rw [hr.cpu] at hc
    obtain ⟨hrun, ha⟩ := h.current q hc
    refine ⟨?_, ha⟩
    by_cases he : q = p
    · subst he
      exact hstate.mpr hrun
    · rwa [hr.others q he]
  · intro q hm
    rw [hr.queued] at hm
    have hne : q ≠ p := fun he => hq (he ▸ hm)
    rw [hr.others q hne]
    exact h.queued q hm
  · intro q ha
    rw [hr.cpu, hr.queued]
    exact h.placed q ha

theorem Placed.length_lt (h : Placed added s) (hp : p ≠ .idle) (hq : some p ∉ s.queued) :
    s.queued.length < maxProcesses :=
  h.distinct.length_lt hp hq (fun hm => (h.queued _ hm).2.1 rfl)

theorem Placed.add (h : Placed added s) (hp : p ≠ .idle) (hq : some p ∉ s.queued)
    (hc : s.cpu.current ≠ some p) :
    Placed (fun q => added q ∨ q = p) (schedAdd s (some p)) := by
  have hpol := h.policy hp
  have hroom : s.room p = true := by
    refine room_of_length (h.length_lt hp hq) ?_
    rcases hpol with hpol | hpol <;> simp [hpol]
  have hperm := schedAdd_perm (p := p) h.distinct.ok
  rw [hroom, if_pos rfl] at hperm
  have hclass := schedAdd_class (s := s) (some p)
  refine ⟨h.distinct.add hq, h.routed.add h.distinct.ok _, ?_, ?_, ?_, ?_, ?_⟩
  · intro i
    rw [(hclass _).1]
    exact h.table i
  · intro q hcq
    rw [schedAdd_cpu] at hcq
    obtain ⟨hrun, ha⟩ := h.current q hcq
    have hne : q ≠ p := fun he => hc (he ▸ hcq)
    rw [schedAdd_state, if_neg hne]
    exact ⟨hrun, ha.imp_right .inl⟩
  · intro q hm
    rw [schedAdd_state]
    rcases List.mem_cons.mp (hperm.mem_iff.mp hm) with he | hm
    · cases he
      simp [hp]
    · obtain ⟨hst, hi, ha⟩ := h.queued q hm
      simp [hst, hi, ha]
  · intro q ha
    rw [schedAdd_cpu, hperm.mem_iff, List.mem_cons]
    rcases ha with ha | rfl
    · obtain ⟨hi, hpl⟩ := h.placed q ha
      exact ⟨hi, hpl.imp_right .inr⟩
    · exact ⟨hp, .inr (.inl rfl)⟩
  · rw [schedAdd_fullReturns hroom, h.full]

/-- What is in the queues of `u` and in which state, after the current process of `s` has left
the CPU with the queues of `t`. -/
structure Left (s t u : Sched) : Prop where
  queued : ∀ q, some q ∈ u.queued ↔ some q ∈ t.queued ∨ s.cpu.current = some q ∧ q ≠ .idle
  state : ∀ q, (u.procs q).state = if s.cpu.current = some q then .runnable else (s.procs q).state
  full : u.fullReturns = t.fullReturns

theorem left_idle (hprocs : SameProcs s t) (hc : s.cpu.current = some .idle)
    (hidle : t.cpu.idle = some .idle) : Left s t (requeue t .idle) := by
  have hcase := requeue_case (s := t) (p := .idle)
  generalize requeue t .idle = u at hcase
  cases hcase with
  | @idle u _ hu =>
    refine ⟨?_, ?_, hu.fullReturns⟩
    · intro q
      rw [modify_queued, hu.queued, hc]
      constructor
      · exact .inl
      · intro hm
        rcases hm with hm | ⟨he, hi⟩
        · exact hm
        · exact absurd (Option.some.inj he).symm hi
    · intro q
      rw [modify_procs, hc]
      by_cases hq : q = .idle
      · simp [hq]
      · simp [hq, Ne.symm hq, hu.state, hprocs.state]
  | added he => exact absurd hidle.symm he
  | dropped he => exact absurd hidle.symm he

theorem left_table (hok : QueuesOk t) (hprocs : SameProcs s t) (hc : s.cpu.current = some p)
    (hp : p ≠ .idle) (hidle : t.cpu.idle = some .idle)
    (hpol : (t.procs p).policy = .normal ∨ (t.procs p).policy = .rr)
    (hlen : t.queued.length < maxProcesses) : Left s t (requeue t p) := by
  have hti : some p ≠ t.cpu.idle := by
    rw [hidle]
    exact fun he => hp (Option.some.inj he)
  obtain ⟨hperm, hstate, hfull⟩ := requeue_perm hok hti hpol hlen
  refine ⟨?_, ?_, hfull⟩
  · intro q
    rw [hperm.mem_iff, List.mem_cons, hc]
    constructor
    · intro hm
      rcases hm with he | hm
      · cases he
        exact .inr ⟨rfl, hp⟩
      · exact .inl hm
    · intro hm
      rcases hm with hm | ⟨he, _⟩
      · exact .inr hm
      · exact .inl he.symm
  · intro q
    rw [hstate, hprocs.state, hc]
    by_cases he : q = p
    · simp [he]
    · simp [he, Ne.symm he]

theorem Placed.leave (h : Placed added s) (hok : QueuesOk t) (hprocs : SameProcs s t)
    (hlen : t.queued.length ≤ s.queued.length) : Left s t (switchOut t s.cpu.current) := by
  have hidle : t.cpu.idle = some .idle := by rw [hprocs.cpu, h.distinct.idle]
  cases hc : s.cpu.current with
  | none => exact ⟨by simp [switchOut, hc], by simp [switchOut, hc, hprocs.state], rfl⟩
  | some p =>
    have hrun := (h.current p hc).1
    have hout : switchOut t (some p) = requeue t p := if_pos (by rw [hprocs.state, hrun])
    rw [hout]
    by_cases hp : p = .idle
    · subst hp
      exact left_idle hprocs hc hidle
    · have hq := (h.distinct.running p hrun).2
      refine left_table hok hprocs hc hp hidle ?_ (hlen.trans_lt (h.length_lt hp hq))
      rw [(hprocs.sameClass p).1]
      exact h.policy hp

theorem NextCase.length_le {x : ProcPtr} (h : NextCase s x t) :
    t.queued.length ≤ s.queued.length := by
  rcases h.perm with hperm | ⟨_, _, rfl⟩
  · rw [hperm.length_eq, List.length_cons]
    omega
  · exact Nat.le_refl _

/-- Where the processes are after a switch to the process `x`. -/
theorem Placed.switch {x : ProcRef} (h : Placed added s) (hnext : NextCase s (some x) t)
    (hx : some x ∉ t.queued) (hcur : s.cpu.current ≠ some x) {u : Sched} (hu : Left s t u) :
    (x = .idle ∨ added x) ∧
    (∀ p, some p ∈ u.queued → p ≠ x ∧ (u.procs p).state = .runnable ∧ p ≠ .idle ∧ added p) ∧
    ∀ p, added p → p ≠ .idle ∧ (x = p ∨ some p ∈ u.queued) := by
  refine ⟨?_, ?_, ?_⟩
  · rcases hnext.perm with hperm | ⟨_, he, _⟩
    · exact .inr (h.queued x (hperm.mem_iff.mpr List.mem_cons_self)).2.2
    · rw [h.distinct.idle] at he
      exact .inl (Option.some.inj he)
  · intro p hp
    rw [hu.queued] at hp
    rw [hu.state]
    rcases hp with hp | ⟨hp, hi⟩
    · obtain ⟨hst, hi, ha⟩ := h.queued p (hnext.mem_queued hp)
      have hne : p ≠ x := fun he => hx (he ▸ hp)
      simp [hst, hi, ha, hne]
    · have hne : p ≠ x := fun he => hcur (he ▸ hp)
      simp [hp, hi, hne, (h.current p hp).2.resolve_left hi]
  · intro p ha
    obtain ⟨hi, hpl⟩ := h.placed p ha
    refine ⟨hi, ?_⟩
    rw [hu.queued]
    rcases hpl with hpl | hpl
    · exact .inr (.inr ⟨hpl, hi⟩)
    · rcases hnext.perm with hperm | ⟨hnil, _, _⟩
      · rcases List.mem_cons.mp (hperm.mem_iff.mp hpl) with he | hm
        · exact .inl (Option.some.inj he).symm
        · exact .inr (.inl hm)
      · rw [hnil] at hpl
        cases hpl

theorem Placed.yield (h : Placed added s) : Placed added (schedYield s) := by
  have hreq : s.Requeues := fun p _ _ hp => h.policy hp
  have hd := h.distinct.yield hreq
  have hr := h.routed.yield h.distinct.ok h.distinct.idle
  have hclass := schedYield_class h.distinct.ok h.distinct.idle
  have htable (i : Fin 64) : ((schedYield s).procs (.slot i)).policy = .normal ∨
      ((schedYield s).procs (.slot i)).policy = .rr := by
    rw [(hclass _).1]
    exact h.table i
  have hcase := schedYield_case h.distinct.ok h.distinct.idle
  generalize schedYield s = u at hcase hd hr htable
  cases hcase with
  | @same x _ hnext _ _ _ hcur =>
    -- Only the idle process can be chosen while it has the CPU.
    rcases hnext.perm with hperm | ⟨_, _, rfl⟩
    · have hx := hperm.mem_iff.mpr List.mem_cons_self
      have hst := (h.queued x hx).1
      simp [(h.current x hcur).1] at hst
    · exact h
  | @switch x t hnext hok hprocs hfull hcur =>
    have hleft := h.leave hok hprocs hnext.length_le
    have hx := (h.distinct.next hnext hok hprocs).2
    obtain ⟨hadded, hqueued, hplaced⟩ := h.switch hnext hx hcur hleft
    refine ⟨hd, hr, htable, ?_, ?_, ?_, hleft.full.trans (hfull.trans h.full)⟩
    · intro p hp
      cases hp
      exact ⟨by simp [switchIn_state], hadded⟩
    · intro p hp
      obtain ⟨hne, hst⟩ := hqueued p hp
      rwa [switchIn_state, if_neg hne]
    · intro p ha
      rw [switchIn_current, switchIn_queued, Option.some.injEq]
      exact hplaced p ha

theorem Placed.aging (h : Placed added s) : Placed added (agingPass s) := by
  have ha := agingPass_aged h.distinct.ok
  have hlevels : (allLevels s.level).length ≤ maxProcesses := by
    have hle := h.distinct.length_le fun hm => (h.queued .idle hm).2.1 rfl
    rw [Sched.queued, List.length_append] at hle
    omega
  have hq := ha.queued_eq (fun x hx => h.routed.lower_normal h.distinct.ok hx) hlevels
  refine ⟨h.distinct.aging, h.routed.aging h.distinct.ok, ?_, ?_, ?_, ?_, ?_⟩
  · intro i
    rw [(ha.procs.sameClass _).1]
    exact h.table i
  · intro p hp
    rw [ha.procs.state]
    exact h.current p (ha.procs.cpu ▸ hp)
  · intro p hp
    rw [ha.procs.state]
    exact h.queued p (hq ▸ hp)
  · intro p hp
    rw [ha.procs.cpu, hq]
    exact h.placed p hp
  · rw [ha.full hlevels, h.full]

theorem Placed.ticks (h : Placed added s) :
    Placed added (tickHead s) ∧ Placed added (tickTail s) ∧ Placed added (schedTick s) :=
  tick_invariant (I := Placed added) (fun _ _ hs hq => hs.quiet hq) (fun _ _ hs _ _ => hs.yield)
    (fun _ hs => hs.aging) h

/-- The processes that the calls `calls` have added. -/
def AddedBy (calls : List SchedCall) (p : ProcRef) : Prop := .add (some p) ∈ calls

theorem Placed.exec_of_not_add {c : SchedCall} (h : Placed added s) (hok : PlaceOk s c)
    (hc : ∀ p, c ≠ .add (some p)) : Placed added (s.exec c) := by
  cases c with
  | alloc =>
    rcases processAlloc_case s with he | ⟨i, hu, hr, _, hp⟩
    · simp only [Sched.exec, he]
      exact h
    · refine h.rewrites hr (by simp) ?_ ?_ ?_
      · intro hm
        simp [(h.queued _ hm).1] at hu
      · simp [Sched.exec, hp, hu, Process.alloc]
      · simp [Sched.exec, hp, Process.alloc]
  | free p => exact hok.elim
  | add p =>
    cases p with
    | none => exact h
    | some p => exact absurd rfl (hc p)
  | yield => exact h.yield
  | tick => exact h.ticks.2.2
  | tickHead => exact h.ticks.1
  | tickTail => exact h.ticks.2.1
  | setPriority p v =>
    cases p with
    | none => exact h
    | some p =>
      have hi : p ≠ .idle := fun he => hok.1 (congrArg some he)
      obtain ⟨hst, _, hpol⟩ := schedSetPriority_procs (s := s) p v
      refine h.rewrites (schedSetPriority_rewrites p v) hi hok.2 ?_ ?_
      · rw [Sched.exec, hst]
      · rw [Sched.exec, hpol]
        split
        · exact .inr rfl
        · exact h.policy hi
  | setPolicy p policy =>
    cases p with
    | none => exact h
    | some p =>
      have hi : p ≠ .idle := fun he => hok.1 (congrArg some he)
      refine h.rewrites (schedSetPolicy_rewrites p policy) hi hok.2.1 ?_ ?_
      · simp [Sched.exec, schedSetPolicy]
      · simpa [Sched.exec, schedSetPolicy] using hok.2.2

theorem Placed.exec {calls : List SchedCall} {c : SchedCall} (h : Placed (AddedBy calls) s)
    (hok : PlaceOk s c) : Placed (AddedBy (calls ++ [c])) (s.exec c) := by
  by_cases hc : ∃ p, c = .add (some p)
  · obtain ⟨p, rfl⟩ := hc
    have ha : AddedBy (calls ++ [.add (some p)]) = fun q => AddedBy calls q ∨ q = p := by
      funext q
      simp [AddedBy]
    rw [ha]
    obtain ⟨hi, hq, hc⟩ := hok
    exact h.add (fun he => hi (congrArg some he)) hq (hc (by simp))
  · have hne (p : ProcRef) : c ≠ .add (some p) := fun he => hc ⟨p, he⟩
    have ha : AddedBy (calls ++ [c]) = AddedBy calls := by
      funext p
      simp [AddedBy, (hne p).symm]
    rw [ha]
    exact h.exec_of_not_add hok hne

end Placed

/-- Every process that was ever added has one place: it is current and running, or it is
runnable and queued once. Nothing else is running, idle is not queued, and no process was
dropped at a full queue. -/
theorem every_process_placed {calls : List SchedCall} {s : Sched}
    (h : Run (guarded PlaceOk Sched.exec) Sched.start calls s) :
    (∀ p, .add (some p) ∈ calls →
      (s.cpu.current = some p ∧ (s.procs p).state = .running ∧ s.queued.count (some p) = 0) ∨
      (s.cpu.current ≠ some p ∧ (s.procs p).state = .runnable ∧ s.queued.count (some p) = 1)) ∧
    (∀ p, (s.procs p).state = .running →
      s.cpu.current = some p ∧ (p = .idle ∨ .add (some p) ∈ calls)) ∧
    some .idle ∉ s.queued ∧ s.fullReturns = 0 := by
  have hs : Placed (AddedBy calls) s := by
    refine h.history (fun calls s => Placed (AddedBy calls) s) ?_ ?_
    · intro calls s c t hs hstep
      rw [hstep.2]
      exact hs.exec hstep.1
    · have hnone : AddedBy [] = fun _ => False := by
        funext p
        simp [AddedBy]
      rw [hnone]
      exact Placed.start
  refine ⟨?_, ?_, fun hm => (hs.queued _ hm).2.1 rfl, hs.full⟩
  · intro p hp
    rcases (hs.placed p hp).2 with hc | hm
    · have hrun := (hs.current p hc).1
      exact .inl ⟨hc, hrun, List.count_eq_zero_of_not_mem (hs.distinct.running p hrun).2⟩
    · have hst := (hs.queued p hm).1
      refine .inr ⟨?_, hst, List.count_eq_one_of_mem hs.distinct.nodup hm⟩
      intro hc
      simp [(hs.current p hc).1] at hst
  · intro p hp
    obtain ⟨hc, _⟩ := hs.distinct.running p hp
    exact ⟨hc, (hs.current p hc).2⟩

/-- A real-time and a normal process take turns: the real-time one is back in its queue. -/
theorem every_process_placed_two : ∃ s, Run (guarded PlaceOk Sched.exec) Sched.start
      [.alloc, .alloc, .setPriority (some (.slot 1)) 50, .add (some (.slot 0)),
        .add (some (.slot 1)), .yield, .tick] s ∧
    s.queued.count (some (.slot 1)) = 1 := by
  have hrun := run_guarded_iff.mpr ⟨show Admissible PlaceOk Sched.exec Sched.start
    [.alloc, .alloc, .setPriority (some (.slot 1)) 50, .add (some (.slot 0)),
      .add (some (.slot 1)), .yield, .tick] by decide +kernel, rfl⟩
  refine ⟨_, hrun, ?_⟩
  rcases (every_process_placed hrun).1 (.slot 1) (by simp) with hc | hc
  · exact absurd hc.1 (by decide +kernel)
  · exact hc.2.2

end RiscvOs.Scheduler
