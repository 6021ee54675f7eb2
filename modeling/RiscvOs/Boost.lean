import RiscvOs.LevelMoves
set_option autoImplicit false

/-!
Whom the aging part of `sched_tick` reaches. It follows the switch of an expired process, so
a process that loses the CPU at a tick gets to it only when it has the CPU again, and it
looks at the lower queues only.
-/

namespace RiscvOs.Scheduler
open WordMemory Queues Runs

/-- The process that has the CPU when `sched_tick` gets to its aging part or has switched. -/
def Sched.holder (s : Sched) : ProcPtr :=
  match s.cpu.current with
  | none => none
  | some p =>
    if (s.procs p).timeSlice.toNat ≤ 1 ∧ (s.procs p).policy = .normal then s.nextUp else some p

/-- What every call keeps. -/
structure Steady (s : Sched) : Prop where
  classed : Classed (· = .normal) s
  levels : ∀ q, 0 ≤ (s.procs q).queueLevel
  running : ∀ q, (s.procs q).state = .running → s.cpu.current = some q
  used : ∀ p, s.cpu.current = some p → (s.procs p).state ≠ .unused

/-- A normal process that has the CPU has time left. -/
def Sliced (s : Sched) : Prop :=
  ∀ p, s.cpu.current = some p → (s.procs p).policy = .normal → (s.procs p).timeSlice ≠ 0#64

/-- The process `x`, if it is a normal one, and the processes of the top queue are at level 0. -/
def Sched.AtTop (s : Sched) (x : ProcPtr) : Prop :=
  (∀ p, x = some p → (s.procs p).policy = .normal → (s.procs p).queueLevel = 0) ∧
  ∀ p, some p ∈ s.level topLevel → (s.procs p).queueLevel = 0

/-- A running process that loses the CPU at the next tick is not in the top queue as well. -/
def Sched.OustedApart (s : Sched) : Prop :=
  ∀ p, s.cpu.current = some p → s.holder ≠ some p → (s.procs p).state = .running → some p ∉ s.level topLevel

/-- Every normal process that is queued or running is at level 0. -/
def Sched.AllBoosted (s : Sched) : Prop :=
  ∀ p, (s.procs p).policy = .normal →
    some p ∈ s.queued ∨ s.cpu.current = some p ∨ (s.procs p).state = .running → (s.procs p).queueLevel = 0

section Steady

variable {s t : Sched}

theorem Steady.start : Steady Sched.start := by
  refine ⟨.start rfl, ?_, ?_, ?_⟩
  · intro q
    cases q <;> simp [Sched.start, schedulerInit, initIdleProcess, modify_procs, Sched.boot, Process.zero]
  · intro q hq
    exact absurd hq (start_state q)
  · intro p hp
    cases hp

theorem Steady.policy (h : Steady s) (p : ProcRef) : (s.procs p).policy = .normal ∨ (s.procs p).policy = .idle := by
  cases p with
  | slot i => exact .inl (h.classed.table i)
  | idle => exact .inr h.classed.idlePolicy

theorem Steady.quiet (h : Steady s) (hq : Quiet s t)
    (hlevels : ∀ q, (t.procs q).queueLevel = (s.procs q).queueLevel) : Steady t := by
  refine ⟨h.classed.quiet hq, ?_, ?_, ?_⟩
  · intro q
    rw [hlevels]
    exact h.levels q
  · intro q hr
    rw [hq.state] at hr
    rw [hq.current, h.running q hr]
  · intro p hp
    rw [hq.state]
    exact h.used p (hq.current ▸ hp)

/-- A slot that is free is not that of the current process. -/
theorem Steady.current_ne (h : Steady s) {p q : ProcRef} (hp : s.cpu.current = some p)
    (hq : (s.procs q).state = .unused) : p ≠ q := by
  rintro rfl
  exact h.used p hp hq

theorem Steady.alloc (h : Steady s) : Steady (processAlloc s).2 := by
  have hclassed := h.classed.alloc rfl
  rcases processAlloc_case s with he | ⟨i, hfree, hr, _, hp⟩
  · rwa [he]
  · refine ⟨hclassed, ?_, ?_, ?_⟩
    · intro q
      by_cases hq : q = .slot i
      · subst hq
        rw [hp]
        exact le_refl _
      · rw [hr.others q hq]
        exact h.levels q
    · intro q hq
      by_cases hqi : q = .slot i
      · subst hqi
        rw [hp] at hq
        cases hq
      · rw [hr.others q hqi] at hq
        rw [hr.cpu, h.running q hq]
    · intro q hq
      rw [hr.cpu] at hq
      rw [hr.others q (h.current_ne hq hfree)]
      exact h.used q hq

theorem Steady.add (h : Steady s) (p : ProcRef) : Steady (schedAdd s (some p)) := by
  refine ⟨h.classed.add (some p), ?_, ?_, ?_⟩
  · intro q
    rw [(schedAdd_fields p q).1]
    exact h.levels q
  · intro q hq
    rw [schedAdd_state] at hq
    split at hq
    · cases hq
    · rw [schedAdd_cpu, h.running q hq]
  · intro q hq
    rw [schedAdd_cpu] at hq
    rw [schedAdd_state]
    split
    · decide
    · exact h.used q hq

theorem Steady.nextUp_queued (h : Steady s) {p : ProcRef} (hp : s.nextUp = some p)
    (hn : (s.procs p).policy = .normal) : some p ∈ s.queued := by
  unfold Sched.nextUp at hp
  cases hq : s.queued with
  | nil =>
    rw [hq, List.head?_nil, Option.getD_none, h.classed.serving.idle] at hp
    cases hp
    simp [h.classed.idlePolicy] at hn
  | cons x xs =>
    rw [hq, List.head?_cons, Option.getD_some] at hp
    simp [hp]

theorem Steady.yield (h : Steady s) : Steady (schedYield s) ∧ Sliced (schedYield s) := by
  have hy := schedYield_yields h.classed
  have hclass := schedYield_class h.classed.serving.ok h.classed.serving.idle
  refine ⟨⟨h.classed.yield, ?_, ?_, ?_⟩, ?_⟩
  · intro q
    have hq := h.levels q
    rcases hy.level q with hl | ⟨_, _, _, _, hl⟩
    · rwa [hl]
    · rw [hl]
      omega
  · intro q hq
    rcases hy.running q hq with hc | ⟨hc, hr⟩
    · exact hc
    · exact absurd (h.running q hr) hc
  · intro p hp
    rcases hy.used p hp with hr | ⟨hc, he⟩
    · rw [hr]
      decide
    · rw [he]
      exact h.used p hc
  · intro p hp hn
    rcases hy.slice p hp with hidle | hs
    · rw [h.classed.serving.idle] at hidle
      cases hidle
      rw [(hclass _).1, h.classed.idlePolicy] at hn
      cases hn
    · exact hs

theorem Steady.aging (h : Steady s) : Steady (agingPass s) := by
  have ha := agingPass_aged h.classed.serving.ok
  have hl := (agingPass_lifts h.classed.serving.ok).1
  refine ⟨h.classed.aging, ?_, ?_, ?_⟩
  · intro q
    rcases hl q with he | he
    · rw [he]
      exact h.levels q
    · rw [he]
      exact le_refl _
  · intro q hq
    rw [ha.procs.state] at hq
    rw [ha.procs.cpu, h.running q hq]
  · intro p hp
    rw [ha.procs.state]
    exact h.used p (ha.procs.cpu ▸ hp)

theorem Sliced.aging (h : Sliced s) (hok : QueuesOk s) : Sliced (agingPass s) := by
  have ha := agingPass_aged hok
  intro p hp hn
  rw [ha.procs.cpu] at hp
  rw [(ha.procs.sameClass p).1] at hn
  rcases (agingPass_lifts hok).1 p with he | he
  · rw [he]
    exact h p hp hn
  · rw [he]
    exact of_decide_eq_true rfl

/-- The aging pass reaches the lower queues; the rest must be at level 0 already. -/
theorem Steady.boosted (h : Steady s) (htop : s.AtTop s.cpu.current) : (agingPass s).AllBoosted := by
  have hok := h.classed.serving.ok
  have ha := agingPass_aged hok
  obtain ⟨hlift, hlow⟩ := agingPass_lifts hok
  intro p hn hp
  rw [(ha.procs.sameClass p).1] at hn
  rw [ha.procs.cpu, ha.procs.state] at hp
  have hcur (hc : s.cpu.current = some p) : ((agingPass s).procs p).queueLevel = 0 :=
    hlift.level_zero (htop.1 p hc hn)
  rcases hp with hq | hc | hr
  · rcases mem_queued.mp (ha.sublist.subset hq) with hq | ⟨l, hq⟩
    · rw [h.classed.rt_nil] at hq
      cases hq
    · by_cases hl : l = 0
      · subst hl
        exact hlift.level_zero (htop.2 p hq)
      · exact hlow l hl p hq hn
  · exact hcur hc
  · exact hcur (h.running p hr)

/-- After a yield that puts no demoted process into the top queue, the top is as it was. -/
theorem Steady.yield_atTop (h : Steady s) (htop : s.AtTop s.nextUp)
    (hdemote : ∀ p, s.cpu.current = some p → s.nextUp ≠ some p → (s.procs p).state = .running →
      (s.procs p).timeSlice = 0#64 → some p ∉ s.level 0) :
    (schedYield s).AtTop (schedYield s).cpu.current := by
  have hy := schedYield_yields h.classed
  have hclass := schedYield_class h.classed.serving.ok h.classed.serving.idle
  have hlevels := h.yield.1.levels
  refine ⟨?_, ?_⟩
  · intro p hp hn
    rw [hy.current] at hp
    rw [(hclass p).1] at hn
    rcases hy.level p with hl | ⟨_, hne, _⟩
    · rw [hl]
      exact htop.1 p hp hn
    · exact absurd hp hne
  · intro p hp
    rcases hy.top p hp with hold | ⟨_, _, hl⟩
    · rcases hy.level p with hl | ⟨hc, hne, hr, hs, _⟩
      · rw [hl]
        exact htop.2 p hold
      · exact absurd hold (hdemote p hc hne hr hs)
    · have hpos := hlevels p
      omega

theorem Sched.AllBoosted.yield (h : s.AllBoosted) (hs : Steady s) (hslice : Sliced s) :
    (schedYield s).AllBoosted := by
  have hy := schedYield_yields hs.classed
  have hclass := schedYield_class hs.classed.serving.ok hs.classed.serving.idle
  intro p hn hp
  rw [(hclass p).1] at hn
  have hcur (hc : (schedYield s).cpu.current = some p) : some p ∈ s.queued :=
    hs.nextUp_queued (hy.current ▸ hc) hn
  have hold : some p ∈ s.queued ∨ s.cpu.current = some p ∨ (s.procs p).state = .running := by
    rcases hp with hq | hc | hr
    · rcases hy.queued p hq with hq | hc
      · exact .inl hq
      · exact .inr (.inl hc)
    · exact .inl (hcur hc)
    · rcases hy.running p hr with hc | ⟨_, hr⟩
      · exact .inl (hcur hc)
      · exact .inr (.inr hr)
  rcases hy.level p with hl | ⟨hc, _, _, hz, _⟩
  · rw [hl]
    exact h p hn hold
  · exact absurd hz (hslice p hc hn)

theorem schedYield_globalTicks (s : Sched) : (schedYield s).globalTicks = s.globalTicks := by
  rcases schedYield_dispatch s with h | ⟨_, h⟩
  · exact h.globalTicks
  · exact h.globalTicks

theorem tickHead_of_none (hcur : s.cpu.current = none) : Quiet s (tickHead s) ∧
    (tickHead s).procs = s.procs := by
  have heq : tickHead s = { s with
      globalTicks := s.globalTicks + 1#64
      cpu := { s.cpu with ticks := s.cpu.ticks + 1#64 } } := by
    simp only [tickHead]
    split
    · rfl
    · rename_i p hp
      rw [hcur] at hp
      cases hp
  rw [heq]
  exact ⟨⟨rfl, rfl, rfl, rfl, rfl, fun _ => rfl, .of_procs rfl⟩, rfl⟩

theorem Quiet.nextUp (h : Quiet s t) : t.nextUp = s.nextUp := by
  rw [Sched.nextUp, Sched.nextUp, h.queued, h.idle]

variable {p : ProcRef}

theorem Steady.tickHead (h : Steady s) (hcur : s.cpu.current = some p) :
    Steady (tickHead s) ∧ Sliced (tickHead s) ∧ (tickHead s).cpu.current = s.holder ∧
      (tickHead s).globalTicks = s.globalTicks + 1#64 := by
  obtain ⟨u, hquiet, hticks, hlevels, hlong, heq⟩ := tickHead_of_current hcur (h.policy p)
  have hu := h.quiet hquiet hlevels
  rw [heq, Sched.holder, hcur]
  by_cases hexpired : (s.procs p).timeSlice.toNat ≤ 1 ∧ (s.procs p).policy = .normal
  · simp only [if_pos hexpired]
    obtain ⟨hsteady, hsliced⟩ := hu.yield
    refine ⟨hsteady, hsliced, ?_, ?_⟩
    · rw [(schedYield_yields hu.classed).current, hquiet.nextUp]
    · rw [schedYield_globalTicks, hticks]
  · simp only [if_neg hexpired]
    refine ⟨hu, ?_, hquiet.current.trans hcur, hticks⟩
    intro q hq hn
    rw [hquiet.current, hcur] at hq
    cases hq
    rw [(hquiet.sameClass p).1] at hn
    apply hlong
    by_contra hshort
    exact hexpired ⟨by omega, hn⟩

theorem Steady.tickHead_atTop (h : Steady s) (hcur : s.cpu.current = some p) (htop : s.AtTop s.holder)
    (hapart : s.OustedApart) :
    (Scheduler.tickHead s).AtTop (Scheduler.tickHead s).cpu.current := by
  obtain ⟨u, hquiet, _, hlevels, _, heq⟩ := tickHead_of_current hcur (h.policy p)
  have hu := h.quiet hquiet hlevels
  have hat (x : ProcPtr) (hx : s.AtTop x) : u.AtTop x := by
    refine ⟨?_, ?_⟩
    · intro q hq hn
      rw [hlevels]
      rw [(hquiet.sameClass q).1] at hn
      exact hx.1 q hq hn
    · intro q hq
      rw [hlevels]
      rw [hquiet.level] at hq
      exact hx.2 q hq
  have hdemote := hapart p hcur
  rw [Sched.holder, hcur] at htop hdemote
  rw [heq]
  by_cases hexpired : (s.procs p).timeSlice.toNat ≤ 1 ∧ (s.procs p).policy = .normal
  · simp only [if_pos hexpired] at htop hdemote ⊢
    refine hu.yield_atTop ?_ ?_
    · rw [hquiet.nextUp]
      exact hat _ htop
    · intro q hq hne hr _
      rw [hquiet.current, hcur] at hq
      cases hq
      rw [hquiet.nextUp] at hne
      rw [hquiet.state] at hr
      rw [hquiet.level]
      exact hdemote hne hr
  · simp only [if_neg hexpired] at htop ⊢
    rw [hquiet.current, hcur]
    exact hat _ htop

end Steady

/-- The scheduler with what is outstanding: the processes that were switched out inside
`sched_tick`, whether the last tick was a hundredth one with a current process, and whether
some process has got to the aging part since. -/
structure AgingSys where
  sched : Sched
  inTick : ProcRef → Bool
  due : Bool
  aged : Bool

inductive AgingCall where
  | alloc
  | add (p : ProcPtr)
  | yield
  | tick
  deriving DecidableEq

/-- The process `x`, which has the CPU after a call, has the aging part before it: as the
caller, when the call was `sched_tick`, or from a tick it was switched out in. -/
def AgingSys.resumes (s : AgingSys) (ticking : Bool) (x : ProcPtr) : Bool :=
  if x = s.sched.cpu.current then ticking else x.any s.inTick

/-- What follows when the call has got to `t`. -/
def AgingSys.goOn (s : AgingSys) (ticking : Bool) (t : Sched) : AgingSys :=
  let tail := s.resumes ticking t.cpu.current
  { s with
    sched := if tail then tickTail t else t
    inTick := fun q =>
      if t.cpu.current = some q then false
      else if s.sched.cpu.current = some q then ticking else s.inTick q
    aged := s.aged || tail }

def AgingSys.exec (s : AgingSys) : AgingCall → AgingSys
  | .alloc => { s with sched := (processAlloc s.sched).2 }
  | .add p => { s with sched := schedAdd s.sched p }
  | .yield => s.goOn false (schedYield s.sched)
  | .tick =>
    let t := tickHead s.sched
    -- `sched_tick` returns at once when there is no process.
    if s.sched.cpu.current = none then { s with sched := t, due := false, aged := false }
    else { s with due := decide (t.globalTicks % 100#64 = 0#64), aged := false }.goOn true t

def AgingSys.start : AgingSys := ⟨Sched.start, fun _ => false, false, false⟩

/-- The aging part is reached before the next tick, and when it is, the process that has the
CPU and those of the top queue are at level 0. -/
def AgingSys.Ok (s : AgingSys) : AgingCall → Prop
  | .alloc => True
  | .add x => s.due = true → s.aged = true → ∀ p, x = some p → (s.sched.procs p).policy = .normal →
      (s.sched.procs p).queueLevel = 0
  | .yield => s.due = true → s.resumes false s.sched.nextUp = true → s.sched.AtTop s.sched.nextUp
  | .tick => (s.due = true → s.aged = true) ∧
      ((s.sched.globalTicks + 1#64) % 100#64 = 0#64 → s.sched.cpu.current ≠ none →
        s.resumes true s.sched.holder = true → s.sched.AtTop s.sched.holder ∧ s.sched.OustedApart)

instance (s : Sched) (x : ProcPtr) : Decidable (s.AtTop x) := inferInstanceAs (Decidable (_ ∧ _))

instance (s : Sched) : Decidable s.OustedApart := inferInstanceAs (Decidable (∀ _, _))

instance (s : Sched) : Decidable s.AllBoosted := inferInstanceAs (Decidable (∀ _, _))

instance AgingSys.Ok.decidable (s : AgingSys) : (c : AgingCall) → Decidable (s.Ok c)
  | .alloc => inferInstanceAs (Decidable True)
  | .add _ => inferInstanceAs (Decidable (_ → _ → ∀ _, _))
  | .yield => inferInstanceAs (Decidable (_ → _ → _))
  | .tick => inferInstanceAs (Decidable (_ ∧ (_ → _ → _ → _)))

structure AgingInv (s : AgingSys) : Prop where
  steady : Steady s.sched
  sliced : Sliced s.sched
  period : s.due = true → s.sched.globalTicks % 100#64 = 0#64
  boosted : s.due = true → s.aged = true → s.sched.AllBoosted

section Runs

variable {s : AgingSys} {t : Sched}

theorem AgingInv.start : AgingInv AgingSys.start := by
  refine ⟨.start, ?_, ?_, ?_⟩
  · intro p hp
    cases hp
  · intro h
    cases h
  · intro h
    cases h

theorem AgingInv.goOn {ticking : Bool} (hsteady : Steady t) (hsliced : Sliced t)
    (hperiod : s.due = true → t.globalTicks % 100#64 = 0#64)
    (htop : s.due = true → s.resumes ticking t.cpu.current = true → t.AtTop t.cpu.current)
    (hboosted : s.due = true → s.aged = true → t.AllBoosted) : AgingInv (s.goOn ticking t) := by
  unfold AgingSys.goOn
  by_cases htail : s.resumes ticking t.cpu.current = true
  · simp only [htail, if_true, Bool.or_true]
    have hticks := (tickTail_kept t).globalTicks
    refine ⟨?_, ?_, ?_, ?_⟩
    · simp only [tickTail]
      split
      · exact hsteady.aging
      · exact hsteady
    · simp only [tickTail]
      split
      · exact hsliced.aging hsteady.classed.serving.ok
      · exact hsliced
    · intro hdue
      rw [hticks]
      exact hperiod hdue
    · intro hdue _
      simp only [tickTail, if_pos (hperiod hdue)]
      exact hsteady.boosted (htop hdue htail)
  · simp only [Bool.not_eq_true] at htail
    simp only [htail, Bool.or_false]
    exact ⟨hsteady, hsliced, hperiod, hboosted⟩

theorem AgingInv.yield (h : AgingInv s) (hok : s.Ok .yield) : AgingInv (s.exec .yield) := by
  have hy := schedYield_yields h.steady.classed
  obtain ⟨hsteady, hsliced⟩ := h.steady.yield
  refine AgingInv.goOn hsteady hsliced ?_ ?_ ?_
  · intro hdue
    rw [schedYield_globalTicks]
    exact h.period hdue
  · intro hdue htail
    rw [hy.current] at htail
    refine h.steady.yield_atTop (hok hdue htail) ?_
    intro p hc _ _ hz
    -- A process that is not normal is the idle process, and that is never queued.
    rcases h.steady.policy p with hn | hi
    · exact absurd hz (h.sliced p hc hn)
    · intro hq
      rw [h.steady.classed.routed.level 0 p hq] at hi
      cases hi
  · intro hdue haged
    exact (h.boosted hdue haged).yield h.steady h.sliced

theorem AgingInv.tick (h : AgingInv s) (hok : s.Ok .tick) : AgingInv (s.exec .tick) := by
  simp only [AgingSys.exec]
  cases hcur : s.sched.cpu.current with
  | none =>
    obtain ⟨hquiet, hprocs⟩ := tickHead_of_none hcur
    simp only [if_true]
    refine ⟨h.steady.quiet hquiet fun q => by rw [hprocs], ?_, ?_, ?_⟩
    · intro p hp
      rw [hquiet.current, hcur] at hp
      cases hp
    · intro hdue
      cases hdue
    · intro hdue
      cases hdue
  | some p =>
    obtain ⟨hsteady, hsliced, hholder, hticks⟩ := h.steady.tickHead hcur
    simp only [reduceCtorEq, if_false]
    refine AgingInv.goOn hsteady hsliced ?_ ?_ ?_
    · intro hdue
      exact of_decide_eq_true hdue
    · intro hdue htail
      have hnow := of_decide_eq_true hdue
      rw [hticks] at hnow
      rw [hholder] at htail
      obtain ⟨htop, hapart⟩ := hok.2 hnow (by simp [hcur]) htail
      exact h.steady.tickHead_atTop hcur htop hapart
    · intro _ haged
      cases haged

theorem AgingInv.alloc (h : AgingInv s) : AgingInv (s.exec .alloc) := by
  simp only [AgingSys.exec]
  rcases processAlloc_case s.sched with he | ⟨i, hfree, hr, _, hp⟩
  · rw [he]
    exact h
  · have hsteady := h.steady.alloc
    have hticks : (processAlloc s.sched).2.globalTicks = s.sched.globalTicks := by
      unfold processAlloc
      split <;> rfl
    generalize (processAlloc s.sched).2 = t at hr hp hsteady hticks
    refine ⟨hsteady, ?_, ?_, ?_⟩
    · intro q hq hn
      rw [hr.cpu] at hq
      rw [hr.others q (h.steady.current_ne hq hfree)] at hn ⊢
      exact h.sliced q hq hn
    · intro hdue
      rw [hticks]
      exact h.period hdue
    · intro hdue haged q hn hq
      by_cases hqi : q = .slot i
      · subst hqi
        rw [hp]
        rfl
      · rw [hr.others q hqi] at hn hq ⊢
        rw [hr.queued, hr.cpu] at hq
        exact h.boosted hdue haged q hn hq

theorem AgingInv.add (h : AgingInv s) {x : ProcPtr} (hok : s.Ok (.add x)) : AgingInv (s.exec (.add x)) := by
  cases x with
  | none => exact h
  | some p =>
    simp only [AgingSys.exec]
    have hfields := schedAdd_fields (s := s.sched) p
    have hclass := schedAdd_class (s := s.sched) (some p)
    refine ⟨h.steady.add p, ?_, ?_, ?_⟩
    · intro q hq hn
      rw [schedAdd_cpu] at hq
      rw [(hclass q).1] at hn
      rw [(hfields q).2]
      exact h.sliced q hq hn
    · intro hdue
      rw [(schedAdd_kept _).globalTicks]
      exact h.period hdue
    · intro hdue haged q hn hq
      rw [(hclass q).1] at hn
      rw [(hfields q).1]
      by_cases hqp : q = p
      · subst hqp
        exact hok hdue haged q rfl hn
      · apply h.boosted hdue haged q hn
        rw [schedAdd_cpu, schedAdd_state, if_neg hqp] at hq
        rcases hq with hq | hq
        · rcases mem_schedAdd h.steady.classed.serving.ok hq with hq | hq
          · exact absurd (Option.some.inj hq) hqp
          · exact .inl hq
        · exact .inr hq

theorem AgingInv.exec {c : AgingCall} (h : AgingInv s) (hok : s.Ok c) : AgingInv (s.exec c) := by
  cases c with
  | alloc => exact h.alloc
  | add x => exact h.add hok
  | yield => exact h.yield hok
  | tick => exact h.tick hok

/-- In a run that gets to the aging part after each hundredth tick, with the process that has
the CPU and those of the top queue at level 0, all normal processes are at level 0 when the
next tick comes. -/
theorem aging_reaches_all {calls : List AgingCall} (h : Run (guarded AgingSys.Ok AgingSys.exec) AgingSys.start calls s)
    (hdue : s.due = true) (hnext : s.Ok .tick) : s.sched.AllBoosted := by
  have hinv : AgingInv s := h.guarded_invariant AgingInv (fun s c hs hok => hs.exec hok) .start
  exact hinv.boosted hdue (hnext.1 hdue)

/-- The hundredth tick finds slot 1 running at level 0 and boosts slot 0. -/
theorem aging_reaches_all_lower : ∃ s, Run (guarded AgingSys.Ok AgingSys.exec) AgingSys.start
      ([.alloc, .add (some (.slot 0)), .yield] ++ List.replicate 99 .tick ++
        [.alloc, .add (some (.slot 1)), .yield, .tick]) s ∧
    s.due = true ∧ s.sched.cpu.current = some (.slot 1) ∧ s.sched.queued = [some (.slot 0)] ∧
    s.sched.AllBoosted := by
  have hrun := run_guarded_iff.mpr ⟨show Admissible AgingSys.Ok AgingSys.exec AgingSys.start
    ([.alloc, .add (some (.slot 0)), .yield] ++ List.replicate 99 .tick ++
      [.alloc, .add (some (.slot 1)), .yield, .tick]) by decide +kernel, rfl⟩
  refine ⟨_, hrun, by decide +kernel, by decide +kernel, by decide +kernel, ?_⟩
  exact aging_reaches_all hrun (by decide +kernel) (by decide +kernel)

/-- The hundredth tick finds slot 0 running at level 1, where it stays; or it is the tick that
slot 0 is switched out in, which puts it down to level 1 and skips the aging part. -/
theorem aging_misses_processes :
    (∃ s, Run (guarded (fun _ _ => True) AgingSys.exec) AgingSys.start
        ([.alloc, .add (some (.slot 0)), .yield] ++ List.replicate 94 .tick ++
          [.yield] ++ List.replicate 6 .tick) s ∧
      s.due = true ∧ s.sched.cpu.current = some (.slot 0) ∧
      (s.sched.procs (.slot 0)).policy = .normal ∧ (s.sched.procs (.slot 0)).queueLevel = 1 ∧
      ¬ s.sched.AllBoosted) ∧
    ∃ s, Run (guarded (fun _ _ => True) AgingSys.exec) AgingSys.start
        (List.replicate 95 .tick ++ [.alloc, .add (some (.slot 0)), .yield] ++
          List.replicate 5 .tick) s ∧
      s.due = true ∧ some (.slot 0) ∈ s.sched.queued ∧
      (s.sched.procs (.slot 0)).policy = .normal ∧ (s.sched.procs (.slot 0)).queueLevel = 1 ∧
      ¬ s.sched.AllBoosted := by
  refine ⟨⟨_, run_unguarded _ _, ?_⟩, ⟨_, run_unguarded _ _, ?_⟩⟩
  · decide +kernel
  · decide +kernel

end Runs

end RiscvOs.Scheduler
