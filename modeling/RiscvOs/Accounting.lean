import RiscvOs.ProcessCore
import Mathlib.Algebra.BigOperators.Fin
set_option autoImplicit false

/-!
The books of the timer: the tick counters of the CPU, the CPU time of the processes, and the
percentages that `sched_print_stats` and `process_print_stats` make of them.
-/

namespace RiscvOs.Scheduler
open WordMemory Runs

/-- `busy_ticks` of `sched_print_stats`. -/
def busyTicks (s : Sched) : Word := s.cpu.ticks - s.cpu.idleTicks

/-- `usage` of `sched_print_stats`, which is printed when there have been ticks. -/
def cpuUsage (s : Sched) : Option Word :=
  if s.cpu.ticks > 0#64 then some (busyTicks s * 100#64 / s.cpu.ticks) else none

/-- `uptime` of `process_print_stats`. -/
def uptime (s : Sched) (p : ProcRef) : Word := s.globalTicks - (s.procs p).stats.startTime

/-- `cpu_percent` of `process_print_stats`. -/
def cpuPercent (s : Sched) (p : ProcRef) : Option Word :=
  if uptime s p > 0#64 then some ((s.procs p).stats.cpuTime * 100#64 / uptime s p) else none

/-- The scheduler with two counters that the source does not have: the calls of `sched_tick`,
and those of them that found no current process. -/
structure AcctSys where
  sched : Sched
  total : Nat
  lost : Nat

def SchedCall.isTick : SchedCall → Bool
  | .tick | .tickHead => true
  | _ => false

def AcctSys.Ok (s : AcctSys) (c : SchedCall) : Prop := c.isTick = true → s.total + 1 < 2^57

instance (s : AcctSys) (c : SchedCall) : Decidable (s.Ok c) := inferInstanceAs (Decidable (_ → _))

def AcctSys.exec (s : AcctSys) (c : SchedCall) : AcctSys where
  sched := s.sched.exec c
  total := s.total + if c.isTick then 1 else 0
  lost := s.lost + if c.isTick ∧ s.sched.cpu.current = none then 1 else 0

def AcctSys.start : AcctSys := ⟨Sched.start, 0, 0⟩

/-- The counters never run ahead of each other, and the percentages are what they should be. -/
structure Conservative (s : Sched) : Prop where
  idle : s.cpu.idleTicks ≤ s.cpu.ticks
  start : ∀ p, (s.procs p).stats.startTime ≤ s.globalTicks
  time : ∀ p, (s.procs p).stats.cpuTime ≤ s.globalTicks - (s.procs p).stats.startTime
  usage : (busyTicks s).toNat = s.cpu.ticks.toNat - s.cpu.idleTicks.toNat ∧
    (busyTicks s * 100#64).toNat = (busyTicks s).toNat * 100 ∧ ∀ u, cpuUsage s = some u → u ≤ 100#64
  percent : ∀ p, (uptime s p).toNat = s.globalTicks.toNat - (s.procs p).stats.startTime.toNat ∧
    ((s.procs p).stats.cpuTime * 100#64).toNat = (s.procs p).stats.cpuTime.toNat * 100 ∧
    ∀ u, cpuPercent s p = some u → u ≤ 100#64

/-- The CPU time of all processes of the table. -/
def tableTime (s : Sched) : Nat := ∑ i : Fin 64, (s.procs (.slot i)).stats.cpuTime.toNat

/-- The counters as numbers. -/
structure Books (s : Sched) (total : Nat) : Prop where
  bound : total < 2^57
  global : s.globalTicks.toNat = total
  ticks : s.cpu.ticks.toNat = total
  idle : s.cpu.idleTicks.toNat ≤ total
  time : ∀ p, (s.procs p).stats.startTime.toNat + (s.procs p).stats.cpuTime.toNat ≤ total
  idleRef : s.cpu.idle = some .idle

/-- Every tick is on one of the accounts. -/
structure Exact (s : Sched) (total lost : Nat) : Prop where
  sum : total = s.cpu.idleTicks.toNat + tableTime s + lost
  fresh : ∀ i, (s.procs (.slot i)).state = .unused → (s.procs (.slot i)).stats.cpuTime = 0#64
  current : ∀ p, s.cpu.current = some p → (s.procs p).state ≠ .unused

section Percent

variable {s : Sched} {total : Nat}

theorem percent_le (part whole : Word) (hle : part.toNat ≤ whole.toNat) (hlt : whole.toNat < 2^57) :
    (part * 100#64).toNat = part.toNat * 100 ∧ part * 100#64 / whole ≤ 100#64 := by
  have hmul : (part * 100#64).toNat = part.toNat * 100 := by
    rw [BitVec.toNat_mul]
    simp only [BitVec.toNat_ofNat]
    omega
  refine ⟨hmul, ?_⟩
  rw [BitVec.le_def, BitVec.toNat_udiv, hmul]
  show part.toNat * 100 / whole.toNat ≤ 100
  apply Nat.div_le_of_le_mul
  exact Nat.mul_le_mul_right 100 hle

theorem Books.conservative (h : Books s total) : Conservative s := by
  have hb := h.bound
  have hg := h.global
  have ht := h.ticks
  have hi := h.idle
  have hbusy : (busyTicks s).toNat = s.cpu.ticks.toNat - s.cpu.idleTicks.toNat := by
    rw [busyTicks]
    exact BitVec.toNat_sub_of_le (by rw [BitVec.le_def]; omega)
  have hup (p : ProcRef) : (uptime s p).toNat = s.globalTicks.toNat - (s.procs p).stats.startTime.toNat := by
    have hp := h.time p
    rw [uptime]
    exact BitVec.toNat_sub_of_le (by rw [BitVec.le_def]; omega)
  refine ⟨?_, ?_, ?_, ?_, ?_⟩
  · rw [BitVec.le_def]
    omega
  · intro p
    have hp := h.time p
    rw [BitVec.le_def]
    omega
  · intro p
    have hp := h.time p
    have hu := hup p
    rw [uptime] at hu
    rw [BitVec.le_def, hu]
    omega
  · have hle := percent_le (busyTicks s) s.cpu.ticks (by omega) (by omega)
    refine ⟨hbusy, hle.1, ?_⟩
    intro u hu
    simp only [cpuUsage] at hu
    split at hu
    · cases hu
      exact hle.2
    · cases hu
  · intro p
    have hp := h.time p
    have hu := hup p
    have hle := percent_le (s.procs p).stats.cpuTime (uptime s p) (by omega) (by omega)
    refine ⟨hu, hle.1, ?_⟩
    intro u hu
    simp only [cpuPercent] at hu
    split at hu
    · cases hu
      exact hle.2
    · cases hu

end Percent

section Steps

variable {s t u : Sched} {total lost : Nat}

/-- Nothing was booked, and whoever got the CPU is a process in use. -/
structure Unbooked (s t : Sched) : Prop where
  core : ∀ q, (t.procs q).core = (s.procs q).core
  used : ∀ q, (t.procs q).state = .unused → (s.procs q).state = .unused
  globalTicks : t.globalTicks = s.globalTicks
  ticks : t.cpu.ticks = s.cpu.ticks
  idleTicks : t.cpu.idleTicks = s.cpu.idleTicks
  idle : t.cpu.idle = s.cpu.idle
  current : ∀ p, t.cpu.current = some p → s.cpu.current = some p ∨ (t.procs p).state ≠ .unused

theorem Kept.unbooked (h : Kept s t) : Unbooked s t := by
  refine ⟨h.core, h.used, h.globalTicks, ?_, ?_, ?_, ?_⟩ <;> rw [h.cpu]
  exact fun _ hp => .inl hp

theorem Switched.unbooked {p : ProcRef} (h : Switched p s t) : Unbooked s t := by
  refine ⟨h.core, h.used, h.globalTicks, ?_, ?_, ?_, ?_⟩ <;> rw [h.cpu]
  intro q hq
  obtain rfl : p = q := Option.some.inj hq
  rw [h.running]
  exact .inr (by decide)

theorem Unbooked.trans (h : Unbooked s t) (h' : Unbooked t u) : Unbooked s u := by
  refine ⟨fun q => (h'.core q).trans (h.core q), fun q hq => h.used q (h'.used q hq),
    h'.globalTicks.trans h.globalTicks, h'.ticks.trans h.ticks, h'.idleTicks.trans h.idleTicks,
    h'.idle.trans h.idle, ?_⟩
  intro p hp
  rcases h'.current p hp with ht | hu
  · rcases h.current p ht with hs | ht
    · exact .inl hs
    · exact .inr fun hz => ht (h'.used p hz)
  · exact .inr hu

theorem schedYield_unbooked (s : Sched) : Unbooked s (schedYield s) := by
  rcases schedYield_dispatch s with h | ⟨p, h⟩
  · exact h.unbooked
  · exact h.unbooked

theorem Books.unbooked (h : Books s total) (ht : Unbooked s t) : Books t total := by
  refine ⟨h.bound, ?_, ?_, ?_, ?_, ?_⟩
  · rw [ht.globalTicks, h.global]
  · rw [ht.ticks, h.ticks]
  · rw [ht.idleTicks]
    exact h.idle
  · intro p
    obtain ⟨_, htime, hstart⟩ := core_fields (ht.core p)
    rw [htime, hstart]
    exact h.time p
  · rw [ht.idle, h.idleRef]

theorem Exact.unbooked (h : Exact s total lost) (ht : Unbooked s t) : Exact t total lost := by
  have htime (q : ProcRef) : (t.procs q).stats.cpuTime = (s.procs q).stats.cpuTime :=
    (core_fields (ht.core q)).2.1
  refine ⟨?_, ?_, ?_⟩
  · have htable : tableTime t = tableTime s := by simp only [tableTime, htime]
    rw [ht.idleTicks, htable]
    exact h.sum
  · intro i hi
    rw [htime]
    exact h.fresh i (ht.used _ hi)
  · intro p hp
    rcases ht.current p hp with hs | ht'
    · exact fun hz => h.current p hs (ht.used p hz)
    · exact ht'

/-- The times of a process after a tick. -/
theorem Charged.times (h : Charged s u) (q : ProcRef) :
    (u.procs q).stats.startTime = (s.procs q).stats.startTime ∧
    (u.procs q).stats.cpuTime = (s.procs q).stats.cpuTime +
      if s.cpu.current = some q then 1#64 else 0#64 := by
  have hcore := h.core q
  by_cases hq : s.cpu.current = some q
  · have hc : (u.procs q).core = (s.procs q).charge.core := by
      rw [hcore, if_pos hq]
      rfl
    obtain ⟨_, htime, hstart⟩ := core_fields hc
    rw [htime, hstart, if_pos hq]
    exact ⟨rfl, rfl⟩
  · rw [if_neg hq] at hcore
    obtain ⟨_, htime, hstart⟩ := core_fields hcore
    rw [htime, hstart, if_neg hq, BitVec.add_zero]
    exact ⟨rfl, rfl⟩

theorem toNat_add_bit {w : Word} (h : w.toNat + 1 < 2^64) (b : Prop) [Decidable b] :
    (w + if b then 1#64 else 0#64).toNat = w.toNat + if b then 1 else 0 := by
  by_cases hb : b
  · simp only [hb, if_true, BitVec.toNat_add, BitVec.toNat_ofNat]
    omega
  · simp [hb]

theorem Books.charged (h : Books s total) (hu : Charged s u) (hb : total + 1 < 2^57) :
    Books u (total + 1) := by
  have hg := h.global
  have ht := h.ticks
  have hi := h.idle
  refine ⟨hb, ?_, ?_, ?_, ?_, ?_⟩
  · rw [hu.globalTicks, BitVec.toNat_add, hg, BitVec.toNat_ofNat]
    omega
  · rw [hu.cpu, BitVec.toNat_add, ht, BitVec.toNat_ofNat]
    omega
  · rw [hu.cpu]
    simp only [toNat_add_bit (show s.cpu.idleTicks.toNat + 1 < 2^64 by omega)]
    split <;> omega
  · intro p
    have hp := h.time p
    obtain ⟨hstart, htime⟩ := hu.times p
    rw [hstart, htime, toNat_add_bit (by omega)]
    split <;> omega
  · rw [hu.cpu, h.idleRef]

theorem sum_current (x : ProcPtr) : (∑ i : Fin 64, if x = some (.slot i) then 1 else 0) =
    if ∃ i : Fin 64, x = some (.slot i) then 1 else 0 := by
  by_cases hx : ∃ i : Fin 64, x = some (.slot i)
  · obtain ⟨j, rfl⟩ := hx
    simp
  · rw [if_neg hx]
    apply Finset.sum_eq_zero
    intro i _
    rw [if_neg fun hi => hx ⟨i, hi⟩]

theorem tableTime_charged (h : Books s total) (hu : Charged s u) : tableTime u =
    tableTime s + if ∃ i : Fin 64, s.cpu.current = some (.slot i) then 1 else 0 := by
  have htime (i : Fin 64) : (u.procs (.slot i)).stats.cpuTime.toNat =
      (s.procs (.slot i)).stats.cpuTime.toNat + if s.cpu.current = some (.slot i) then 1 else 0 := by
    have hp := h.time (.slot i)
    have hb := h.bound
    rw [(hu.times (.slot i)).2, toNat_add_bit (by omega)]
  simp only [tableTime, htime, Finset.sum_add_distrib, sum_current]

theorem Exact.charged (h : Exact s total lost) (hbooks : Books s total) (hu : Charged s u) :
    Exact u (total + 1) (lost + if s.cpu.current = none then 1 else 0) := by
  have hb := hbooks.bound
  have hi := hbooks.idle
  refine ⟨?_, ?_, ?_⟩
  · have hidle : u.cpu.idleTicks.toNat = s.cpu.idleTicks.toNat +
        if s.cpu.current = some .idle then 1 else 0 := by
      have hiff : (s.cpu.current ≠ none ∧ s.cpu.current = s.cpu.idle) ↔ s.cpu.current = some .idle := by
        rw [hbooks.idleRef]
        constructor
        · exact And.right
        · intro he
          simp [he]
      rw [hu.cpu, toNat_add_bit (show s.cpu.idleTicks.toNat + 1 < 2^64 by omega)]
      simp only [hiff]
    have hsum := h.sum
    rw [hidle, tableTime_charged hbooks hu]
    cases hcur : s.cpu.current with
    | none =>
      simp
      omega
    | some p =>
      cases p with
      | idle =>
        simp
        omega
      | slot i =>
        simp
        omega
  · intro i hfree
    rw [hu.state] at hfree
    have hne : s.cpu.current ≠ some (.slot i) := fun hc => h.current _ hc hfree
    rw [(hu.times _).2, if_neg hne, BitVec.add_zero]
    exact h.fresh i hfree
  · intro p hp
    rw [hu.state]
    rw [hu.cpu] at hp
    exact h.current p hp

/-- A call that is neither a tick nor one of the process table. -/
theorem exec_unbooked {c : SchedCall} (hc : c.isTick = false) (halloc : c ≠ .alloc)
    (hfree : ∀ p, c ≠ .free p) : Unbooked s (s.exec c) := by
  cases c with
  | alloc => exact absurd rfl halloc
  | free p => exact absurd rfl (hfree p)
  | add p => exact (schedAdd_kept p).unbooked
  | yield => exact schedYield_unbooked s
  | tick => cases hc
  | tickHead => cases hc
  | tickTail => exact (tickTail_kept s).unbooked
  | setPriority p v => exact (schedSetPriority_kept p v).unbooked
  | setPolicy p policy => exact (schedSetPolicy_kept p policy).unbooked

/-- A tick books once, whatever it does to the queues after that. -/
theorem exec_tick {c : SchedCall} (hc : c.isTick = true) : ∃ u, Charged s u ∧ Unbooked u (s.exec c) := by
  have hhead : ∃ u, Charged s u ∧ Unbooked u (tickHead s) := by
    obtain ⟨u, hu, he⟩ := tickHead_charged s
    refine ⟨u, hu, ?_⟩
    rcases he with he | he
    · rw [he]
      exact (Kept.refl u).unbooked
    · rw [he]
      exact schedYield_unbooked u
  cases c with
  | tick =>
    obtain ⟨u, hu, ht⟩ := hhead
    refine ⟨u, hu, ?_⟩
    simp only [Sched.exec, schedTick]
    split
    · exact ht
    · exact ht.trans (tickTail_kept _).unbooked
  | tickHead => exact hhead
  | _ => cases hc

theorem processAlloc_globalTicks : (processAlloc s).2.globalTicks = s.globalTicks := by
  unfold processAlloc
  split <;> rfl

/-- `process_alloc` opens the account of a process. -/
theorem Books.alloc (h : Books s total) : Books (processAlloc s).2 total := by
  rcases processAlloc_case s with he | ⟨i, _, hr, _, hp⟩
  · rw [he]
    exact h
  · refine ⟨h.bound, ?_, ?_, ?_, ?_, ?_⟩
    · rw [processAlloc_globalTicks, h.global]
    · rw [hr.cpu, h.ticks]
    · rw [hr.cpu]
      exact h.idle
    · intro q
      by_cases hq : q = .slot i
      · subst hq
        rw [hp]
        simp [Process.alloc, h.global]
      · rw [hr.others q hq]
        exact h.time q
    · rw [hr.cpu, h.idleRef]

theorem Exact.alloc (h : Exact s total lost) : Exact (processAlloc s).2 total lost := by
  rcases processAlloc_case s with he | ⟨i, hunused, hr, _, hp⟩
  · rw [he]
    exact h
  · have htime (j : Fin 64) : ((processAlloc s).2.procs (.slot j)).stats.cpuTime =
        (s.procs (.slot j)).stats.cpuTime := by
      by_cases hj : j = i
      · subst hj
        rw [hp, h.fresh j hunused]
        rfl
      · rw [hr.others _ (by simpa using hj)]
    have hstate (q : ProcRef) (hq : ((processAlloc s).2.procs q).state = .unused) :
        (s.procs q).state = .unused := by
      by_cases hqi : q = .slot i
      · rw [hqi]
        exact hunused
      · rwa [hr.others q hqi] at hq
    refine ⟨?_, ?_, ?_⟩
    · have htable : tableTime (processAlloc s).2 = tableTime s := by simp only [tableTime, htime]
      rw [hr.cpu, htable]
      exact h.sum
    · intro j hj
      rw [htime]
      exact h.fresh j (hstate _ hj)
    · intro p hcur hz
      rw [hr.cpu] at hcur
      exact h.current p hcur (hstate p hz)

/-- `process_free` closes the account. -/
theorem Books.free (h : Books s total) (x : ProcPtr) : Books (processFree s x) total := by
  cases x with
  | none => exact h
  | some p =>
    refine ⟨h.bound, h.global, h.ticks, h.idle, ?_, h.idleRef⟩
    intro q
    have hq := h.time q
    simp only [processFree, modify_procs]
    split
    · rename_i he
      subst he
      simp only [Process.free, BitVec.toNat_ofNat]
      omega
    · exact hq

end Steps

theorem Books.start : Books Sched.start 0 := by
  refine ⟨by decide, rfl, rfl, Nat.le_refl _, ?_, rfl⟩
  intro p
  cases p with
  | slot i => rfl
  | idle => rfl

theorem Exact.start : Exact Sched.start 0 0 := by
  refine ⟨?_, fun _ _ => rfl, fun _ hp => by cases hp⟩
  have hzero (i : Fin 64) : (Sched.start.procs (.slot i)).stats.cpuTime.toNat = 0 := rfl
  have hidle : Sched.start.cpu.idleTicks.toNat = 0 := rfl
  simp [tableTime, hzero, hidle]

/-- What every call keeps, and what every call but `process_free` keeps. -/
theorem AcctSys.exec_books {s : AcctSys} {c : SchedCall} (h : Books s.sched s.total) (hok : s.Ok c) :
    Books (s.exec c).sched (s.exec c).total ∧
      (Exact s.sched s.total s.lost → (∀ p, c ≠ .free p) →
        Exact (s.exec c).sched (s.exec c).total (s.exec c).lost) := by
  by_cases hc : c.isTick = true
  · obtain ⟨u, hu, ht⟩ := exec_tick (s := s.sched) hc
    have hbooks := h.charged hu (hok hc)
    simp only [AcctSys.exec, hc, if_true, true_and]
    exact ⟨hbooks.unbooked ht, fun he _ => (he.charged h hu).unbooked ht⟩
  · have hsame : (s.exec c).total = s.total ∧ (s.exec c).lost = s.lost := by simp [AcctSys.exec, hc]
    rw [hsame.1, hsame.2]
    by_cases halloc : c = .alloc
    · subst halloc
      exact ⟨h.alloc, fun he _ => he.alloc⟩
    · by_cases hfree : ∃ p, c = .free p
      · obtain ⟨p, rfl⟩ := hfree
        exact ⟨h.free p, fun _ hn => absurd rfl (hn p)⟩
      · rw [not_exists] at hfree
        have hu := exec_unbooked (s := s.sched) (Bool.not_eq_true _ ▸ hc) halloc hfree
        exact ⟨h.unbooked hu, fun he _ => he.unbooked hu⟩

/-- In every run of fewer than `2^57` ticks the books are conservative, and as long as no
process is freed they are exact. -/
theorem cpu_time_accounting {calls : List SchedCall} {s : AcctSys}
    (h : Run (guarded AcctSys.Ok AcctSys.exec) AcctSys.start calls s) :
    Conservative s.sched ∧ ((∀ p, SchedCall.free p ∉ calls) →
      s.sched.cpu.ticks.toNat = s.sched.cpu.idleTicks.toNat + tableTime s.sched + s.lost) := by
  have hinv := h.history (fun as s => Books s.sched s.total ∧
    ((∀ p, SchedCall.free p ∉ as) → Exact s.sched s.total s.lost)) ?_ ⟨Books.start, fun _ => Exact.start⟩
  · refine ⟨hinv.1.conservative, ?_⟩
    intro hfree
    rw [hinv.1.ticks]
    exact (hinv.2 hfree).sum
  · rintro as s c t ⟨hbooks, hexact⟩ ⟨hok, rfl⟩
    obtain ⟨hb, he⟩ := AcctSys.exec_books hbooks hok
    refine ⟨hb, ?_⟩
    intro hfree
    simp only [List.mem_append, List.mem_singleton, not_or] at hfree
    exact he (hexact fun p => (hfree p).1) fun p hp => (hfree p).2 hp.symm

/-- One tick without a process, one of the idle process, and one of a process of the table. -/
def threeTicks (p : ProcRef) : List SchedCall := [.tick, .yield, .tick, .alloc, .add (some p), .yield, .tick]

theorem cpu_time_accounting_threeTicks :
    ∃ s, Run (guarded AcctSys.Ok AcctSys.exec) AcctSys.start (threeTicks (.slot 0)) s ∧ s.sched.cpu.ticks = 3#64 ∧
      s.lost = 1 ∧ Conservative s.sched ∧
      s.sched.cpu.ticks.toNat = s.sched.cpu.idleTicks.toNat + tableTime s.sched + s.lost := by
  have hrun := run_guarded_iff.mpr ⟨show Admissible AcctSys.Ok AcctSys.exec AcctSys.start (threeTicks (.slot 0)) by
    decide +kernel, rfl⟩
  obtain ⟨hcons, hexact⟩ := cpu_time_accounting hrun
  exact ⟨_, hrun, by decide +kernel, by decide +kernel, hcons, hexact (by simp [threeTicks])⟩

end RiscvOs.Scheduler
