import RiscvOs.Routing
set_option autoImplicit false

/-!
When the idle process runs. It should have the CPU only while nothing else is ready; a
yield or an expired time slice of the only ready process gives it the CPU all the same,
and it keeps the CPU when a process becomes ready.
-/

namespace RiscvOs.Scheduler
open WordMemory Queues Runs

/-- The calls that leave priorities and policies alone and free nothing. -/
def PlainCall (_ : Sched) : SchedCall → Prop
  | .free _ => False
  | .setPriority _ _ => False
  | .setPolicy _ _ => False
  | _ => True

instance PlainCall.decidable (s : Sched) : (c : SchedCall) → Decidable (PlainCall s c)
  | .free _ | .setPriority _ _ | .setPolicy _ _ => inferInstanceAs (Decidable False)
  | .alloc | .add _ | .yield | .tick | .tickHead | .tickTail => inferInstanceAs (Decidable True)

/-- The idle process has the CPU only if no other process is ready. -/
def IdleLast (t : Sched) : Prop := t.cpu.current = some .idle → t.queued = []

/-- The current process is running and not the idle process. -/
def Sched.Busy (s : Sched) (p : ProcRef) : Prop :=
  s.cpu.current = some p ∧ p ≠ .idle ∧ (s.procs p).state = .running

section Idle

variable {s t : Sched}

theorem plain_run {calls : List SchedCall} (h : Run (guarded PlainCall Sched.exec) Sched.start calls s) :
    Classed (· = .normal) s := by
  refine h.guarded_invariant (Classed (· = .normal)) ?_ (.start rfl)
  intro s c hs hok
  cases c with
  | alloc => exact hs.alloc rfl
  | add x => exact hs.add x
  | yield => exact hs.yield
  | tick => exact hs.ticks.2.2
  | tickHead => exact hs.ticks.1
  | tickTail => exact hs.ticks.2.1
  | free p => exact hok.elim
  | setPriority p v => exact hok.elim
  | setPolicy p policy => exact hok.elim

theorem idleLast_yield_of_ready (h : Classed (· = .normal) s) (hq : s.queued ≠ []) :
    IdleLast (schedYield s) := by
  have hcase := schedYield_case h.serving.ok h.serving.idle
  have hp {p : ProcRef} {t : Sched} (hnext : NextCase s (some p) t) : p ≠ .idle := by
    rcases hnext.perm with hp | ⟨hn, _⟩
    · intro he
      exact h.idle_unqueued (he ▸ hp.mem_iff.mpr List.mem_cons_self)
    · exact absurd hn hq
  generalize schedYield s = u at hcase
  intro hc
  cases hcase with
  | same hnext _ hprocs _ hcur =>
    rw [hprocs.cpu, hcur] at hc
    exact absurd (Option.some.inj hc) (hp hnext)
  | switch hnext => exact absurd (Option.some.inj hc) (hp hnext)

/-- The process that leaves the CPU is the only one queued, if it was running. -/
theorem switchOut_empty_iff (h : Classed (· = .normal) s) (hq : s.queued = [])
    (hcur : s.cpu.current ≠ some .idle) :
    (switchOut s s.cpu.current).queued = [] ↔ ∀ p, ¬ s.Busy p := by
  by_cases hb : ∃ p, s.Busy p
  · obtain ⟨p, hc, hi, hr⟩ := hb
    have hti : some p ≠ s.cpu.idle := by
      rw [h.serving.idle]
      exact fun he => hi (Option.some.inj he)
    have hpol : (s.procs p).policy = .normal := by
      cases p with
      | slot i => exact h.table i
      | idle => exact absurd rfl hi
    have hperm := (requeue_perm h.serving.ok hti (.inl hpol) (by simp [hq, maxProcesses])).1
    refine iff_of_false ?_ (fun hall => hall p ⟨hc, hi, hr⟩)
    rw [hc, switchOut, if_pos hr]
    intro hnil
    rw [hnil] at hperm
    cases hperm.symm.eq_nil
  · have hout : switchOut s s.cpu.current = s := by
      apply switchOut_of_not_running
      intro p hc hr
      exact hb ⟨p, hc, fun hi => hcur (hi ▸ hc), hr⟩
    rw [hout]
    exact iff_of_true hq (fun p hp => hb ⟨p, hp⟩)

/-- With nothing queued, a yield gives the CPU to the idle process. -/
theorem yield_of_empty (h : Classed (· = .normal) s) (hq : s.queued = []) :
    (schedYield s).cpu.current = some .idle ∧
      ((schedYield s).queued = [] ↔ ∀ p, ¬ s.Busy p) := by
  have hcase := schedYield_case h.serving.ok h.serving.idle
  have hn {p : ProcRef} {t : Sched} (hnext : NextCase s (some p) t) : p = .idle ∧ t = s := by
    rcases hnext.perm with hp | ⟨_, he, ht⟩
    · rw [hq] at hp
      cases hp.symm.eq_nil
    · rw [h.serving.idle] at he
      exact ⟨Option.some.inj he, ht⟩
  generalize schedYield s = u at hcase
  cases hcase with
  | same hnext _ _ _ hcur =>
    obtain ⟨rfl, rfl⟩ := hn hnext
    refine ⟨hcur, iff_of_true hq ?_⟩
    intro p hb
    exact hb.2.1 (Option.some.inj (hb.1.symm.trans hcur))
  | switch hnext _ _ _ hcur =>
    obtain ⟨rfl, he⟩ := hn hnext
    rw [he, switchIn_queued]
    exact ⟨rfl, switchOut_empty_iff h hq hcur⟩

theorem idleLast_yield_iff (h : Classed (· = .normal) s) :
    IdleLast (schedYield s) ↔ s.queued ≠ [] ∨ ∀ p, ¬ s.Busy p := by
  by_cases hq : s.queued = []
  · obtain ⟨hc, he⟩ := yield_of_empty h hq
    simp only [IdleLast, hc, forall_const, he, hq, ne_eq, not_true_eq_false, false_or]
  · exact iff_of_true (idleLast_yield_of_ready h hq) (.inl hq)

/-- Aging does not empty the queues. -/
theorem tickTail_queued (h : Classed (· = .normal) s) :
    (tickTail s).cpu = s.cpu ∧ ((tickTail s).queued = [] ↔ s.queued = []) := by
  unfold tickTail
  split
  · have ha := agingPass_aged h.serving.ok
    refine ⟨ha.procs.cpu, ?_⟩
    constructor
    · intro hq
      rw [Sched.queued, List.append_eq_nil_iff, ha.allLevels_top, ha.rt, ha.top] at hq
      obtain ⟨hrt, htop⟩ := hq
      rw [List.take_eq_nil_iff, List.append_eq_nil_iff] at htop
      obtain ⟨h0, hf⟩ := htop.resolve_left (by decide)
      have hlow : s.level 1 ++ (s.level 2 ++ s.level 3) = [] := by
        apply List.eq_nil_iff_forall_not_mem.mpr
        intro x hx
        exact List.filter_eq_nil_iff.mp hf x hx (h.routed.lower_normal h.serving.ok hx)
      rw [Sched.queued, hrt, allLevels_eq, h0, hlow, List.nil_append, List.nil_append]
    · intro hq
      exact List.subperm_nil.mp (hq ▸ ha.sublist)
  · exact ⟨rfl, Iff.rfl⟩

theorem Quiet.busy (hq : Quiet s t) (p : ProcRef) : t.Busy p ↔ s.Busy p := by
  rw [Sched.Busy, Sched.Busy, hq.current, hq.state]

theorem idleLast_tickHead_iff (h : Classed (· = .normal) s) :
    IdleLast (tickHead s) ↔ (s.cpu.current = some .idle → s.queued = []) ∧
      ∀ p, s.Busy p → (s.procs p).timeSlice.toNat ≤ 1 → s.queued ≠ [] := by
  have hcase := tickHead_case s
  generalize tickHead s = u at hcase
  cases hcase with
  | noProcess hcur hu => simp [IdleLast, Sched.Busy, hu.current, hcur]
  | @expired p u hcur hslice hpol hu =>
    have hp : p ≠ .idle := by
      intro he
      simp [he, h.idlePolicy] at hpol
    rw [idleLast_yield_iff (h.quiet hu), hu.queued]
    have hne : s.cpu.current ≠ some .idle := by
      rw [hcur]
      exact fun he => hp (Option.some.inj he)
    constructor
    · intro hy
      refine ⟨fun hc => absurd hc hne, ?_⟩
      intro q hb _
      exact hy.resolve_right fun hall => hall q ((hu.busy q).mpr hb)
    · intro hy
      by_cases hq : s.queued = []
      · right
        intro q hb
        have hbs := (hu.busy q).mp hb
        have hqp : q = p := Option.some.inj (hbs.1.symm.trans hcur)
        exact hy.2 q hbs (hqp ▸ hslice) hq
      · exact .inl hq
  | @kept p u hcur hkeep hu =>
    simp only [IdleLast, hu.current, hu.queued]
    constructor
    · intro hi
      refine ⟨hi, ?_⟩
      intro q hb hslice
      have hqp : q = p := Option.some.inj (hb.1.symm.trans hcur)
      subst hqp
      cases q with
      | slot i =>
        have hnorm := h.table i
        simp only [hnorm, reduceCtorEq, or_false] at hkeep
        omega
      | idle => exact absurd rfl hb.2.1
    · exact fun hi => hi.1

theorem idleLast_tick_iff (h : Classed (· = .normal) s) :
    IdleLast (schedTick s) ↔ (s.cpu.current = some .idle → s.queued = []) ∧
      ∀ p, s.Busy p → (s.procs p).timeSlice.toNat ≤ 1 → s.queued ≠ [] := by
  rw [← idleLast_tickHead_iff h]
  unfold schedTick
  split
  · exact Iff.rfl
  · obtain ⟨hc, hq⟩ := tickTail_queued h.ticks.1
    simp only [IdleLast, hc, hq]

end Idle

/-- In every state that can be reached, the idle process comes last after a yield exactly when
something is queued or no other process is running, and after a tick exactly when it did
not keep the CPU from a queued process and no expired process had to make way for it. -/
theorem idle_last_iff {calls : List SchedCall} {s : Sched}
    (h : Run (guarded PlainCall Sched.exec) Sched.start calls s) :
    (IdleLast (schedYield s) ↔ s.queued ≠ [] ∨ ∀ p, ¬ s.Busy p) ∧
    (IdleLast (schedTick s) ↔ (s.cpu.current = some .idle → s.queued = []) ∧
      ∀ p, s.Busy p → (s.procs p).timeSlice.toNat ≤ 1 → s.queued ≠ []) :=
  ⟨idleLast_yield_iff (plain_run h), idleLast_tick_iff (plain_run h)⟩

/-- A process yields while a second one is queued. -/
theorem idle_last_iff_two : ∃ s, Run (guarded PlainCall Sched.exec) Sched.start
      [.alloc, .alloc, .add (some (.slot 0)), .add (some (.slot 1)), .yield] s ∧
    IdleLast (schedYield s) := by
  have hrun := run_guarded_iff.mpr ⟨show Admissible PlainCall Sched.exec Sched.start
    [.alloc, .alloc, .add (some (.slot 0)), .add (some (.slot 1)), .yield] by decide +kernel, rfl⟩
  exact ⟨_, hrun, (idle_last_iff hrun).1.mpr (.inl (by decide +kernel))⟩

/-- The only process yields, the idle process gets the CPU before the yielder is queued, and
it keeps the CPU through the next tick. -/
theorem idle_displaces_ready : ∃ s, Run (guarded PlainCall Sched.exec) Sched.start
      [.alloc, .add (some (.slot 0)), .yield] s ∧
    ¬ IdleLast (schedYield s) ∧ ¬ IdleLast (schedTick (schedYield s)) := by
  have hrun := run_guarded_iff.mpr ⟨show Admissible PlainCall Sched.exec Sched.start
    [.alloc, .add (some (.slot 0)), .yield] by decide +kernel, rfl⟩
  refine ⟨_, hrun, ?_, ?_⟩
  · intro hi
    exact absurd (hi (by decide +kernel)) (by decide +kernel)
  · intro hi
    exact absurd (hi (by decide +kernel)) (by decide +kernel)

end RiscvOs.Scheduler
