import RiscvOs.LevelMoves
set_option autoImplicit false

/-!
The time slice with which a process gets the CPU. `sched_next` fills it up when it takes the
process off an MLFQ level; the head of the real-time queue and the idle process keep what they
have, and `process_alloc` and the ticks leave that at 0.
-/

namespace RiscvOs.Scheduler
open WordMemory Queues Runs

section Next

variable {s : Sched}

/-- Where `sched_next` finds `x`, and what it does to the processes. -/
inductive FillCase (s : Sched) (x : ProcPtr) (t : Sched) : Prop
  | kept (hrt : s.rt.head? = some x) (hprocs : t.procs = s.procs)
  | filled (l : Fin 4) (p : ProcRef) (hx : x = some p) (hl : some p ∈ s.level l)
      (hprocs : t.procs = Function.update s.procs p ((s.procs p).setTimeSlice (queueTimeSlices l)))
  | idle (hempty : s.queued = []) (hx : x = s.cpu.idle) (hprocs : t.procs = s.procs)

theorem nextFrom_fillCase {ls : List (Fin 4)} (h : QueuesOk s) (hrt : s.rt = [])
    (hempty : ∀ k, k ∉ ls → s.level k = []) : FillCase s (nextFrom ls s).1 (nextFrom ls s).2 := by
  induction ls with
  | nil => exact .idle (queued_eq_nil.mpr ⟨hrt, fun l => hempty l (by simp)⟩) rfl rfl
  | cons l ls ih =>
    unfold nextFrom
    by_cases hs : (s.readyQueues l).size > 0
    · obtain ⟨p, hp, hl⟩ := dequeue_level h hs
      simp only [if_pos hs, hp]
      refine .filled l p rfl ?_ rfl
      rw [hl]
      exact List.mem_cons_self
    · rw [if_neg hs]
      refine ih ?_
      intro k hk
      by_cases hkl : k = l
      · subst hkl
        rw [size_pos_iff, not_not] at hs
        exact hs
      · exact hempty k (by simp [hkl, hk])

theorem schedNext_fillCase (h : QueuesOk s) : FillCase s (schedNext s).1 (schedNext s).2 := by
  unfold schedNext
  by_cases hs : s.rtQueue.size > 0
  · obtain ⟨p, hp, hl⟩ := dequeue_rt h hs
    simp only [if_pos hs, hp]
    refine .kept ?_ rfl
    rw [hl]
    rfl
  · rw [if_neg hs]
    have hrt : s.rt = [] := by
      rw [← List.length_eq_zero_iff, rt_length]
      omega
    refine nextFrom_fillCase h hrt ?_
    intro k hk
    exact absurd (by rcases level_cases k with rfl | rfl | rfl | rfl <;> decide) hk

theorem Serving.next_some (h : Serving s) : ∃ p, (schedNext s).1 = some p := by
  cases hn : (schedNext s).1 with
  | some p => exact ⟨p, rfl⟩
  | none =>
    have hnext := schedNext_case h.ok
    rw [hn] at hnext
    rcases hnext.perm with hp | ⟨_, hi, _⟩
    · exact absurd (hp.mem_iff.mpr List.mem_cons_self) h.ok.noNull
    · rw [h.idle] at hi
      cases hi

end Next

section Switch

variable {s : Sched} {p q : ProcRef}

theorem requeue_procs_of_ne (hq : q ≠ p) : (requeue s p).procs q = s.procs q := by
  have hmod (t : Sched) (f : Process → Process) : (t.modify p f).procs q = t.procs q := by
    rw [modify_procs, if_neg hq]
  have hadd (t : Sched) : (schedAdd t (some p)).procs q = t.procs q := by
    rw [schedAdd_procs, if_neg hq]
  simp only [requeue]
  split
  · rw [hmod, hmod]
  · split
    · rw [hadd, hmod, hmod, hmod]
    · rw [hadd, hmod, hmod]
    · exact hmod _ _
    · exact hmod _ _

theorem switchOut_procs_of_ne {x : ProcPtr} (hq : x ≠ some q) : (switchOut s x).procs q = s.procs q := by
  cases x with
  | none => rfl
  | some p =>
    have hqp : q ≠ p := fun he => hq (by rw [he])
    simp only [switchOut]
    split
    · exact requeue_procs_of_ne hqp
    · rfl

theorem schedYield_eq (hn : (schedNext s).1 = some p) (hc : s.cpu.current ≠ some p) :
    schedYield s = switchIn (switchOut (schedNext s).2 s.cpu.current) (some p) := by
  simp [schedYield, contextSwitch, hn, hc]

/-- The process that a yield gives the CPU to has what `sched_next` left it. -/
theorem Serving.yield_enters (h : Serving s) (hcur : (schedYield s).cpu.current = some p)
    (hne : s.cpu.current ≠ some p) : (schedNext s).1 = some p ∧
      ((schedYield s).procs p).timeSlice = ((schedNext s).2.procs p).timeSlice ∧
      ((schedYield s).procs p).policy = (s.procs p).policy ∧
      ((schedYield s).procs p).queueLevel = ((schedNext s).2.procs p).queueLevel ∧
      ((schedYield s).procs p).state = .running := by
  obtain ⟨r, hn⟩ := h.next_some
  by_cases hc : s.cpu.current = some r
  · have hsame : schedYield s = (schedNext s).2 := by
      simp [schedYield, contextSwitch, hn, hc]
    rw [hsame, (schedNext_procs s).cpu] at hcur
    exact absurd hcur hne
  · rw [schedYield_eq hn hc] at hcur ⊢
    cases hcur
    have hout : (switchOut (schedNext s).2 s.cpu.current).procs p = (schedNext s).2.procs p :=
      switchOut_procs_of_ne hne
    have hclass := ((schedNext_procs s).sameClass p).1
    refine ⟨hn, ?_, ?_, ?_, ?_⟩
    · rw [(switchIn_fields p p).2, hout]
    · rw [(switchIn_class p).1, hout, hclass]
    · rw [(switchIn_fields p p).1, hout]
    · rw [switchIn_state, if_pos rfl]

end Switch

/-- A process that can be preempted has time left, and a round-robin process has some after
its first tick too. -/
def Sched.HasTime (s : Sched) (p : ProcRef) : Prop :=
  ((s.procs p).policy = .normal → (s.procs p).timeSlice ≠ 0#64) ∧
  ((s.procs p).policy = .rr → 1 < (s.procs p).timeSlice.toNat)

/-- If `sched_next` takes another process from the real-time queue, or the idle process, it has
time. -/
def Sched.NextHasTime (s : Sched) : Prop :=
  ∀ p, s.cpu.current ≠ some p →
    s.rt.head? = some (some p) ∨ s.queued = [] ∧ s.cpu.idle = some p → s.HasTime p

/-- The next tick uses up the time slice of the current process and preempts it. -/
def Sched.Preempts (s : Sched) : Prop :=
  ∃ q, s.cpu.current = some q ∧ (s.procs q).timeSlice.toNat ≤ 1 ∧
    ((s.procs q).policy = .normal ∨ (s.procs q).policy = .rr)

def TimeOk (s : Sched) : SchedCall → Prop
  | .free _ => False
  | .yield => s.NextHasTime
  | .tick | .tickHead => s.Preempts → s.NextHasTime
  | .alloc | .add _ | .tickTail | .setPriority _ _ | .setPolicy _ _ => True

/-- If a process that can be preempted has got the CPU between `s` and `t`, it has time, a full
slice if its own was used up, and as a round-robin process it keeps the CPU at its first tick. -/
def TurnStarts (s t : Sched) : Prop :=
  ∀ p, t.cpu.current = some p → s.cpu.current ≠ some p →
    (t.procs p).policy = .normal ∨ (t.procs p).policy = .rr →
    (t.procs p).timeSlice ≠ 0#64 ∧
    ((s.procs p).timeSlice = 0#64 → ∃ l, (t.procs p).timeSlice = queueTimeSlices l) ∧
    ((t.procs p).policy = .rr → (tickHead t).cpu.current = some p)

section Turns

variable {s t u : Sched} {p : ProcRef}

/-- The process `p` starts a turn in `t` with the slice it had in `s`, or with a full one. -/
structure Starts (p : ProcRef) (s t : Sched) : Prop where
  time : t.HasTime p
  full : (s.procs p).timeSlice = 0#64 → (∃ l, (t.procs p).timeSlice = queueTimeSlices l) ∨
    ¬ ((t.procs p).policy = .normal ∨ (t.procs p).policy = .rr)

theorem queueTimeSlices_gt (l : Fin 4) : 1 < (queueTimeSlices l).toNat := by
  rcases level_cases l with rfl | rfl | rfl | rfl <;> decide

theorem ne_zero_of_toNat {w : Word} (h : 1 < w.toNat) : w ≠ 0#64 := by
  rintro rfl
  simp at h

theorem HasTime.congr (h : s.HasTime p) (hslice : (t.procs p).timeSlice = (s.procs p).timeSlice)
    (hpol : (t.procs p).policy = (s.procs p).policy) : t.HasTime p := by
  rw [Sched.HasTime, hslice, hpol]
  exact h

theorem Starts.filled (l : Fin 4) (h : (t.procs p).timeSlice = queueTimeSlices l) : Starts p s t := by
  refine ⟨⟨fun _ => ?_, fun _ => ?_⟩, fun _ => .inl ⟨l, h⟩⟩
  · rw [h]
    exact ne_zero_of_toNat (queueTimeSlices_gt l)
  · rw [h]
    exact queueTimeSlices_gt l

theorem Starts.kept (h : s.HasTime p) (hslice : (t.procs p).timeSlice = (s.procs p).timeSlice)
    (hpol : (t.procs p).policy = (s.procs p).policy) : Starts p s t := by
  have htime := HasTime.congr h hslice hpol
  refine ⟨htime, fun hz => .inr ?_⟩
  rw [← hslice] at hz
  rintro (hp | hp)
  · exact htime.1 hp hz
  · exact absurd (htime.2 hp) (by rw [hz]; decide)

theorem Starts.lift (h : Starts p s t) (hlift : u.procs p = t.procs p ∨ u.procs p = (t.procs p).boost) :
    Starts p s u := by
  rcases hlift with he | he
  · refine ⟨HasTime.congr h.time (by rw [he]) (by rw [he]), ?_⟩
    rw [he]
    exact h.full
  · exact .filled 0 (by rw [he]; rfl)

theorem Serving.yield_starts (h : Serving s) (hnext : s.NextHasTime)
    (hcur : (schedYield s).cpu.current = some p) (hne : s.cpu.current ≠ some p) :
    Starts p s (schedYield s) := by
  obtain ⟨hn, hslice, hpol, _, _⟩ := h.yield_enters hcur hne
  have hcase := schedNext_fillCase h.ok
  rw [hn] at hcase
  cases hcase with
  | kept hrt hprocs =>
    rw [hprocs] at hslice
    exact .kept (hnext p hne (.inl hrt)) hslice hpol
  | filled l q hx _ hprocs =>
    cases hx
    rw [hprocs, Function.update_self] at hslice
    exact .filled l hslice
  | idle hempty hx hprocs =>
    rw [hprocs] at hslice
    exact .kept (hnext p hne (.inr ⟨hempty, hx.symm⟩)) hslice hpol

theorem Serving.tickHead_starts (h : Serving s) (hok : s.Preempts → s.NextHasTime)
    (hcur : (tickHead s).cpu.current = some p) (hne : s.cpu.current ≠ some p) :
    Starts p s (tickHead s) := by
  cases hc : s.cpu.current with
  | none =>
    have hcase := tickHead_case s
    generalize tickHead s = t at hcase hcur
    cases hcase with
    | noProcess _ hu =>
      rw [hu.current] at hcur
      exact absurd hcur hne
    | expired hcur' => rw [hc] at hcur'; cases hcur'
    | kept hcur' => rw [hc] at hcur'; cases hcur'
  | some q =>
    obtain ⟨u, hu, _, hprocs, heq⟩ := tickHead_spends hc
    have hne' : u.cpu.current ≠ some p := by
      rw [hu.current]
      exact hne
    have hqp : p ≠ q := by
      rintro rfl
      exact hne hc
    have hother {r : ProcRef} (hr : r ≠ q) : u.procs r = s.procs r := by
      rw [hprocs, Function.update_of_ne hr]
    rw [heq] at hcur ⊢
    split at hcur
    · next hexp =>
      rw [if_pos hexp]
      have hnext : u.NextHasTime := by
        intro r hr hfrom
        rw [hu.current] at hr
        rw [hu.rt, hu.queued, hu.idle] at hfrom
        have hrq : r ≠ q := by
          rintro rfl
          exact hr hc
        exact HasTime.congr (hok ⟨q, hc, hexp⟩ r hr hfrom) (by rw [hother hrq]) (by rw [hother hrq])
      have hstarts := (h.quiet hu).yield_starts hnext hcur hne'
      refine ⟨hstarts.time, ?_⟩
      rw [← hother hqp]
      exact hstarts.full
    · exact absurd hcur hne'

theorem tickTail_lifts (h : QueuesOk s) (p : ProcRef) :
    (tickTail s).procs p = s.procs p ∨ (tickTail s).procs p = (s.procs p).boost := by
  simp only [tickTail]
  split
  · exact (agingPass_lifts h).1 p
  · exact .inl rfl

theorem Serving.tick_starts (h : Serving s) (hok : s.Preempts → s.NextHasTime)
    (hcur : (schedTick s).cpu.current = some p) (hne : s.cpu.current ≠ some p) :
    Starts p s (schedTick s) := by
  have hhead : Serving (tickHead s) := h.exec (c := .tickHead) (fun _ hp => by cases hp)
  simp only [schedTick] at hcur ⊢
  split at hcur
  · next hnone =>
    rw [if_pos hnone]
    exact h.tickHead_starts hok hcur hne
  · next hsome =>
    rw [if_neg hsome]
    rw [(tickTail_kept _).cpu] at hcur
    exact (h.tickHead_starts hok hcur hne).lift (tickTail_lifts hhead.ok p)

/-- A process with time keeps the CPU at its first tick. -/
theorem tickHead_keeps (hcur : s.cpu.current = some p) (hlong : 1 < (s.procs p).timeSlice.toNat) :
    (tickHead s).cpu.current = some p := by
  obtain ⟨u, hu, _, _, heq⟩ := tickHead_spends hcur
  rw [heq, if_neg (by omega), hu.current]
  exact hcur

theorem turnStarts_of_starts
    (h : ∀ p, t.cpu.current = some p → s.cpu.current ≠ some p → Starts p s t) : TurnStarts s t := by
  intro p hcur hne hpol
  have hstarts := h p hcur hne
  refine ⟨?_, ?_, ?_⟩
  · rcases hpol with hp | hp
    · exact hstarts.time.1 hp
    · exact ne_zero_of_toNat (hstarts.time.2 hp)
  · intro hz
    exact (hstarts.full hz).resolve_right (fun hno => hno hpol)
  · intro hrr
    exact tickHead_keeps hcur (hstarts.time.2 hrr)

theorem turnStarts_of_current (h : t.cpu.current = s.cpu.current) : TurnStarts s t := by
  intro p hcur hne
  rw [h] at hcur
  exact absurd hcur hne

/-- The calls that do not switch. -/
theorem exec_current {c : SchedCall} (hc : c ≠ .yield ∧ c ≠ .tick ∧ c ≠ .tickHead) :
    (s.exec c).cpu.current = s.cpu.current := by
  cases c with
  | alloc =>
    rcases processAlloc_case s with he | ⟨i, _, hr, _, _⟩
    · rw [Sched.exec, he]
    · exact congrArg CpuSched.current hr.cpu
  | free x => cases x <;> rfl
  | add x => rw [Sched.exec, schedAdd_cpu]
  | yield => exact absurd rfl hc.1
  | tick => exact absurd rfl hc.2.1
  | tickHead => exact absurd rfl hc.2.2
  | tickTail => exact congrArg CpuSched.current (tickTail_kept s).cpu
  | setPriority x v => exact congrArg CpuSched.current (schedSetPriority_kept x v).cpu
  | setPolicy x policy => exact congrArg CpuSched.current (schedSetPolicy_kept x policy).cpu

theorem timeOk_run {calls : List SchedCall} (h : Run (guarded TimeOk Sched.exec) Sched.start calls s) :
    Serving s := by
  refine h.guarded_invariant Serving ?_ Serving.start
  intro s c hs hok
  refine hs.exec fun p hp => ?_
  subst hp
  exact hok

end Turns

/-- In every run in which no process without time is taken from the real-time queue, and the idle
process has time when its policy needs it, every turn starts with time. -/
theorem turns_start_with_time {calls : List SchedCall} {s : Sched} {c : SchedCall}
    (h : Run (guarded TimeOk Sched.exec) Sched.start calls s) (hc : TimeOk s c) :
    TurnStarts s (s.exec c) := by
  have hs := timeOk_run h
  cases c with
  | yield => exact turnStarts_of_starts fun p => hs.yield_starts hc
  | tick => exact turnStarts_of_starts fun p => hs.tick_starts hc
  | tickHead => exact turnStarts_of_starts fun p => hs.tickHead_starts hc
  | free x => exact hc.elim
  | alloc | add | tickTail | setPriority | setPolicy =>
    exact turnStarts_of_current (exec_current (by simp))

/-- A normal process that is queued for the first time. -/
theorem turns_start_with_time_normal : ∃ s, Run (guarded TimeOk Sched.exec) Sched.start
      [.alloc, .add (some (.slot 0))] s ∧ (schedYield s).cpu.current = some (.slot 0) ∧
    ((schedYield s).procs (.slot 0)).timeSlice ≠ 0#64 := by
  have hrun := run_guarded_iff.mpr ⟨show Admissible TimeOk Sched.exec Sched.start
    [.alloc, .add (some (.slot 0))] from ⟨trivial, trivial, trivial⟩, rfl⟩
  refine ⟨_, hrun, by decide +kernel, ?_⟩
  have hnext : Sched.NextHasTime ([.alloc, .add (some (.slot 0))].foldl Sched.exec Sched.start) := by
    rintro p - (hrt | ⟨hempty, -⟩)
    · have hnone : ([.alloc, .add (some (.slot 0))].foldl Sched.exec Sched.start).rt = [] := by
        decide +kernel
      rw [hnone] at hrt
      cases hrt
    · exact absurd hempty (by decide +kernel)
  exact (turns_start_with_time (c := .yield) hrun hnext (.slot 0) (by decide +kernel) (by decide +kernel)
    (.inl (by decide +kernel))).1

/-- A round-robin process gets the CPU without time and loses it at its first tick. -/
theorem round_robin_starts_empty : ∃ s, Run (guarded (fun _ _ => True) Sched.exec) Sched.start
      [.alloc, .setPriority (some (.slot 0)) 50, .add (some (.slot 0))] s ∧
    (schedYield s).cpu.current = some (.slot 0) ∧ ((schedYield s).procs (.slot 0)).policy = .rr ∧
    ((schedYield s).procs (.slot 0)).timeSlice = 0#64 ∧
    (tickHead (schedYield s)).cpu.current = some .idle ∧ ¬ TurnStarts s (schedYield s) := by
  have hslice : ((schedYield ([.alloc, .setPriority (some (.slot 0)) 50, .add (some (.slot 0))].foldl
      Sched.exec Sched.start)).procs (.slot 0)).timeSlice = 0#64 := by decide +kernel
  refine ⟨_, run_unguarded Sched.start _, by decide +kernel, by decide +kernel, hslice, by decide +kernel, ?_⟩
  intro hstarts
  exact (hstarts (.slot 0) (by decide +kernel) (by decide +kernel) (.inr (by decide +kernel))).1 hslice

end RiscvOs.Scheduler
