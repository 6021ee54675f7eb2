import RiscvOs.Routing
import RiscvOs.ProcessCore
set_option autoImplicit false

/-!
The levels and time slices of the normal processes: the aging pass boosts, `sched_next`
gives a new time slice, a switch demotes the process that used up its own, and a tick
counts the slice down.
-/

namespace RiscvOs.Scheduler
open WordMemory Queues Runs

/-- The process that `sched_next` takes. -/
def Sched.nextUp (s : Sched) : ProcPtr := s.queued.head?.getD s.cpu.idle

section Lifts

/-- Some of the processes have been boosted. -/
def Lifts (s t : Sched) : Prop := ∀ q, t.procs q = s.procs q ∨ t.procs q = (s.procs q).boost

variable {s t u : Sched}

theorem Lifts.of_procs (h : t.procs = s.procs) : Lifts s t := fun q => .inl (congrFun h q)

theorem Lifts.trans (h : Lifts s t) (h' : Lifts t u) : Lifts s u := by
  intro q
  rcases h' q with hu | hu
  · rw [hu]
    exact h q
  · rcases h q with ht | ht
    · exact .inr (by rw [hu, ht])
    · exact .inr (by rw [hu, ht]; rfl)

theorem Lifts.level_zero (h : Lifts s t) {q : ProcRef} (hq : (s.procs q).queueLevel = 0) :
    (t.procs q).queueLevel = 0 := by
  rcases h q with ht | ht
  · rw [ht, hq]
  · rw [ht]
    rfl

/-- A level that is drained has boosted the normal processes it held. -/
theorem agingDrain_lifts {l : Fin 4} (hl : l ≠ 0) {n : Nat} (h : QueuesOk s)
    (hn : (s.readyQueues l).size = n) : Lifts s (agingDrain l n s) ∧
      ∀ q, some q ∈ s.level l → (s.procs q).policy = .normal →
        ((agingDrain l n s).procs q).queueLevel = 0 := by
  induction n generalizing s with
  | zero =>
    have hempty : s.level l = [] := List.length_eq_zero_iff.mp (by rw [level_length, hn])
    refine ⟨.of_procs rfl, ?_⟩
    simp [hempty]
  | succ n ih =>
    obtain ⟨p, xs, u, hround, heq⟩ := agingDrain_round hl h (by omega)
    obtain ⟨hrec, hzero⟩ := ih hround.ok (hround.size hl hn)
    rw [heq n]
    have hlift : Lifts s u := by
      intro q
      rw [hround.procs]
      split
      · rename_i hq
        exact .inr (by rw [hq.1])
      · exact .inl rfl
    refine ⟨hlift.trans hrec, ?_⟩
    intro q hq hn
    by_cases hqp : q = p
    · subst hqp
      apply hrec.level_zero
      rw [hround.procs, if_pos ⟨rfl, hn⟩]
      rfl
    · apply hzero q
      · rw [hround.head] at hq
        rw [hround.rest hl]
        exact (List.mem_cons.mp hq).resolve_left (by simpa using hqp)
      · rwa [hround.procs, if_neg fun h => hqp h.1]

/-- The aging pass boosts the normal processes of the lower queues. -/
theorem agingPass_lifts (h : QueuesOk s) : Lifts s (agingPass s) ∧
    ∀ l, l ≠ 0 → ∀ q, some q ∈ s.level l → (s.procs q).policy = .normal →
      ((agingPass s).procs q).queueLevel = 0 := by
  have h₁ := agingLevel_drained (l := 1) (by decide) h
  have h₂ := agingLevel_drained (l := 2) (by decide) h₁.ok
  obtain ⟨hl₁, hz₁⟩ := agingDrain_lifts (l := 1) (by decide) h rfl
  obtain ⟨hl₂, hz₂⟩ := agingDrain_lifts (l := 2) (by decide) h₁.ok rfl
  obtain ⟨hl₃, hz₃⟩ := agingDrain_lifts (l := 3) (by decide) h₂.ok rfl
  refine ⟨(hl₁.trans hl₂).trans hl₃, ?_⟩
  intro l hl q hq hn
  rcases level_cases l with rfl | rfl | rfl | rfl
  · exact absurd rfl hl
  · exact hl₃.level_zero (hl₂.level_zero (hz₁ q hq hn))
  · apply hl₃.level_zero
    apply hz₂ q
    · rwa [h₁.other (by decide) (by decide)]
    · rwa [(h₁.procs.sameClass q).1]
  · apply hz₃ q
    · rwa [h₂.other (by decide) (by decide), h₁.other (by decide) (by decide)]
    · rwa [(h₂.procs.sameClass q).1, (h₁.procs.sameClass q).1]

end Lifts

section Next

variable {s t : Sched}

theorem NextCase.eq_nextUp {x : ProcPtr} (h : NextCase s x t) : x = s.nextUp := by
  cases h with
  | realTime hrt hlevel => simp [Sched.nextUp, Sched.queued, hrt]
  | normal l hrt hrt' hup hlevel =>
    have hl : s.level l = x :: t.level l := by rw [hlevel, Function.update_self]
    have hhead : (allLevels s.level).head? = some x := by
      rw [allLevels_eq]
      rcases level_cases l with rfl | rfl | rfl | rfl <;> simp [hl, hup]
    simp [Sched.nextUp, Sched.queued, hrt, hhead]
  | idle hempty hx ht => simp [Sched.nextUp, hempty, hx]

/-- Levels stay, and a process that is taken off a queue gets time. -/
theorem nextFrom_slices (ls : List (Fin 4)) :
    (∀ q, ((nextFrom ls s).2.procs q).queueLevel = (s.procs q).queueLevel ∧
      (((nextFrom ls s).2.procs q).timeSlice = 0#64 → (s.procs q).timeSlice = 0#64)) ∧
    ∀ p, (nextFrom ls s).1 = some p → some p = s.cpu.idle ∨ ((nextFrom ls s).2.procs p).timeSlice ≠ 0#64 := by
  induction ls generalizing s with
  | nil => exact ⟨fun _ => ⟨rfl, id⟩, fun p hp => .inl hp.symm⟩
  | cons l ls ih =>
    simp only [nextFrom]
    split
    · split
      · rename_i p _
        have hslice : queueTimeSlices l ≠ 0#64 := by
          rcases level_cases l with rfl | rfl | rfl | rfl <;> decide
        refine ⟨?_, ?_⟩
        · intro q
          rw [modify_procs]
          by_cases hq : q = p
          · subst hq
            rw [if_pos rfl]
            exact ⟨rfl, fun hz => absurd hz hslice⟩
          · rw [if_neg hq]
            exact ⟨rfl, id⟩
        · intro q hq
          cases hq
          rw [modify_self]
          exact .inr hslice
      · exact ih
    · exact ih

theorem Classed.rt_nil (h : Classed (· = .normal) s) : s.rt = [] := by
  apply List.eq_nil_iff_forall_not_mem.mpr
  intro x hx
  cases x with
  | none => exact h.serving.ok.noNull (mem_queued.mpr (.inl hx))
  | some p =>
    have hp := h.routed.rt p hx
    cases p with
    | slot i => simp [h.table i] at hp
    | idle => simp [h.idlePolicy] at hp

theorem Classed.schedNext_eq (h : Classed (· = .normal) s) : schedNext s = nextFrom levels s := by
  have hsize : ¬ s.rtQueue.size > 0 := by
    rw [← rt_length, h.rt_nil]
    simp
  rw [schedNext, if_neg hsize]

end Next

section Leave

/-- A process leaves the CPU, by `switchOut`. -/
structure Leaves (x : ProcPtr) (s t : Sched) : Prop where
  other : ∀ q, x ≠ some q → t.procs q = s.procs q
  level : ∀ q, (t.procs q).queueLevel = (s.procs q).queueLevel ∨
    x = some q ∧ (s.procs q).state = .running ∧ (s.procs q).timeSlice = 0#64 ∧
      (t.procs q).queueLevel = (s.procs q).queueLevel + 1
  state : ∀ q, x = some q → (t.procs q).state ≠ .running
  queued : ∀ q, some q ∈ t.queued → some q ∈ s.queued ∨ x = some q
  top : ∀ q, some q ∈ t.level 0 → some q ∈ s.level 0 ∨ x = some q ∧ (t.procs q).queueLevel ≤ 0

variable {s : Sched} {p : ProcRef}

theorem Leaves.refl {x : ProcPtr} (h : ∀ q, x = some q → (s.procs q).state ≠ .running) : Leaves x s s :=
  ⟨fun _ _ => rfl, fun _ => .inl rfl, h, fun _ hq => .inl hq, fun _ hq => .inl hq⟩

theorem clampLevel_zero {l : Int} (h : clampLevel l = 0) : l ≤ 0 := by
  unfold clampLevel at h
  split at h
  · omega
  · split at h
    · simp at h
    · rename_i hneg hbig
      have hn := congrArg Fin.val h
      simp only [Fin.ofNat, numQueueLevels] at hn hbig
      omega

/-- The demotion in `context_switch`. -/
def Process.demote (x : Process) : Process :=
  if x.timeSlice = 0#64 ∧ x.queueLevel < numQueueLevels - 1 then { x with queueLevel := x.queueLevel + 1 }
  else x

theorem demote_fields (x : Process) : x.demote.policy = x.policy ∧ (x.demote.queueLevel = x.queueLevel ∨
    x.timeSlice = 0#64 ∧ x.demote.queueLevel = x.queueLevel + 1) := by
  unfold Process.demote
  split
  · rename_i h
    exact ⟨rfl, .inr ⟨h.1, rfl⟩⟩
  · exact ⟨rfl, .inl rfl⟩

theorem schedAdd_fields (p q : ProcRef) :
    ((schedAdd s (some p)).procs q).queueLevel = (s.procs q).queueLevel ∧
    ((schedAdd s (some p)).procs q).timeSlice = (s.procs q).timeSlice := by
  rw [schedAdd_procs]
  by_cases hq : q = p
  · subst hq
    simp [Process.setState]
  · simp [hq]

theorem requeue_normal (hidle : some p ≠ s.cpu.idle) (hpol : (s.procs p).policy = .normal) :
    requeue s p = schedAdd (s.modify p fun x => x.countSwitch.demote) (some p) := by
  have hm : (s.modify p Process.countSwitch).modify p Process.demote =
      s.modify p fun x => x.countSwitch.demote := by
    simp [Sched.modify]
  have hp : ((s.modify p Process.countSwitch).procs p).policy = .normal := by
    rw [modify_self]
    exact hpol
  unfold requeue
  simp only [modify_cpu, if_neg hidle, hp, schedAdd_setState]
  rw [← hm]
  rfl

/-- The idle process leaves the CPU without being queued. -/
theorem requeue_idle_leaves (hidle : some p = s.cpu.idle) : Leaves (some p) s (requeue s p) := by
  have he : requeue s p = (s.modify p Process.countSwitch).modify p (Process.setState .runnable) :=
    if_pos hidle
  rw [he]
  refine ⟨?_, ?_, ?_, fun _ hq => .inl hq, fun _ hq => .inl hq⟩
  · intro q hq
    have hqp : q ≠ p := fun he => hq (by rw [he])
    simp [modify_procs, hqp]
  · intro q
    left
    by_cases hq : q = p <;> simp [modify_procs, hq, Process.countSwitch]
  · intro q hq
    cases hq
    simp

/-- A normal process is demoted if its time is over, and queued. -/
theorem requeue_normal_leaves (hok : QueuesOk s) (hrun : (s.procs p).state = .running)
    (hidle : some p ≠ s.cpu.idle) (hpol : (s.procs p).policy = .normal) :
    Leaves (some p) s (requeue s p) := by
  rw [requeue_normal hidle hpol]
  generalize hu : (s.modify p fun x => x.countSwitch.demote) = u
  have hup (q : ProcRef) : u.procs q = if q = p then (s.procs p).countSwitch.demote else s.procs q := by
    rw [← hu]
    exact modify_procs
  have huok : QueuesOk u := hu ▸ hok.modify p _
  have hlevels : u.level = s.level ∧ u.queued = s.queued := by
    rw [← hu]
    exact ⟨rfl, rfl⟩
  refine ⟨?_, ?_, ?_, ?_, ?_⟩
  · intro q hq
    have hqp : q ≠ p := fun he => hq (by rw [he])
    rw [schedAdd_procs, if_neg hqp, hup, if_neg hqp]
  · intro q
    by_cases hqp : q = p
    · subst hqp
      have hlevel : ((schedAdd u (some q)).procs q).queueLevel = (s.procs q).countSwitch.demote.queueLevel := by
        rw [schedAdd_procs, if_pos rfl, setState_queueLevel, hup, if_pos rfl]
      rcases (demote_fields (s.procs q).countSwitch).2 with hsame | ⟨hslice, hup⟩
      · exact .inl (hlevel.trans hsame)
      · exact .inr ⟨rfl, hrun, hslice, hlevel.trans hup⟩
    · rw [schedAdd_procs, if_neg hqp, hup, if_neg hqp]
      exact .inl rfl
  · intro q hq
    cases hq
    rw [schedAdd_state, if_pos rfl]
    decide
  · intro q hq
    rw [← hlevels.2]
    rcases mem_schedAdd huok hq with hq | hq
    · exact .inr hq.symm
    · exact .inl hq
  · intro q hq
    rw [← hlevels.1]
    rcases mem_schedAdd_level huok hq with hq | ⟨hq, _, hl⟩
    · exact .inl hq
    · cases hq
      refine .inr ⟨rfl, ?_⟩
      rw [schedAdd_procs, if_pos rfl, setState_queueLevel]
      exact clampLevel_zero hl.symm

theorem switchOut_leaves (hok : QueuesOk s) {x : ProcPtr}
    (hpol : ∀ p, x = some p → some p = s.cpu.idle ∨ (s.procs p).policy = .normal) :
    Leaves x s (switchOut s x) := by
  cases x with
  | none => exact .refl fun q hq => by cases hq
  | some p =>
    simp only [switchOut]
    split
    · rename_i hrun
      by_cases hidle : some p = s.cpu.idle
      · exact requeue_idle_leaves hidle
      · exact requeue_normal_leaves hok hrun hidle ((hpol p rfl).resolve_left hidle)
    · rename_i hrun
      refine .refl ?_
      intro q hq
      cases hq
      exact hrun

end Leave

section Yield

/-- What a yield does to levels, time slices and the top queue. -/
structure Yields (s t : Sched) : Prop where
  current : t.cpu.current = s.nextUp
  slice : ∀ p, t.cpu.current = some p → some p = s.cpu.idle ∨ (t.procs p).timeSlice ≠ 0#64
  level : ∀ q, (t.procs q).queueLevel = (s.procs q).queueLevel ∨
    s.cpu.current = some q ∧ s.nextUp ≠ some q ∧ (s.procs q).state = .running ∧
      (s.procs q).timeSlice = 0#64 ∧ (t.procs q).queueLevel = (s.procs q).queueLevel + 1
  running : ∀ q, (t.procs q).state = .running → t.cpu.current = some q ∨
    s.cpu.current ≠ some q ∧ (s.procs q).state = .running
  used : ∀ p, t.cpu.current = some p → (t.procs p).state = .running ∨
    s.cpu.current = some p ∧ (t.procs p).state = (s.procs p).state
  queued : ∀ q, some q ∈ t.queued → some q ∈ s.queued ∨ s.cpu.current = some q
  top : ∀ q, some q ∈ t.level 0 → some q ∈ s.level 0 ∨
    s.cpu.current = some q ∧ s.nextUp ≠ some q ∧ (t.procs q).queueLevel ≤ 0

variable {s : Sched}

theorem switchIn_fields (p q : ProcRef) :
    ((switchIn s (some p)).procs q).queueLevel = (s.procs q).queueLevel ∧
    ((switchIn s (some p)).procs q).timeSlice = (s.procs q).timeSlice := by
  simp only [switchIn, modify_procs]
  by_cases hq : q = p
  · subst hq
    simp [Process.countSwitch, Process.setState]
  · simp [hq]

/-- What `sched_next` leaves behind when it takes `p`. -/
structure Takes (p : ProcRef) (s t : Sched) : Prop where
  next : NextCase s (some p) t
  ok : QueuesOk t
  procs : SameProcs s t
  level : ∀ q, (t.procs q).queueLevel = (s.procs q).queueLevel
  slice : ∀ q, (t.procs q).timeSlice = 0#64 → (s.procs q).timeSlice = 0#64
  time : some p = s.cpu.idle ∨ (t.procs p).timeSlice ≠ 0#64

theorem schedNext_takes (h : Classed (· = .normal) s) :
    ∃ p, (schedNext s).1 = some p ∧ Takes p s (schedNext s).2 := by
  have hok := h.serving.ok
  have hnext := schedNext_case hok
  obtain ⟨hlevels, htime⟩ := nextFrom_slices (s := s) levels
  rw [← h.schedNext_eq] at hlevels htime
  cases hn : (schedNext s).1 with
  | none =>
    rw [hn] at hnext
    rcases hnext.perm with hp | ⟨_, hi, _⟩
    · exact absurd (hp.mem_iff.mpr (by simp)) hok.noNull
    · simp [h.serving.idle] at hi
  | some p =>
    rw [hn] at hnext
    exact ⟨p, rfl, hnext, schedNext_ok hok, schedNext_procs s, fun q => (hlevels q).1,
      fun q => (hlevels q).2, htime p hn⟩

section Takes

variable {p : ProcRef} {t u : Sched}

theorem Takes.yields_same (h : Takes p s t) (hc : s.cpu.current = some p) : Yields s t := by
  have hup := h.next.eq_nextUp
  have hcur : t.cpu.current = some p := by rw [h.procs.cpu, hc]
  refine ⟨hcur.trans hup, ?_, ?_, ?_, ?_, ?_, fun q hq => .inl (h.next.mem_level hq)⟩
  · intro q hq
    rw [hcur] at hq
    cases hq
    exact h.time
  · intro q
    exact .inl (h.level q)
  · intro q hq
    rw [h.procs.state] at hq
    by_cases hqp : s.cpu.current = some q
    · exact .inl (by rw [h.procs.cpu, hqp])
    · exact .inr ⟨hqp, hq⟩
  · intro q hq
    exact .inr ⟨by rw [← h.procs.cpu, hq], h.procs.state q⟩
  · intro q hq
    exact .inl (h.next.mem_queued hq)

theorem Takes.yields_switch (h : Takes p s t) (hc : s.cpu.current ≠ some p)
    (hleave : Leaves s.cpu.current t u) : Yields s (switchIn u (some p)) := by
  have hup := h.next.eq_nextUp
  have hne {q : ProcRef} (hq : s.cpu.current = some q) : s.nextUp ≠ some q := by
    intro he
    exact hc (hq.trans (he.symm.trans hup.symm))
  refine ⟨hup, ?_, ?_, ?_, ?_, ?_, ?_⟩
  · intro q hq
    cases hq
    rw [(switchIn_fields p p).2, hleave.other p hc]
    exact h.time
  · intro q
    rw [(switchIn_fields p q).1, ← h.level q]
    rcases hleave.level q with hsame | ⟨hq, hrun, hslice, hdem⟩
    · exact .inl hsame
    · rw [h.procs.state] at hrun
      exact .inr ⟨hq, hne hq, hrun, h.slice q hslice, hdem⟩
  · intro q hq
    rw [switchIn_state] at hq
    by_cases hqp : q = p
    · exact .inl (by rw [hqp]; rfl)
    · rw [if_neg hqp] at hq
      have hcq : s.cpu.current ≠ some q := fun hcq => hleave.state q hcq hq
      rw [hleave.other q hcq, h.procs.state] at hq
      exact .inr ⟨hcq, hq⟩
  · intro q hq
    cases hq
    exact .inl (by rw [switchIn_state, if_pos rfl])
  · intro q hq
    rcases hleave.queued q hq with hq | hq
    · exact .inl (h.next.mem_queued hq)
    · exact .inr hq
  · intro q hq
    rw [(switchIn_fields p q).1]
    rcases hleave.top q hq with hq | ⟨hq, hl⟩
    · exact .inl (h.next.mem_level hq)
    · exact .inr ⟨hq, hne hq, hl⟩

end Takes

theorem schedYield_yields (h : Classed (· = .normal) s) : Yields s (schedYield s) := by
  obtain ⟨p, hp, htakes⟩ := schedNext_takes h
  simp only [schedYield, hp, ne_eq, reduceCtorEq, not_false_eq_true, if_true, contextSwitch]
  by_cases hc : s.cpu.current = some p
  · rw [if_pos hc]
    exact htakes.yields_same hc
  · rw [if_neg hc]
    refine htakes.yields_switch hc (switchOut_leaves htakes.ok ?_)
    intro q hq
    cases q with
    | idle => exact .inl (by rw [htakes.procs.cpu, h.serving.idle])
    | slot i => exact .inr (by rw [(htakes.procs.sameClass _).1, h.table i])

end Yield

section Tick

variable {s : Sched} {p : ProcRef}

/-- A tick of the current process up to the aging part: the counters, and a yield when the
time slice of a process that can be preempted is over. -/
theorem tickHead_spends (hcur : s.cpu.current = some p) : ∃ u, Quiet s u ∧
    u.globalTicks = s.globalTicks + 1#64 ∧
    u.procs = Function.update s.procs p (s.procs p).charge.spend ∧
    tickHead s = if (s.procs p).timeSlice.toNat ≤ 1 ∧
      ((s.procs p).policy = .normal ∨ (s.procs p).policy = .rr) then schedYield u else u := by
  generalize ht : ({ s with
    globalTicks := s.globalTicks + 1#64
    cpu := { s.cpu with ticks := s.cpu.ticks + 1#64 } } : Sched) = t
  have hquiet : Quiet s t := by
    rw [← ht]
    exact ⟨rfl, rfl, rfl, rfl, rfl, fun _ => rfl, .of_procs rfl⟩
  have hcharge := hquiet.trans (tickCharge_quiet (s := t) p)
  have hts : t.procs = s.procs := by rw [← ht]
  have hslice := tickCharge_timeSlice (s := t) p
  obtain ⟨hprocs, hticks, _, _⟩ := tickCharge_fields (s := t) p
  rw [hts] at hslice hprocs
  refine ⟨tickCharge t p, hcharge, ?_, hprocs, ?_⟩
  · rw [hticks, ← ht]
  · simp only [tickHead]
    split
    · rename_i hnone
      rw [hcur] at hnone
      cases hnone
    · rename_i q hq
      obtain rfl : p = q := Option.some.inj (hcur.symm.trans hq)
      simp only [ht, (hcharge.sameClass p).1, hslice]
      by_cases hshort : (s.procs p).timeSlice.toNat ≤ 1
      · cases hpol : (s.procs p).policy <;> simp [hshort]
      · simp [hshort]

theorem spend_fields (x : Process) : x.charge.spend.queueLevel = x.queueLevel ∧
    x.charge.spend.policy = x.policy ∧ x.charge.spend.state = x.state ∧
    x.charge.spend.timeSlice.toNat = x.timeSlice.toNat - 1 := by
  have hcharge : x.charge.timeSlice = x.timeSlice := rfl
  rw [Process.spend, hcharge]
  by_cases hs : x.timeSlice > 0#64
  · rw [if_pos hs]
    refine ⟨rfl, rfl, rfl, ?_⟩
    show (x.timeSlice - 1#64).toNat = _
    bv_omega
  · rw [if_neg hs]
    refine ⟨rfl, rfl, rfl, ?_⟩
    rw [hcharge]
    bv_omega

theorem tickHead_of_current (hcur : s.cpu.current = some p)
    (hpol : (s.procs p).policy = .normal ∨ (s.procs p).policy = .idle) :
    ∃ u, Quiet s u ∧ u.globalTicks = s.globalTicks + 1#64 ∧
      (∀ q, (u.procs q).queueLevel = (s.procs q).queueLevel) ∧
      (1 < (s.procs p).timeSlice.toNat → (u.procs p).timeSlice ≠ 0#64) ∧
      tickHead s = if (s.procs p).timeSlice.toNat ≤ 1 ∧ (s.procs p).policy = .normal
        then schedYield u else u := by
  obtain ⟨u, hquiet, hticks, hprocs, heq⟩ := tickHead_spends hcur
  obtain ⟨hlevel, _, _, hslice⟩ := spend_fields (s.procs p)
  have hnotRr : (s.procs p).policy ≠ .rr := by
    rcases hpol with hp | hp <;> simp [hp]
  refine ⟨u, hquiet, hticks, ?_, ?_, ?_⟩
  · intro q
    rw [hprocs]
    by_cases hq : q = p
    · subst hq
      rw [Function.update_self, hlevel]
    · rw [Function.update_of_ne hq]
  · intro hlong hz
    rw [hprocs, Function.update_self, ← BitVec.toNat_inj, hslice, BitVec.toNat_zero] at hz
    omega
  · simpa [hnotRr] using heq

end Tick

end RiscvOs.Scheduler
