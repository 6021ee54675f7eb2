import RiscvOs.Boost
import RiscvOs.Quanta
set_option autoImplicit false

/-!
How long a ready process waits. Behind `k` others in the top queue it has the CPU after the rest
of the current slice and `k` slices of that queue, whatever else is called; the aging pass brings
the processes of the other queues there. Real-time processes and the idle process are apart: both
can keep the CPU from the normal ones for ever.
-/

namespace RiscvOs.Scheduler
open WordMemory Queues Runs

/-- No process is freed or made a real-time process, and processes that are queued or current are
not added. -/
def NormalOk (s : Sched) : SchedCall → Prop
  | .free _ => False
  | .add x => x = none ∨ x ∉ s.queued ∧ x ≠ s.cpu.current
  | .setPriority _ priority => priorityRtMax < priority
  | .setPolicy x policy => x ≠ some .idle ∧ policy = .normal
  | .alloc | .yield | .tick | .tickHead | .tickTail => True

instance NormalOk.decidable (s : Sched) : (c : SchedCall) → Decidable (NormalOk s c)
  | .free _ => inferInstanceAs (Decidable False)
  | .add _ => inferInstanceAs (Decidable (_ ∨ _))
  | .setPriority _ _ => inferInstanceAs (Decidable (_ < _))
  | .setPolicy _ _ => inferInstanceAs (Decidable (_ ∧ _))
  | .alloc | .yield | .tick | .tickHead | .tickTail => inferInstanceAs (Decidable True)

/-- The queues hold normal processes, each of them once, and not the one that has the CPU. -/
structure NormalLine (s : Sched) : Prop where
  classed : Classed (· = .normal) s
  once : Once s

section Normal

variable {s t : Sched} {p : ProcRef}

/-- A process gets another value with the policy that it had. -/
theorem Classed.same_policy (h : Classed (· = .normal) s) (hr : Rewrites p s t)
    (hstate : some p ∈ s.queued → (t.procs p).state ≠ .unused)
    (hpol : (t.procs p).policy = (s.procs p).policy) : Classed (· = .normal) t := by
  have hsame (q : ProcRef) : (t.procs q).policy = (s.procs q).policy := by
    by_cases hq : q = p
    · rw [hq, hpol]
    · rw [hr.others q hq]
  refine ⟨h.serving.rewrites hr hstate, ⟨?_, ?_⟩, ?_, ?_, ?_⟩
  · intro q hq
    rw [hsame]
    exact h.routed.rt q (hr.rt ▸ hq)
  · intro l q hq
    rw [hsame]
    exact h.routed.level l q (hr.level ▸ hq)
  · rw [RtSorted, hr.rt, h.rt_nil]
    exact List.Pairwise.nil
  · intro i
    rw [hsame, h.table i]
  · rw [hsame, h.idlePolicy]

theorem clampPriority_normal {v : Int} (hv : priorityRtMax < v) : ¬ clampPriority v ≤ priorityRtMax := by
  have hmin : ¬ v < priorityMin := by
    simp only [priorityRtMax, priorityMin] at *
    omega
  rw [clampPriority, if_neg hmin]
  by_cases hmax : v > priorityMax
  · rw [if_pos hmax]
    decide
  · rw [if_neg hmax]
    exact not_le.mpr hv

theorem NormalLine.start : NormalLine Sched.start := ⟨.start rfl, .start⟩

theorem NormalLine.ok (h : NormalLine s) : QueuesOk s := h.classed.serving.ok

theorem NormalLine.yield (h : NormalLine s) : NormalLine (schedYield s) :=
  ⟨h.classed.yield, h.once.yield h.ok h.classed.serving.idle⟩

theorem NormalLine.quiet (h : NormalLine s) (hq : Quiet s t) : NormalLine t :=
  ⟨h.classed.quiet hq, h.once.quiet hq⟩

theorem NormalLine.ticks (h : NormalLine s) :
    NormalLine (tickHead s) ∧ NormalLine (tickTail s) ∧ NormalLine (schedTick s) :=
  tick_invariant (I := NormalLine) (fun _ _ hs hq => hs.quiet hq) (fun _ _ hs _ _ => hs.yield)
    (fun _ hs => ⟨hs.classed.aging, hs.once.aging hs.ok⟩) h

theorem NormalLine.rewrites (h : NormalLine s) (hr : Rewrites p s t)
    (hstate : some p ∈ s.queued → (t.procs p).state ≠ .unused)
    (hpol : (t.procs p).policy = (s.procs p).policy) : NormalLine t :=
  ⟨h.classed.same_policy hr hstate hpol, h.once.rewrites hr⟩

theorem NormalLine.exec {c : SchedCall} (h : NormalLine s) (hok : NormalOk s c) : NormalLine (s.exec c) := by
  cases c with
  | alloc =>
    refine ⟨h.classed.alloc rfl, ?_⟩
    rcases processAlloc_case s with he | ⟨i, _, hr, _, _⟩
    · rw [Sched.exec, he]
      exact h.once
    · exact h.once.rewrites hr
  | free x => exact hok.elim
  | add x => exact ⟨h.classed.add x, h.once.add h.ok hok⟩
  | yield => exact h.yield
  | tick => exact h.ticks.2.2
  | tickHead => exact h.ticks.1
  | tickTail => exact h.ticks.2.1
  | setPriority x v =>
    cases x with
    | none => exact h
    | some p =>
      obtain ⟨hst, _, hpol⟩ := schedSetPriority_procs (s := s) p v
      refine h.rewrites (schedSetPriority_rewrites p v) ?_ ?_
      · rw [Sched.exec, hst]
        exact h.classed.serving.live p
      · rw [Sched.exec, hpol, if_neg (clampPriority_normal hok)]
  | setPolicy x policy =>
    cases x with
    | none => exact h
    | some p =>
      refine h.rewrites (schedSetPolicy_rewrites p policy) ?_ ?_
      · simpa [Sched.exec, schedSetPolicy] using h.classed.serving.live p
      · cases p with
        | slot i => simp [Sched.exec, schedSetPolicy, hok.2, h.classed.table i]
        | idle => exact absurd rfl hok.1

end Normal

section Queue

variable {s t : Sched} {p : ProcRef}

theorem schedAdd_extends (h : QueuesOk s) (x : ProcPtr) (l : Fin 4) : s.level l <+: (schedAdd s x).level l := by
  cases x with
  | none => exact List.prefix_rfl
  | some p =>
    rcases policy_cases (s.procs p).policy with hp | hp | hp
    · rw [schedAdd_normal hp, enqueueLevel_level (h.modify p _), modify_level]
      by_cases hl : l = clampLevel (s.procs p).queueLevel
      · subst hl
        rw [Function.update_self]
        split
        · exact List.prefix_append _ _
        · exact List.prefix_rfl
      · rw [Function.update_of_ne hl]
    · rw [schedAdd_realTime hp]
      exact List.prefix_rfl
    · rw [schedAdd_idle hp]
      exact List.prefix_rfl

theorem switchOut_extends (h : QueuesOk s) (x : ProcPtr) (l : Fin 4) :
    s.level l <+: (switchOut s x).level l := by
  cases x with
  | none => exact List.prefix_rfl
  | some p =>
    simp only [switchOut]
    split
    · have hcase := requeue_case (s := s) (p := p)
      generalize requeue s p = u at hcase
      cases hcase with
      | idle _ hu =>
        rw [modify_level, hu.level]
      | added _ _ hu =>
        rw [← hu.level]
        exact schedAdd_extends (hu.ok h) _ l
      | dropped _ _ hu => rw [hu.level]
    · exact List.prefix_rfl

theorem tickTail_extends (h : QueuesOk s) : s.level topLevel <+: (tickTail s).level topLevel := by
  unfold tickTail
  split
  · have htop := (agingPass_aged h).top
    have hle := level_le h 0
    rw [List.take_append, List.take_of_length_le hle] at htop
    exact ⟨_, htop.symm⟩
  · exact List.prefix_rfl

/-- With no real-time process queued, the head of the top queue gets the CPU and a full slice. -/
theorem Classed.yield_top (h : Classed (· = .normal) s) {x : ProcPtr} {xs : List ProcPtr}
    (hx : s.level topLevel = x :: xs) : ∃ i, x = some (.slot i) ∧
      (schedYield s).cpu.current = some (.slot i) ∧
      ((schedYield s).procs (.slot i)).timeSlice = queueTimeSlices topLevel ∧
      xs <+: (schedYield s).level topLevel := by
  have hok := h.serving.ok
  have hs : (s.readyQueues topLevel).size > 0 := by
    rw [size_pos_iff, hx]
    exact List.cons_ne_nil x xs
  obtain ⟨p, hp, hlevel⟩ := dequeue_level hok hs
  obtain ⟨rfl, rfl⟩ := List.cons.inj (hx.symm.trans hlevel)
  obtain ⟨t, ht⟩ : ∃ t, t = (s.setLevel topLevel (mlfqDequeue (s.readyQueues topLevel)).2).modify p
    (Process.setTimeSlice (queueTimeSlices topLevel)) := ⟨_, rfl⟩
  have hnext : schedNext s = (some p, t) := by
    have hlevels : levels = topLevel :: levels.tail := rfl
    rw [h.schedNext_eq, hlevels, nextFrom, if_pos hs, ht]
    simp only [hp]
  have htok : QueuesOk t := ht ▸ (dequeue_ok hok hs).modify p _
  have htop : t.level topLevel = (mlfqDequeue (s.readyQueues topLevel)).2.contents maxProcesses := by
    rw [ht, modify_level, setLevel_level, Function.update_self]
  have hslice : (t.procs p).timeSlice = queueTimeSlices topLevel := by
    rw [ht, modify_self]
    rfl
  have hslot : ∃ i, p = .slot i := by
    cases p with
    | slot i => exact ⟨i, rfl⟩
    | idle =>
      refine absurd (mem_queued.mpr (.inr ⟨topLevel, ?_⟩)) h.idle_unqueued
      rw [hx]
      exact List.mem_cons_self
  obtain ⟨i, rfl⟩ := hslot
  have hfst : (schedNext s).1 = some (.slot i) := by rw [hnext]
  have hsnd : (schedNext s).2 = t := by rw [hnext]
  refine ⟨i, rfl, ?_⟩
  by_cases hc : s.cpu.current = some (.slot i)
  · have hsame : schedYield s = t := by
      simp [schedYield, contextSwitch, hnext, hc]
    have hcpu := (schedNext_procs s).cpu
    rw [hsnd] at hcpu
    rw [hsame, htop, hcpu]
    exact ⟨hc, hslice, List.prefix_rfl⟩
  · rw [schedYield_eq hfst hc, hsnd, switchIn_current, switchIn_level, (switchIn_fields _ _).2,
      switchOut_procs_of_ne hc, ← htop]
    exact ⟨rfl, hslice, switchOut_extends htok _ _⟩

end Queue

/-- `p` waits in the top queue, and has at most `n` ticks to go: what is left of the current slice,
and a slice for each process before it. -/
structure Awaits (p : ProcRef) (n : Nat) (s : Sched) : Prop where
  line : NormalLine s
  turn : ∃ i before after, s.cpu.current = some (.slot i) ∧ s.level topLevel = before ++ some p :: after ∧
    max 1 (s.procs (.slot i)).timeSlice.toNat + 5 * before.length ≤ n

section Awaits

variable {s t : Sched} {p : ProcRef} {n : Nat}

/-- The queue only gets longer and the current process keeps what it has of its slice. -/
theorem Awaits.of_prefix (h : Awaits p n s) (ht : NormalLine t)
    (hcur : t.cpu.current = s.cpu.current) (hlevel : s.level topLevel <+: t.level topLevel)
    (hslice : ∀ q, s.cpu.current = some q → (t.procs q).timeSlice.toNat ≤ (s.procs q).timeSlice.toNat) :
    Awaits p n t := by
  obtain ⟨i, before, after, hi, hl, hle⟩ := h.turn
  obtain ⟨more, hmore⟩ := hlevel
  refine ⟨ht, i, before, after ++ more, hcur.trans hi, ?_, ?_⟩
  · rw [← hmore, hl]
    simp
  · have hs := hslice _ hi
    omega

theorem Awaits.rewrites {q : ProcRef} (h : Awaits p n s) (ht : NormalLine t) (hr : Rewrites q s t)
    (hslice : (t.procs q).timeSlice.toNat ≤ (s.procs q).timeSlice.toNat) : Awaits p n t := by
  refine h.of_prefix ht (by rw [hr.cpu]) (by rw [hr.level]) ?_
  intro r _
  by_cases hrq : r = q
  · rw [hrq]
    exact hslice
  · rw [hr.others r hrq]

/-- A yield takes one process off the queue: `p`, or one of those before it. -/
theorem Awaits.yield (h : Awaits p n s) : (schedYield s).cpu.current = some p ∨
    ∃ m, Awaits p m (schedYield s) ∧ m + 1 ≤ n := by
  obtain ⟨i, before, after, _, hl, hle⟩ := h.turn
  cases before with
  | nil =>
    obtain ⟨j, hj, hcur, _, _⟩ := h.line.classed.yield_top hl
    exact .inl (hcur.trans hj.symm)
  | cons x before =>
    obtain ⟨j, _, hcur, hslice, more, hmore⟩ := h.line.classed.yield_top hl
    have hfive : (queueTimeSlices topLevel).toNat = 5 := rfl
    rw [List.length_cons] at hle
    refine .inr ⟨5 + 5 * before.length, ⟨h.line.yield, j, before, after ++ more, hcur, ?_, ?_⟩, by omega⟩
    · rw [← hmore]
      simp
    · rw [hslice, hfive]
      omega

/-- A tick takes one off the slice, or ends it. -/
theorem Awaits.tickHead (h : Awaits p n s) : (tickHead s).cpu.current = some p ∨
    ∃ m, Awaits p m (tickHead s) ∧ m + 1 ≤ n := by
  obtain ⟨i, before, after, hcur, hl, hle⟩ := h.turn
  obtain ⟨u, hquiet, _, hprocs, heq⟩ := tickHead_spends hcur
  have hslice : (u.procs (.slot i)).timeSlice.toNat = (s.procs (.slot i)).timeSlice.toNat - 1 := by
    rw [hprocs, Function.update_self]
    exact (spend_fields _).2.2.2
  have hturn (m : Nat) (hm : max 1 (u.procs (.slot i)).timeSlice.toNat + 5 * before.length ≤ m) : Awaits p m u :=
    ⟨h.line.quiet hquiet, i, before, after, hquiet.current.trans hcur, hquiet.level ▸ hl, hm⟩
  rw [heq, h.line.classed.table i]
  by_cases hshort : (s.procs (.slot i)).timeSlice.toNat ≤ 1
  · rw [if_pos ⟨hshort, .inl rfl⟩]
    exact (hturn n (by omega)).yield
  · rw [if_neg fun hb => hshort hb.1]
    exact .inr ⟨n - 1, hturn (n - 1) (by omega), by omega⟩

/-- The aging pass puts the other queues behind the top one and leaves the current process alone. -/
theorem Awaits.tickTail (h : Awaits p n s) : Awaits p n (tickTail s) := by
  have hok := h.line.ok
  refine h.of_prefix h.line.ticks.2.1 (tickTail_current hok) (tickTail_extends hok) ?_
  intro q hq
  have hunqueued : some q ∉ s.queued := hq ▸ h.line.once.current
  have hsame : (Scheduler.tickTail s).procs q = s.procs q := by
    unfold Scheduler.tickTail
    split
    · rw [agingPass_procs hok, if_neg]
      rintro ⟨hm, _⟩
      simp only [List.mem_append] at hm
      rcases hm with hm | hm | hm <;> exact hunqueued (mem_queued.mpr (.inr ⟨_, hm⟩))
    · rfl
  rw [hsame]

/-- One call brings `p` to the CPU, or leaves it waiting: a tick less if it is one. -/
theorem Awaits.exec {c : SchedCall} (h : Awaits p n s) (hok : NormalOk s c) : (s.exec c).cpu.current = some p ∨
    ∃ m, Awaits p m (s.exec c) ∧ m + [c].countP SchedCall.isTick ≤ n := by
  have hline := h.line.exec hok
  cases c with
  | alloc =>
    refine .inr ⟨n, ?_, Nat.le_refl n⟩
    rcases processAlloc_case s with he | ⟨i, _, hr, _, hp⟩
    · rw [Sched.exec, he]
      exact h
    · refine h.rewrites hline hr ?_
      rw [Sched.exec, hp]
      exact Nat.zero_le _
  | free x => exact hok.elim
  | add x =>
    refine .inr ⟨n, h.of_prefix hline ?_ (schedAdd_extends h.line.ok x topLevel) ?_, Nat.le_refl n⟩
    · rw [Sched.exec, schedAdd_cpu]
    · intro q _
      cases x with
      | none => exact Nat.le_refl _
      | some r => rw [Sched.exec, (schedAdd_fields r q).2]
  | yield =>
    rcases h.yield with hc | ⟨m, hm, hle⟩
    · exact .inl hc
    · exact .inr ⟨m, hm, Nat.le_of_succ_le hle⟩
  | tick =>
    obtain ⟨i, _, _, hcur, _, _⟩ := h.turn
    have hok := h.line.ticks.1.ok
    rw [Sched.exec, schedTick_of_current hcur]
    rcases h.tickHead with hc | ⟨m, hm, hle⟩
    · exact .inl ((tickTail_current hok).trans hc)
    · exact .inr ⟨m, hm.tickTail, hle⟩
  | tickHead => exact h.tickHead
  | tickTail => exact .inr ⟨n, h.tickTail, Nat.le_refl n⟩
  | setPriority x v =>
    refine .inr ⟨n, ?_, Nat.le_refl n⟩
    cases x with
    | none => exact h
    | some q =>
      refine h.rewrites hline (schedSetPriority_rewrites q v) ?_
      simp only [Sched.exec, schedSetPriority]
      split <;> simp
  | setPolicy x policy =>
    refine .inr ⟨n, ?_, Nat.le_refl n⟩
    cases x with
    | none => exact h
    | some q =>
      refine h.rewrites hline (schedSetPolicy_rewrites q policy) ?_
      simp [Sched.exec, schedSetPolicy]

/-- After so many ticks as a waiting process has to go at most, it has had the CPU. -/
theorem Awaits.run {cont : List SchedCall} (h : Awaits p n s)
    (hcont : Run (guarded NormalOk Sched.exec) s cont t) (hn : n ≤ cont.countP SchedCall.isTick) :
    ∃ pre post u, cont = pre ++ post ∧ Run (guarded NormalOk Sched.exec) s pre u ∧ u.cpu.current = some p := by
  refine hcont.within (W := Awaits p) (P := fun u => u.cpu.current = some p) SchedCall.isTick ?_ ?_ h hn
  · intro s h
    obtain ⟨i, before, after, _, _, hle⟩ := h.turn
    omega
  · intro n s c u h hu
    rw [hu.2]
    exact h.exec hu.1

end Awaits

section Slices

variable {s t : Sched} {p q : ProcRef}

/-- No time slice is longer than that of the lowest queue. -/
def ShortSlices (s : Sched) : Prop := ∀ q, (s.procs q).timeSlice.toNat ≤ 40

theorem ShortSlices.of_same (h : ShortSlices s) (ht : ∀ q, (t.procs q).timeSlice = (s.procs q).timeSlice) :
    ShortSlices t := by
  intro q
  rw [ht]
  exact h q

theorem ShortSlices.update (h : ShortSlices s) (ho : ∀ q, q ≠ p → t.procs q = s.procs q)
    (hp : (t.procs p).timeSlice.toNat ≤ 40) : ShortSlices t := by
  intro q
  by_cases hq : q = p
  · rw [hq]
    exact hp
  · rw [ho q hq]
    exact h q

theorem queueTimeSlices_le (l : Fin 4) : (queueTimeSlices l).toNat ≤ 40 := by
  rcases level_cases l with rfl | rfl | rfl | rfl <;> decide

theorem ShortSlices.next (h : ShortSlices s) (hok : QueuesOk s) : ShortSlices (schedNext s).2 := by
  cases schedNext_fillCase hok with
  | kept _ hprocs => exact h.of_same fun q => by rw [hprocs]
  | filled l r _ _ hprocs =>
    refine h.update (p := r) (fun q hq => by rw [hprocs, Function.update_of_ne hq]) ?_
    rw [hprocs, Function.update_self]
    exact queueTimeSlices_le l
  | idle _ _ hprocs => exact h.of_same fun q => by rw [hprocs]

theorem requeue_timeSlice (q : ProcRef) : ((requeue s p).procs q).timeSlice = (s.procs q).timeSlice := by
  have hmodify (u : Sched) (f : Process → Process) (hf : ∀ x, (f x).timeSlice = x.timeSlice) :
      ((u.modify p f).procs q).timeSlice = (u.procs q).timeSlice := by
    rw [modify_procs]
    split
    · next hq => rw [hf, hq]
    · rfl
  have hcount : ∀ x : Process, x.countSwitch.timeSlice = x.timeSlice := fun _ => rfl
  have hstate : ∀ x : Process, (x.setState .runnable).timeSlice = x.timeSlice := fun _ => rfl
  simp only [requeue]
  split
  · rw [hmodify _ _ hstate, hmodify _ _ hcount]
  · split
    · rw [(schedAdd_fields _ _).2, hmodify _ _ hstate, hmodify _ _ (fun x => by split <;> rfl), hmodify _ _ hcount]
    · rw [(schedAdd_fields _ _).2, hmodify _ _ hstate, hmodify _ _ hcount]
    · exact hmodify _ _ hcount
    · exact hmodify _ _ hcount

theorem switchOut_timeSlice (x : ProcPtr) (q : ProcRef) :
    ((switchOut s x).procs q).timeSlice = (s.procs q).timeSlice := by
  cases x with
  | none => rfl
  | some p =>
    simp only [switchOut]
    split
    · exact requeue_timeSlice q
    · rfl

theorem ShortSlices.yield (h : ShortSlices s) (hs : Serving s) : ShortSlices (schedYield s) := by
  obtain ⟨p, hn⟩ := hs.next_some
  have hnext := h.next hs.ok
  by_cases hc : s.cpu.current = some p
  · have hsame : schedYield s = (schedNext s).2 := by
      simp [schedYield, contextSwitch, hn, hc]
    rwa [hsame]
  · rw [schedYield_eq hn hc]
    exact hnext.of_same fun q => by rw [(switchIn_fields p q).2, switchOut_timeSlice]

theorem ShortSlices.tickHead (h : ShortSlices s) (hs : Serving s) : ShortSlices (tickHead s) := by
  cases hcur : s.cpu.current with
  | none => exact h.of_same fun q => by rw [(tickHead_of_none hcur).2]
  | some p =>
    obtain ⟨u, hquiet, _, hprocs, heq⟩ := tickHead_spends hcur
    have hu : ShortSlices u := by
      refine h.update (p := p) (fun q hq => by rw [hprocs, Function.update_of_ne hq]) ?_
      rw [hprocs, Function.update_self, (spend_fields _).2.2.2]
      exact (Nat.sub_le _ _).trans (h p)
    rw [heq]
    split
    · exact hu.yield (hs.quiet hquiet)
    · exact hu

theorem ShortSlices.tickTail (h : ShortSlices s) (hok : QueuesOk s) : ShortSlices (tickTail s) := by
  unfold Scheduler.tickTail
  split
  · intro q
    rcases (agingPass_lifts hok).1 q with he | he
    · rw [he]
      exact h q
    · rw [he]
      exact queueTimeSlices_le topLevel
  · exact h

theorem ShortSlices.exec {c : SchedCall} (h : ShortSlices s) (hs : NormalLine s) (hok : NormalOk s c) :
    ShortSlices (s.exec c) := by
  have hserving := hs.classed.serving
  cases c with
  | alloc =>
    rcases processAlloc_case s with he | ⟨i, _, hr, _, hp⟩
    · rw [Sched.exec, he]
      exact h
    · refine h.update hr.others ?_
      rw [Sched.exec, hp]
      exact Nat.zero_le _
  | free x => exact hok.elim
  | add x =>
    cases x with
    | none => exact h
    | some r => exact h.of_same fun q => (schedAdd_fields r q).2
  | yield => exact h.yield hserving
  | tick =>
    rw [Sched.exec]
    unfold schedTick
    split
    · exact h.tickHead hserving
    · exact (h.tickHead hserving).tickTail hs.ticks.1.ok
  | tickHead => exact h.tickHead hserving
  | tickTail => exact h.tickTail hs.ok
  | setPriority x v =>
    cases x with
    | none => exact h
    | some p =>
      refine h.update (schedSetPriority_rewrites p v).others ?_
      have hp := h p
      simp only [Sched.exec, schedSetPriority]
      split <;> simpa using hp
  | setPolicy x policy =>
    cases x with
    | none => exact h
    | some p =>
      refine h.update (schedSetPolicy_rewrites p policy).others ?_
      have hp := h p
      simpa [Sched.exec, schedSetPolicy] using hp

end Slices

section Bounds

variable {s t : Sched} {p : ProcRef} {i : Fin 64} {calls cont : List SchedCall}

end Bounds

end RiscvOs.Scheduler
