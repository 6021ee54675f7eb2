import RiscvOs.ProcessCore
import RiscvOs.Conservation
import RiscvOs.Refills
import RiscvOs.Boost
set_option autoImplicit false

/-!
Two entries of a process record over whole runs: the pid, which tells processes apart also after
their slots were given to others, and the number of context switches, which counts every entry to
the CPU and every exit from it.
-/

namespace RiscvOs.Scheduler
open WordMemory Queues Runs

/-- `handed` is not in the source: the pids that `process_alloc` has handed out. -/
structure PidSys where
  sched : Sched
  handed : List Word

/-- The idle process is not freed, and the pids do not run out before that of the idle process. -/
def PidSys.Ok (s : PidSys) : SchedCall → Prop
  | .free x => x ≠ some .idle
  | .alloc => s.handed.length + 2 < 2^64
  | .add _ | .yield | .tick | .tickHead | .tickTail | .setPriority _ _ | .setPolicy _ _ => True

instance PidSys.decidableOk (s : PidSys) : (c : SchedCall) → Decidable (s.Ok c)
  | .free _ => inferInstanceAs (Decidable (_ ≠ _))
  | .alloc => inferInstanceAs (Decidable (_ < _))
  | .add _ | .yield | .tick | .tickHead | .tickTail | .setPriority _ _ | .setPolicy _ _ =>
    inferInstanceAs (Decidable True)

/-- The pid that a call hands out. -/
def Sched.handsOut (s : Sched) : SchedCall → List Word
  | .alloc => if (processAlloc s).1 = none then [] else [s.nextPid]
  | .free _ | .add _ | .yield | .tick | .tickHead | .tickTail | .setPriority _ _ | .setPolicy _ _ => []

def PidSys.exec (s : PidSys) (c : SchedCall) : PidSys := ⟨s.sched.exec c, s.handed ++ s.sched.handsOut c⟩

def PidSys.start : PidSys := ⟨Sched.start, []⟩

section NextPid

variable {s : Sched}

theorem schedAdd_nextPid (x : ProcPtr) : (schedAdd s x).nextPid = s.nextPid := by
  cases x with
  | none => rfl
  | some p =>
    simp only [schedAdd]
    split <;> rfl

theorem nextFrom_nextPid (ls : List (Fin 4)) : (nextFrom ls s).2.nextPid = s.nextPid := by
  induction ls generalizing s with
  | nil => rfl
  | cons l ls ih =>
    simp only [nextFrom]
    split
    · split
      · rfl
      · exact ih
    · exact ih

theorem schedNext_nextPid (s : Sched) : (schedNext s).2.nextPid = s.nextPid := by
  simp only [schedNext]
  split
  · split
    · rfl
    · exact nextFrom_nextPid levels
  · exact nextFrom_nextPid levels

theorem requeue_nextPid (p : ProcRef) : (requeue s p).nextPid = s.nextPid := by
  simp only [requeue]
  split
  · rfl
  · split
    · exact schedAdd_nextPid _
    · exact schedAdd_nextPid _
    · rfl
    · rfl

theorem switchOut_nextPid (x : ProcPtr) : (switchOut s x).nextPid = s.nextPid := by
  cases x with
  | none => rfl
  | some p =>
    simp only [switchOut]
    split
    · exact requeue_nextPid p
    · rfl

theorem schedYield_nextPid (s : Sched) : (schedYield s).nextPid = s.nextPid := by
  have hnext := schedNext_nextPid s
  cases hn : (schedNext s).1 with
  | none => rwa [schedYield, hn, if_neg (by decide)]
  | some p =>
    by_cases hc : s.cpu.current = some p
    · have hsame : schedYield s = (schedNext s).2 := by
        simp [schedYield, contextSwitch, hn, hc]
      rwa [hsame]
    · rw [schedYield_eq hn hc]
      exact (switchOut_nextPid _).trans hnext

theorem tickCharge_nextPid (p : ProcRef) : (tickCharge s p).nextPid = s.nextPid := by
  unfold tickCharge
  by_cases hidle : some p = s.cpu.idle
  · simp [hidle, Sched.modify]
  · simp [hidle, Sched.modify]

theorem tickHead_nextPid (s : Sched) : (tickHead s).nextPid = s.nextPid := by
  simp only [tickHead]
  split
  · rfl
  · repeat' split
    all_goals first
      | exact (schedYield_nextPid _).trans (tickCharge_nextPid _)
      | exact tickCharge_nextPid _

theorem agingDrain_nextPid (l : Fin 4) (n : Nat) : (agingDrain l n s).nextPid = s.nextPid := by
  induction n generalizing s with
  | zero => rfl
  | succ n ih =>
    simp only [agingDrain]
    split
    · split
      · exact ih
      · split
        · exact ih
        · exact ih
    · rfl

theorem tickTail_nextPid (s : Sched) : (tickTail s).nextPid = s.nextPid := by
  unfold tickTail
  split
  · exact ((agingDrain_nextPid 3 _).trans (agingDrain_nextPid 2 _)).trans (agingDrain_nextPid 1 _)
  · rfl

theorem schedSetPriority_nextPid (x : ProcPtr) (v : Int) : (schedSetPriority s x v).nextPid = s.nextPid := by
  cases x with
  | none => rfl
  | some p =>
    simp only [schedSetPriority]
    split <;> rfl

/-- Only `process_alloc` hands out a pid. -/
theorem exec_nextPid {c : SchedCall} (hc : c ≠ .alloc) : (s.exec c).nextPid = s.nextPid := by
  cases c with
  | alloc => exact absurd rfl hc
  | free x => cases x <;> rfl
  | add x => exact schedAdd_nextPid x
  | yield => exact schedYield_nextPid s
  | tick =>
    simp only [Sched.exec, schedTick]
    split
    · exact tickHead_nextPid s
    · exact (tickTail_nextPid _).trans (tickHead_nextPid s)
  | tickHead => exact tickHead_nextPid s
  | tickTail => exact tickTail_nextPid s
  | setPriority x v => exact schedSetPriority_nextPid x v
  | setPolicy x policy => cases x <;> rfl

end NextPid

section Pids

variable {s t : Sched} {p q : ProcRef}

theorem core_pid {x y : Process} (h : x.core = y.core) : x.pid = y.pid := by
  have hpid := congrArg Process.pid h
  exact hpid

theorem processAlloc_nextPid {x : ProcRef} (h : (processAlloc s).1 = some x) :
    (processAlloc s).2.nextPid = s.nextPid + 1#64 := by
  unfold processAlloc at h ⊢
  split
  · rfl
  · next hnone =>
    rw [hnone] at h
    cases h

theorem schedYield_pid (s : Sched) (q : ProcRef) : ((schedYield s).procs q).pid = (s.procs q).pid := by
  rcases schedYield_dispatch s with h | ⟨_, h⟩
  · exact core_pid (h.core q)
  · exact core_pid (h.core q)

theorem tickHead_pid (s : Sched) (q : ProcRef) : ((tickHead s).procs q).pid = (s.procs q).pid := by
  obtain ⟨u, hu, hcase⟩ := tickHead_charged s
  have hpid : (u.procs q).pid = (s.procs q).pid := by
    have hcore := congrArg Process.pid (hu.core q)
    split at hcore <;> exact hcore
  rcases hcase with he | he
  · rw [he, hpid]
  · rw [he, schedYield_pid, hpid]

/-- Calls that neither take a slot nor give one back leave every pid as it is. -/
theorem exec_pid {c : SchedCall} (halloc : c ≠ .alloc) (hfree : ∀ x, c ≠ .free x) (q : ProcRef) :
    ((s.exec c).procs q).pid = (s.procs q).pid := by
  cases c with
  | alloc => exact absurd rfl halloc
  | free x => exact absurd rfl (hfree x)
  | add x => exact core_pid ((schedAdd_kept x).core q)
  | yield => exact schedYield_pid s q
  | tick =>
    simp only [Sched.exec, schedTick]
    split
    · exact tickHead_pid s q
    · exact (core_pid ((tickTail_kept _).core q)).trans (tickHead_pid s q)
  | tickHead => exact tickHead_pid s q
  | tickTail => exact core_pid ((tickTail_kept s).core q)
  | setPriority x v => exact core_pid ((schedSetPriority_kept x v).core q)
  | setPolicy x policy => exact core_pid ((schedSetPolicy_kept x policy).core q)

/-- The pids in use are among those that were handed out, and no two processes have the same. -/
structure PidsOk (s : PidSys) : Prop where
  next : s.sched.nextPid.toNat = s.handed.length + 1
  bound : s.handed.length + 1 < 2^64
  stream : s.handed = stretch (BitVec.ofNat 64) 1 s.handed.length
  low : ∀ i, (s.sched.procs (.slot i)).pid.toNat ≤ s.handed.length
  distinct : ∀ i j, (s.sched.procs (.slot i)).pid = (s.sched.procs (.slot j)).pid →
    (s.sched.procs (.slot i)).pid ≠ 0#64 → i = j
  idle : (s.sched.procs .idle).pid = -1#64

theorem PidsOk.of_same {s t : PidSys} (h : PidsOk s) (hnext : t.sched.nextPid = s.sched.nextPid)
    (hhanded : t.handed = s.handed)
    (hpid : ∀ q, (t.sched.procs q).pid = (s.sched.procs q).pid) : PidsOk t := by
  refine ⟨?_, ?_, ?_, ?_, ?_, ?_⟩
  · rw [hnext, hhanded]
    exact h.next
  · rw [hhanded]
    exact h.bound
  · rw [hhanded]
    exact h.stream
  · intro i
    rw [hpid, hhanded]
    exact h.low i
  · intro i j
    rw [hpid, hpid]
    exact h.distinct i j
  · rw [hpid]
    exact h.idle

theorem PidsOk.start : PidsOk PidSys.start := by
  refine ⟨by decide, by decide, rfl, ?_, ?_, rfl⟩
  · intro i
    exact Nat.le_of_eq rfl
  · intro i j _ hne
    exact absurd rfl hne

theorem PidsOk.free {s : PidSys} {x : ProcPtr} (h : PidsOk s) (hx : x ≠ some .idle) : PidsOk (s.exec (.free x)) := by
  cases x with
  | none => exact h.of_same rfl (List.append_nil _) fun _ => rfl
  | some p =>
    have hhanded : (s.exec (.free (some p))).handed = s.handed := List.append_nil _
    have hpid (q : ProcRef) : ((s.exec (.free (some p))).sched.procs q).pid =
        if q = p then 0#64 else (s.sched.procs q).pid := by
      by_cases hq : q = p
      · rw [hq, if_pos rfl]
        exact congrArg Process.pid (modify_self (s := s.sched) (p := p) (f := Process.free))
      · rw [if_neg hq]
        exact congrArg Process.pid (Function.update_of_ne hq _ _)
    refine ⟨?_, ?_, ?_, ?_, ?_, ?_⟩
    · rw [hhanded]
      exact h.next
    · rw [hhanded]
      exact h.bound
    · rw [hhanded]
      exact h.stream
    · intro i
      rw [hpid, hhanded]
      split
      · exact Nat.zero_le _
      · exact h.low i
    · intro i j
      rw [hpid, hpid]
      by_cases hi : ProcRef.slot i = p
      · rw [if_pos hi]
        intro _ hne
        exact absurd rfl hne
      · rw [if_neg hi]
        split
        · intro he hne
          exact absurd he hne
        · exact h.distinct i j
    · rw [hpid, if_neg fun he => hx (congrArg some he.symm)]
      exact h.idle

theorem PidsOk.nextPid_eq {s : PidSys} (h : PidsOk s) (hroom : s.handed.length + 1 < 2^64) :
    s.sched.nextPid = BitVec.ofNat 64 (1 + s.handed.length) := by
  apply BitVec.eq_of_toNat_eq
  rw [BitVec.toNat_ofNat, h.next, Nat.mod_eq_of_lt (by omega), Nat.add_comm]

theorem PidsOk.ne_nextPid {s : PidSys} (h : PidsOk s) (j : Fin 64) :
    (s.sched.procs (.slot j)).pid ≠ s.sched.nextPid := by
  intro he
  have hlow := h.low j
  rw [he, h.next] at hlow
  omega

/-- A new process has a pid above all that were handed out before. -/
theorem PidsOk.alloc {s : PidSys} (h : PidsOk s) (hroom : s.handed.length + 2 < 2^64) : PidsOk (s.exec .alloc) := by
  rcases processAlloc_case s.sched with he | ⟨i, _, hr, hsome, hp⟩
  · have hnone : s.sched.handsOut .alloc = [] := by
      rw [Sched.handsOut, he]
      exact if_pos rfl
    have hsched : s.sched.exec .alloc = s.sched := by rw [Sched.exec, he]
    refine h.of_same ?_ ?_ fun q => ?_
    · rw [PidSys.exec, hsched]
    · rw [PidSys.exec, hnone, List.append_nil]
    · rw [PidSys.exec, hsched]
  · have hone : s.sched.handsOut .alloc = [s.sched.nextPid] := by
      rw [Sched.handsOut, hsome]
      exact if_neg (Option.some_ne_none _)
    have hexec : s.exec .alloc = ⟨(processAlloc s.sched).2, s.handed ++ [s.sched.nextPid]⟩ := by
      rw [PidSys.exec, hone, Sched.exec]
    have hlen : (s.handed ++ [s.sched.nextPid]).length = s.handed.length + 1 := by simp
    have hnext := h.next
    have hpid (q : ProcRef) : ((processAlloc s.sched).2.procs q).pid =
        if q = .slot i then s.sched.nextPid else (s.sched.procs q).pid := by
      by_cases hq : q = .slot i
      · rw [hq, if_pos rfl, hp]
        rfl
      · rw [if_neg hq, hr.others q hq]
    rw [hexec]
    refine ⟨?_, ?_, ?_, ?_, ?_, ?_⟩
    · show (processAlloc s.sched).2.nextPid.toNat = (s.handed ++ [s.sched.nextPid]).length + 1
      rw [processAlloc_nextPid hsome, BitVec.toNat_add, hnext, hlen]
      exact Nat.mod_eq_of_lt hroom
    · show (s.handed ++ [s.sched.nextPid]).length + 1 < 2^64
      rw [hlen]
      exact hroom
    · show s.handed ++ [s.sched.nextPid] = stretch (BitVec.ofNat 64) 1 (s.handed ++ [s.sched.nextPid]).length
      rw [hlen, ← stretch_append, ← h.stream, h.nextPid_eq (by omega)]
      rfl
    · intro j
      show ((processAlloc s.sched).2.procs (.slot j)).pid.toNat ≤ (s.handed ++ [s.sched.nextPid]).length
      rw [hpid, hlen]
      split
      · exact Nat.le_of_eq hnext
      · exact Nat.le_succ_of_le (h.low j)
    · intro j k
      show ((processAlloc s.sched).2.procs (.slot j)).pid = ((processAlloc s.sched).2.procs (.slot k)).pid → _
      rw [hpid, hpid]
      by_cases hj : ProcRef.slot j = .slot i
      · by_cases hk : ProcRef.slot k = .slot i
        · intro _ _
          exact ProcRef.slot.inj (hj.trans hk.symm)
        · rw [if_pos hj, if_neg hk]
          intro he _
          exact absurd he.symm (h.ne_nextPid k)
      · rw [if_neg hj]
        split
        · intro he _
          exact absurd he (h.ne_nextPid j)
        · exact h.distinct j k
    · show ((processAlloc s.sched).2.procs .idle).pid = _
      rw [hpid, if_neg (by simp)]
      exact h.idle

theorem PidsOk.exec {s : PidSys} {c : SchedCall} (h : PidsOk s) (hok : s.Ok c) : PidsOk (s.exec c) := by
  by_cases halloc : c = .alloc
  · subst halloc
    exact h.alloc hok
  · by_cases hfree : ∃ x, c = .free x
    · obtain ⟨x, rfl⟩ := hfree
      exact h.free hok
    · rw [not_exists] at hfree
      refine h.of_same (exec_nextPid halloc) ?_ (exec_pid halloc hfree)
      cases c <;> first | exact List.append_nil _ | exact absurd rfl halloc

theorem mem_pids {n : Nat} (hn : n < 2^64) {w : Word} :
    w ∈ stretch (BitVec.ofNat 64) 1 n ↔ 1 ≤ w.toNat ∧ w.toNat ≤ n := by
  simp only [stretch, List.mem_map, List.mem_range]
  constructor
  · rintro ⟨j, hj, rfl⟩
    rw [BitVec.toNat_ofNat, Nat.mod_eq_of_lt (by omega)]
    omega
  · intro hw
    refine ⟨w.toNat - 1, by omega, ?_⟩
    rw [Nat.add_sub_cancel' hw.1, BitVec.ofNat_toNat, BitVec.setWidth_eq]

theorem pids_nodup {n : Nat} (hn : n < 2^64) : (stretch (BitVec.ofNat 64) 1 n).Nodup := by
  refine List.Nodup.map_on ?_ List.nodup_range
  intro j hj k hk he
  have hnat := congrArg BitVec.toNat he
  rw [List.mem_range] at hj hk
  rw [BitVec.toNat_ofNat, BitVec.toNat_ofNat, Nat.mod_eq_of_lt (by omega), Nat.mod_eq_of_lt (by omega)] at hnat
  omega

/-- In every run that hands out fewer than `2^64 - 2` pids they are 1, 2, 3 and so on: none is handed
out twice, also when the slot of a freed process is used again. No two processes have the same pid,
the idle process has one that is never handed out, and a process without one has the pid 0. -/
theorem pids_unique {calls : List SchedCall} {s : PidSys}
    (h : Run (guarded PidSys.Ok PidSys.exec) PidSys.start calls s) :
    s.handed = stretch (BitVec.ofNat 64) 1 s.handed.length ∧ s.handed.Nodup ∧
    (∀ p q, (s.sched.procs p).pid = (s.sched.procs q).pid → (s.sched.procs p).pid ≠ 0#64 → p = q) ∧
    (∀ i, (s.sched.procs (.slot i)).pid = 0#64 ∨ (s.sched.procs (.slot i)).pid ∈ s.handed) ∧
    (s.sched.procs .idle).pid ∉ s.handed := by
  have hs : PidsOk s := h.guarded_invariant PidsOk (fun _ _ hs hok => hs.exec hok) .start
  have hbound := hs.bound
  have hmem {w : Word} : w ∈ s.handed ↔ 1 ≤ w.toNat ∧ w.toNat ≤ s.handed.length := by
    rw [hs.stream]
    simpa using mem_pids (by omega)
  have hidle : (s.sched.procs .idle).pid.toNat = 2^64 - 1 := by
    rw [hs.idle]
    rfl
  have hslot (i : Fin 64) : (s.sched.procs (.slot i)).pid ≠ (s.sched.procs .idle).pid := by
    intro he
    have hlow := hs.low i
    rw [he, hidle] at hlow
    omega
  refine ⟨hs.stream, ?_, ?_, ?_, ?_⟩
  · rw [hs.stream]
    exact pids_nodup (by omega)
  · intro p q he hne
    cases p with
    | idle =>
      cases q with
      | idle => rfl
      | slot j => exact absurd he.symm (hslot j)
    | slot i =>
      cases q with
      | idle => exact absurd he (hslot i)
      | slot j => exact congrArg ProcRef.slot (hs.distinct i j he hne)
  · intro i
    by_cases hz : (s.sched.procs (.slot i)).pid = 0#64
    · exact .inl hz
    · refine .inr (hmem.mpr ⟨?_, hs.low i⟩)
      rw [Nat.one_le_iff_ne_zero]
      intro he
      exact hz (BitVec.eq_of_toNat_eq he)
  · rw [hmem, hidle]
    omega

/-- The slot of a freed process is taken again, under a new pid. -/
theorem pids_unique_reused : ∃ s, Run (guarded PidSys.Ok PidSys.exec) PidSys.start
      [.alloc, .alloc, .free (some (.slot 0)), .alloc] s ∧
    s.handed = [1#64, 2#64, 3#64] ∧ (s.sched.procs (.slot 0)).pid = 3#64 ∧ s.handed.Nodup := by
  have hrun := run_guarded_iff.mpr ⟨show Admissible PidSys.Ok PidSys.exec PidSys.start
    [.alloc, .alloc, .free (some (.slot 0)), .alloc] by decide +kernel, rfl⟩
  exact ⟨_, hrun, by decide +kernel, by decide +kernel, (pids_unique hrun).2.1⟩

end Pids

section Switches

variable {s t u : Sched} {p q : ProcRef}

def Process.switches (x : Process) : Word := x.stats.contextSwitches

/-- The CPU stays with its process, and nothing is counted. -/
structure NoSwitch (s t : Sched) : Prop where
  current : t.cpu.current = s.cpu.current
  switches : ∀ q, (t.procs q).switches = (s.procs q).switches
  state : ∀ q, s.cpu.current = some q → (t.procs q).state = (s.procs q).state

theorem NoSwitch.refl (s : Sched) : NoSwitch s s := ⟨rfl, fun _ => rfl, fun _ _ => rfl⟩

theorem NoSwitch.trans (h : NoSwitch s t) (h' : NoSwitch t u) : NoSwitch s u :=
  ⟨h'.current.trans h.current, fun q => (h'.switches q).trans (h.switches q),
    fun q hq => (h'.state q (h.current.trans hq)).trans (h.state q hq)⟩

theorem NoSwitch.of_procs (hc : t.cpu.current = s.cpu.current) (hp : t.procs = s.procs) : NoSwitch s t :=
  ⟨hc, fun _ => by rw [hp], fun _ _ => by rw [hp]⟩

theorem modify_switches {f : Process → Process} (hf : ∀ x, (f x).switches = x.switches) (q : ProcRef) :
    ((s.modify p f).procs q).switches = (s.procs q).switches := by
  rw [modify_procs]
  split
  · next hq => rw [hf, hq]
  · rfl

theorem NoSwitch.modify {f : Process → Process} (hf : ∀ x, (f x).switches = x.switches)
    (hst : ∀ x, (f x).state = x.state) : NoSwitch s (s.modify p f) := by
  refine ⟨rfl, modify_switches hf, ?_⟩
  intro q _
  rw [modify_procs]
  split
  · next hq => rw [hst, hq]
  · rfl

theorem schedAdd_switches (x : ProcPtr) (q : ProcRef) :
    ((schedAdd s x).procs q).switches = (s.procs q).switches := by
  cases x with
  | none => rfl
  | some p =>
    rw [schedAdd_procs]
    split
    · next hq =>
      rw [hq]
      rfl
    · rfl

theorem nextFrom_switches (ls : List (Fin 4)) (q : ProcRef) :
    ((nextFrom ls s).2.procs q).switches = (s.procs q).switches := by
  induction ls generalizing s with
  | nil => rfl
  | cons l ls ih =>
    simp only [nextFrom]
    split
    · split
      · exact modify_switches (f := Process.setTimeSlice _) (fun _ => rfl) q
      · exact ih
    · exact ih

theorem schedNext_noSwitch (s : Sched) : NoSwitch s (schedNext s).2 := by
  have hsame := schedNext_procs s
  refine ⟨by rw [hsame.cpu], fun q => ?_, fun q _ => hsame.state q⟩
  simp only [schedNext]
  split
  · split
    · rfl
    · exact nextFrom_switches levels q
  · exact nextFrom_switches levels q

/-- A running process that leaves the CPU counts one switch. -/
theorem requeue_switches (p q : ProcRef) : ((requeue s p).procs q).switches =
    (s.procs q).switches + if q = p then 1#64 else 0#64 := by
  have hcount : ((s.modify p Process.countSwitch).procs q).switches =
      (s.procs q).switches + if q = p then 1#64 else 0#64 := by
    rw [modify_procs]
    split
    · next hq =>
      rw [hq]
      rfl
    · exact (BitVec.add_zero _).symm
  have hstate (v : Sched) : ((v.modify p (Process.setState .runnable)).procs q).switches = (v.procs q).switches :=
    modify_switches (f := Process.setState .runnable) (fun _ => rfl) q
  rw [← hcount]
  simp only [requeue]
  split
  · exact hstate _
  · split
    · refine (schedAdd_switches _ q).trans ((hstate _).trans (modify_switches ?_ q))
      intro x
      split <;> rfl
    · exact (schedAdd_switches _ q).trans (hstate _)
    · rfl
    · rfl

theorem switchIn_switches (p q : ProcRef) : ((switchIn s (some p)).procs q).switches =
    (s.procs q).switches + if q = p then 1#64 else 0#64 := by
  simp only [switchIn, modify_procs]
  split
  · next hq =>
    rw [hq]
    rfl
  · exact (BitVec.add_zero _).symm

/-- `p` has got the CPU, and both it and the process that had it count the switch. -/
structure Entered (p : ProcRef) (s t : Sched) : Prop where
  other : s.cpu.current ≠ some p
  current : t.cpu.current = some p
  running : (t.procs p).state = .running
  switches : ∀ q, (t.procs q).switches =
    (s.procs q).switches + (if s.cpu.current = some q then 1#64 else 0#64) + if q = p then 1#64 else 0#64

/-- The process on the CPU is running. -/
def OnCpu (s : Sched) : Prop := ∀ q, s.cpu.current = some q → (s.procs q).state = .running

theorem switchOut_switches (h : OnCpu s) (q : ProcRef) : ((switchOut s s.cpu.current).procs q).switches =
    (s.procs q).switches + if s.cpu.current = some q then 1#64 else 0#64 := by
  cases hc : s.cpu.current with
  | none => exact (BitVec.add_zero _).symm
  | some p =>
    have hout : switchOut s (some p) = requeue s p := if_pos (h p hc)
    rw [hout, requeue_switches]
    simp only [Option.some.injEq, eq_comm]

theorem NoSwitch.onCpu (h : NoSwitch s t) (hs : OnCpu s) : OnCpu t := by
  intro q hq
  rw [h.current] at hq
  rw [h.state q hq, hs q hq]

theorem schedYield_entered (h : OnCpu s) : NoSwitch s (schedYield s) ∨ ∃ p, Entered p s (schedYield s) := by
  have hnext := schedNext_noSwitch s
  cases hn : (schedNext s).1 with
  | none =>
    have hsame : schedYield s = (schedNext s).2 := by
      simp [schedYield, hn]
    exact .inl (hsame ▸ hnext)
  | some p =>
    by_cases hc : s.cpu.current = some p
    · have hsame : schedYield s = (schedNext s).2 := by
        simp [schedYield, contextSwitch, hn, hc]
      exact .inl (hsame ▸ hnext)
    · rw [schedYield_eq hn hc]
      refine .inr ⟨p, hc, rfl, ?_, fun q => ?_⟩
      · rw [switchIn_state, if_pos rfl]
      · have hout := switchOut_switches (hnext.onCpu h) q
        rw [hnext.current, hnext.switches] at hout
        rw [switchIn_switches, hout]

theorem spend_switches (x : Process) : x.spend.switches = x.switches := by
  unfold Process.spend
  split <;> rfl

theorem tickHead_entered (h : OnCpu s) : NoSwitch s (tickHead s) ∨ ∃ p, Entered p s (tickHead s) := by
  cases hcur : s.cpu.current with
  | none =>
    obtain ⟨hquiet, hprocs⟩ := tickHead_of_none hcur
    exact .inl (.of_procs hquiet.current hprocs)
  | some r =>
    obtain ⟨v, hquiet, _, hprocs, heq⟩ := tickHead_spends hcur
    have hv : NoSwitch s v := by
      refine ⟨hquiet.current, fun q => ?_, fun q _ => hquiet.state q⟩
      rw [hprocs]
      by_cases hq : q = r
      · rw [hq, Function.update_self, spend_switches]
        rfl
      · rw [Function.update_of_ne hq]
    rw [heq]
    split
    · rcases schedYield_entered (hv.onCpu h) with hy | ⟨p, hy⟩
      · exact .inl (hv.trans hy)
      · refine .inr ⟨p, ?_, hy.current, hy.running, fun q => ?_⟩
        · rw [← hv.current]
          exact hy.other
        · rw [hy.switches, hv.current, hv.switches]
    · exact .inl hv

theorem agingDrain_noSwitch (l : Fin 4) (n : Nat) : NoSwitch s (agingDrain l n s) := by
  induction n generalizing s with
  | zero => exact .refl s
  | succ n ih =>
    have hlevel : NoSwitch s (s.setLevel l (mlfqDequeue (s.readyQueues l)).2) := .of_procs rfl rfl
    simp only [agingDrain]
    split
    · split
      · exact hlevel.trans ih
      · next p _ =>
        split
        · have hboost : NoSwitch (s.setLevel l (mlfqDequeue (s.readyQueues l)).2)
              ((s.setLevel l (mlfqDequeue (s.readyQueues l)).2).modify p Process.boost) :=
            .modify (fun _ => rfl) fun _ => rfl
          refine (hlevel.trans hboost).trans (NoSwitch.trans (.of_procs ?_ ?_) ih) <;> rfl
        · exact hlevel.trans ih
    · exact .refl s

theorem tickTail_noSwitch (s : Sched) : NoSwitch s (tickTail s) := by
  unfold tickTail
  split
  · exact ((agingDrain_noSwitch 1 _).trans (agingDrain_noSwitch 2 _)).trans (agingDrain_noSwitch 3 _)
  · exact .refl s

theorem schedSetPriority_noSwitch (x : ProcPtr) (v : Int) : NoSwitch s (schedSetPriority s x v) := by
  cases x with
  | none => exact .refl s
  | some p =>
    simp only [schedSetPriority]
    split
    · refine .trans (.modify ?_ ?_) (.modify ?_ ?_) <;> exact fun _ => rfl
    · refine .trans (.modify ?_ ?_) (.modify ?_ ?_) <;> exact fun _ => rfl

theorem schedSetPolicy_noSwitch (x : ProcPtr) (policy : SchedPolicy) : NoSwitch s (schedSetPolicy s x policy) := by
  cases x with
  | none => exact .refl s
  | some p =>
    simp only [schedSetPolicy]
    exact .modify (fun _ => rfl) fun _ => rfl

theorem schedAdd_noSwitch {x : ProcPtr} (hx : x = none ∨ x ≠ s.cpu.current) : NoSwitch s (schedAdd s x) := by
  refine ⟨by rw [schedAdd_cpu], schedAdd_switches x, fun q hq => ?_⟩
  cases x with
  | none => rfl
  | some p =>
    rw [schedAdd_state, if_neg]
    rintro rfl
    rcases hx with he | he
    · cases he
    · exact he hq.symm

theorem tick_entered (h : OnCpu s) : NoSwitch s (schedTick s) ∨ ∃ p, Entered p s (schedTick s) := by
  have hhead := tickHead_entered h
  simp only [schedTick]
  split
  · exact hhead
  · have htail := tickTail_noSwitch (tickHead s)
    rcases hhead with hh | ⟨p, hh⟩
    · exact .inl (hh.trans htail)
    · refine .inr ⟨p, hh.other, ?_, ?_, fun q => ?_⟩
      · rw [htail.current, hh.current]
      · rw [htail.state p hh.current, hh.running]
      · rw [htail.switches, hh.switches]

/-- `entries` is not in the source: how often a process has got the CPU since its slot was taken. -/
structure SwitchSys where
  sched : Sched
  entries : ProcRef → Nat

/-- The process on the CPU is neither freed nor put into a ready queue. -/
def SwitchSys.Ok (s : SwitchSys) : SchedCall → Prop
  | .add x => x = none ∨ x ≠ s.sched.cpu.current
  | .free x => x = none ∨ x ≠ s.sched.cpu.current
  | .alloc | .yield | .tick | .tickHead | .tickTail | .setPriority _ _ | .setPolicy _ _ => True

instance SwitchSys.decidableOk (s : SwitchSys) : (c : SchedCall) → Decidable (s.Ok c)
  | .add _ => inferInstanceAs (Decidable (_ ∨ _))
  | .free _ => inferInstanceAs (Decidable (_ ∨ _))
  | .alloc | .yield | .tick | .tickHead | .tickTail | .setPriority _ _ | .setPolicy _ _ =>
    inferInstanceAs (Decidable True)

/-- The process whose record a call starts anew. -/
def Sched.renews (s : Sched) : SchedCall → ProcPtr
  | .alloc => (processAlloc s).1
  | .free x => x
  | .add _ | .yield | .tick | .tickHead | .tickTail | .setPriority _ _ | .setPolicy _ _ => none

def SwitchSys.exec (s : SwitchSys) (c : SchedCall) : SwitchSys :=
  ⟨s.sched.exec c, fun q =>
    if s.sched.renews c = some q then 0
    else if s.sched.cpu.current ≠ some q ∧ (s.sched.exec c).cpu.current = some q then s.entries q + 1
    else s.entries q⟩

def SwitchSys.start : SwitchSys := ⟨Sched.start, fun _ => 0⟩

/-- Each stay on the CPU counts twice, at its start and at its end. -/
def Counted (entries : ProcRef → Nat) (s : Sched) : Prop :=
  ∀ q, (s.procs q).switches + (if s.cpu.current = some q then 1#64 else 0#64) = BitVec.ofNat 64 (2 * entries q)

/-- The record of `x`, which is not on the CPU, is started anew. -/
structure Renewed (x : ProcPtr) (s t : Sched) : Prop where
  current : t.cpu.current = s.cpu.current
  off : x = none ∨ x ≠ s.cpu.current
  switches : ∀ q, (t.procs q).switches = if x = some q then 0#64 else (s.procs q).switches
  state : ∀ q, x ≠ some q → (t.procs q).state = (s.procs q).state

theorem Renewed.onCpu {x : ProcPtr} (h : Renewed x s t) (hs : OnCpu s) : OnCpu t := by
  intro q hq
  rw [h.current] at hq
  rw [h.state q, hs q hq]
  intro hx
  rcases h.off with he | he
  · rw [hx] at he
    cases he
  · exact he (hx.trans hq.symm)

theorem Renewed.counted {x : ProcPtr} {n : ProcRef → Nat} (h : Renewed x s t) (hs : Counted n s) :
    Counted (fun q => if x = some q then 0 else n q) t := by
  intro q
  show (t.procs q).switches + (if t.cpu.current = some q then 1#64 else 0#64) =
    BitVec.ofNat 64 (2 * if x = some q then 0 else n q)
  rw [h.switches, h.current]
  by_cases hx : x = some q
  · have hoff : s.cpu.current ≠ some q := by
      rcases h.off with he | he
      · rw [he] at hx
        cases hx
      · exact fun hc => he (hx.trans hc.symm)
    rw [if_pos hx, if_pos hx, if_neg hoff]
    rfl
  · rw [if_neg hx, if_neg hx]
    exact hs q

theorem processFree_renewed {x : ProcPtr} (hx : x = none ∨ x ≠ s.cpu.current) : Renewed x s (processFree s x) := by
  cases x with
  | none => exact ⟨rfl, hx, fun _ => rfl, fun _ _ => rfl⟩
  | some p =>
    refine ⟨rfl, hx, fun q => ?_, fun q hq => ?_⟩
    · simp only [processFree, modify_procs, Option.some.injEq, eq_comm (a := p)]
      split
      · rfl
      · rfl
    · simp only [processFree, modify_procs]
      rw [if_neg fun he => hq (congrArg some he.symm)]

theorem processAlloc_renewed (hs : OnCpu s) : Renewed (processAlloc s).1 s (processAlloc s).2 := by
  rcases processAlloc_case s with he | ⟨i, hu, hr, hsome, hp⟩
  · rw [he]
    exact ⟨rfl, .inl rfl, fun _ => rfl, fun _ _ => rfl⟩
  · rw [hsome]
    refine ⟨by rw [hr.cpu], .inr ?_, fun q => ?_, fun q hq => ?_⟩
    · intro he
      have hrun := hs _ he.symm
      rw [hu] at hrun
      cases hrun
    · by_cases hq : q = .slot i
      · rw [hq, hp, if_pos rfl]
        rfl
      · rw [hr.others q hq, if_neg fun he => hq (Option.some.inj he).symm]
    · rw [hr.others q fun he => hq (congrArg some he.symm)]

theorem NoSwitch.counted {n : ProcRef → Nat} (h : NoSwitch s t) (hs : Counted n s) : Counted n t := by
  intro q
  rw [h.switches, h.current]
  exact hs q

theorem Entered.onCpu (h : Entered p s t) : OnCpu t := by
  intro q hq
  rw [h.current] at hq
  rw [← Option.some.inj hq, h.running]

theorem Entered.counted {n : ProcRef → Nat} (h : Entered p s t) (hs : Counted n s) :
    Counted (fun q => if q = p then n q + 1 else n q) t := by
  intro q
  have hq := hs q
  show (t.procs q).switches + (if t.cpu.current = some q then 1#64 else 0#64) =
    BitVec.ofNat 64 (2 * if q = p then n q + 1 else n q)
  rw [h.switches, h.current, hq]
  by_cases hp : q = p
  · rw [if_pos hp, if_pos (congrArg some hp.symm), if_pos hp, Nat.mul_add, BitVec.ofNat_add, BitVec.add_assoc]
    rfl
  · rw [if_neg hp, if_neg fun he => hp (Option.some.inj he).symm, if_neg hp, BitVec.add_zero, BitVec.add_zero]

theorem exec_entered {c : SchedCall} (h : OnCpu s) (hadd : ∀ x, c = .add x → x = none ∨ x ≠ s.cpu.current)
    (halloc : c ≠ .alloc) (hfree : ∀ x, c ≠ .free x) :
    NoSwitch s (s.exec c) ∨ ∃ p, Entered p s (s.exec c) := by
  cases c with
  | alloc => exact absurd rfl halloc
  | free x => exact absurd rfl (hfree x)
  | add x => exact .inl (schedAdd_noSwitch (hadd x rfl))
  | yield => exact schedYield_entered h
  | tick => exact tick_entered h
  | tickHead => exact tickHead_entered h
  | tickTail => exact .inl (tickTail_noSwitch s)
  | setPriority x v => exact .inl (schedSetPriority_noSwitch x v)
  | setPolicy x policy => exact .inl (schedSetPolicy_noSwitch x policy)

theorem start_counted : OnCpu Sched.start ∧ Counted (fun _ => 0) Sched.start := by
  refine ⟨fun q hq => ?_, fun q => ?_⟩
  · cases hq
  · cases q with
    | slot i => rfl
    | idle => rfl

theorem SwitchSys.exec_counted {s : SwitchSys} {c : SchedCall} (h : OnCpu s.sched ∧ Counted s.entries s.sched)
    (hok : s.Ok c) : OnCpu (s.exec c).sched ∧ Counted (s.exec c).entries (s.exec c).sched := by
  obtain ⟨hon, hcount⟩ := h
  -- a call that starts a record anew switches nothing
  have hrenew (x : ProcPtr) (hx : s.sched.renews c = x) (hr : Renewed x s.sched (s.sched.exec c)) :
      OnCpu (s.exec c).sched ∧ Counted (s.exec c).entries (s.exec c).sched := by
    refine ⟨hr.onCpu hon, ?_⟩
    have hentries : (s.exec c).entries = fun q => if x = some q then 0 else s.entries q := by
      funext q
      simp only [SwitchSys.exec]
      have hstay : ¬(s.sched.cpu.current ≠ some q ∧ s.sched.cpu.current = some q) := fun he => he.1 he.2
      rw [hx, hr.current, if_neg hstay]
    rw [hentries]
    exact hr.counted hcount
  have hswitch (hadd : ∀ x, c = .add x → x = none ∨ x ≠ s.sched.cpu.current) (halloc : c ≠ .alloc)
      (hfree : ∀ x, c ≠ .free x) : OnCpu (s.exec c).sched ∧ Counted (s.exec c).entries (s.exec c).sched := by
    have hnone (q : ProcRef) : s.sched.renews c ≠ some q := by
      cases c <;> simp_all [Sched.renews]
    rcases exec_entered hon hadd halloc hfree with he | ⟨p, he⟩
    · refine ⟨he.onCpu hon, ?_⟩
      have hentries : (s.exec c).entries = s.entries := by
        funext q
        simp only [SwitchSys.exec]
        rw [if_neg (hnone q), he.current, if_neg fun hc => hc.1 hc.2]
      rw [hentries]
      exact he.counted hcount
    · refine ⟨he.onCpu, ?_⟩
      have hentries : (s.exec c).entries = fun q => if q = p then s.entries q + 1 else s.entries q := by
        funext q
        simp only [SwitchSys.exec]
        rw [if_neg (hnone q), he.current]
        by_cases hq : q = p
        · rw [hq, if_pos ⟨he.other, rfl⟩, if_pos rfl]
        · rw [if_neg fun hc => hq (Option.some.inj hc.2).symm, if_neg hq]
      rw [hentries]
      exact he.counted hcount
  cases c with
  | alloc => exact hrenew _ rfl (processAlloc_renewed hon)
  | free x => exact hrenew x rfl (processFree_renewed hok)
  | add x => exact hswitch (fun y hy => SchedCall.add.inj hy ▸ hok) nofun nofun
  | yield | tick | tickHead | tickTail | setPriority _ _ | setPolicy _ _ => exact hswitch nofun nofun nofun

/-- In every run in which the process on the CPU is not freed and not put into a queue, the
`context_switches` of a process is twice the number of times it has got the CPU since its slot was
taken, and one less while it has the CPU, also for the idle process. -/
theorem context_switches_counted {calls : List SchedCall} {s : SwitchSys}
    (h : Run (guarded SwitchSys.Ok SwitchSys.exec) SwitchSys.start calls s) (q : ProcRef) :
    (s.sched.procs q).stats.contextSwitches =
      BitVec.ofNat 64 (2 * s.entries q) - if s.sched.cpu.current = some q then 1#64 else 0#64 := by
  have hs := h.guarded_invariant (fun s => OnCpu s.sched ∧ Counted s.entries s.sched)
    (fun _ _ hs hok => SwitchSys.exec_counted hs hok) start_counted
  rw [← hs.2 q, BitVec.add_sub_cancel]
  rfl

/-- Two processes take turns: the first has had the CPU twice, and has it. -/
theorem context_switches_counted_turns : ∃ s, Run (guarded SwitchSys.Ok SwitchSys.exec) SwitchSys.start
      [.alloc, .alloc, .add (some (.slot 0)), .add (some (.slot 1)), .yield, .yield, .yield] s ∧
    s.entries (.slot 0) = 2 ∧ s.sched.cpu.current = some (.slot 0) ∧
    (s.sched.procs (.slot 0)).stats.contextSwitches = 3#64 := by
  have hrun := run_guarded_iff.mpr ⟨show Admissible SwitchSys.Ok SwitchSys.exec SwitchSys.start
    [.alloc, .alloc, .add (some (.slot 0)), .add (some (.slot 1)), .yield, .yield, .yield] by decide +kernel, rfl⟩
  refine ⟨_, hrun, by decide +kernel, by decide +kernel, ?_⟩
  rw [context_switches_counted hrun (.slot 0)]
  decide +kernel

end Switches

end RiscvOs.Scheduler
