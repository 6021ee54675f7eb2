import RiscvOs.Dispatch
import RiscvOs.Runs
set_option autoImplicit false

/-!
The timer tick: what the aging pass does to the queues, when the running process is
preempted, and the rule that an invariant of the scheduler survives a tick.
-/

namespace RiscvOs.Scheduler
open WordMemory Queues Runs

section Aging

variable {s t u : Sched}

def Sched.isNormal (s : Sched) : ProcPtr → Bool
  | none => false
  | some p => decide ((s.procs p).policy = .normal)

theorem SameClass.isNormal (h : SameClass s t) : t.isNormal = s.isNormal := by
  funext x
  cases x with
  | none => rfl
  | some p => simp only [Sched.isNormal, (h p).1]

theorem take_append_take {α : Type} (n : Nat) (xs ys : List α) :
    (xs.take n ++ ys).take n = (xs ++ ys).take n := by
  simp only [List.take_append, List.take_take, Nat.min_self, List.length_take]
  congr 2
  omega

theorem take_snoc {α : Type} {n : Nat} {xs : List α} (h : xs.length ≤ n) (x : α) :
    (xs ++ [x]).take n = if xs.length < n then xs ++ [x] else xs := by
  by_cases hx : xs.length < n
  · rw [if_pos hx, List.take_of_length_le]
    simp only [List.length_append, List.length_singleton]
    omega
  · rw [if_neg hx, List.take_append_of_le_length (by omega), List.take_of_length_le h]

theorem level_le (h : QueuesOk s) (l : Fin 4) : (s.level l).length ≤ maxProcesses := by
  rw [level_length]
  exact (h.rings l).size_le

/-- Draining level `l` moves its normal processes to the end of level 0, as far as it has room. -/
structure Drained (l : Fin 4) (s t : Sched) : Prop where
  ok : QueuesOk t
  procs : SameProcs s t
  rt : t.rt = s.rt
  level : t.level = Function.update (Function.update s.level l []) 0
    ((s.level 0 ++ (s.level l).filter s.isNormal).take maxProcesses)
  full : (s.level 0).length + (s.level l).length ≤ maxProcesses → t.fullReturns = s.fullReturns

theorem Drained.nil (h : QueuesOk s) {l : Fin 4} (hl : s.level l = []) : Drained l s s := by
  refine ⟨h, .refl s, rfl, ?_, fun _ => rfl⟩
  rw [hl, ← hl, Function.update_eq_self, hl, List.filter_nil, List.append_nil,
    List.take_of_length_le (level_le h 0), Function.update_eq_self]

/-- One round of the loop: the head of level `l` is handled, and the rest is drained. -/
theorem Drained.cons {l : Fin 4} (h : Drained l u t) (hl : l ≠ 0) {x : ProcPtr}
    {xs : List ProcPtr} (hs : s.level l = x :: xs) (hprocs : SameProcs s u) (hrt : u.rt = s.rt)
    (hlevel : u.level = Function.update (Function.update s.level l xs) 0
      (((s.level 0 ++ [x].filter s.isNormal)).take maxProcesses))
    (hfull : (s.level 0).length < maxProcesses → u.fullReturns = s.fullReturns) :
    Drained l s t := by
  have hul : u.level l = xs := by rw [hlevel, Function.update_of_ne hl, Function.update_self]
  have hu0 : u.level 0 = (s.level 0 ++ [x].filter s.isNormal).take maxProcesses := by
    rw [hlevel, Function.update_self]
  refine ⟨h.ok, hprocs.trans h.procs, h.rt.trans hrt, ?_, ?_⟩
  · rw [h.level, hul, hu0, hprocs.sameClass.isNormal, take_append_take, hs, List.append_assoc,
      ← List.filter_append, List.singleton_append, hlevel]
    funext k
    by_cases hk : k = 0
    · subst hk
      simp
    · by_cases hkl : k = l
      · subst hkl
        simp [hk]
      · simp [hk, hkl]
  · intro hsum
    rw [hs, List.length_cons] at hsum
    rw [h.full, hfull (by omega)]
    rw [hul, hu0, List.length_take, List.length_append]
    have hx := List.length_filter_le s.isNormal [x]
    simp only [List.length_singleton] at hx
    omega

/-- One round of the loop at level `l`: its head `p` is taken off, and boosted if it is normal. -/
structure DrainRound (l : Fin 4) (p : ProcRef) (xs : List ProcPtr) (s u : Sched) : Prop where
  ok : QueuesOk u
  head : s.level l = some p :: xs
  level : u.level = Function.update (Function.update s.level l xs) 0
    ((s.level 0 ++ [some p].filter s.isNormal).take maxProcesses)
  rt : u.rt = s.rt
  cpu : u.cpu = s.cpu
  procs : ∀ q, u.procs q = if q = p ∧ (s.procs p).policy = .normal then (s.procs p).boost else s.procs q
  full : (s.level 0).length < maxProcesses → u.fullReturns = s.fullReturns

theorem agingDrain_round {l : Fin 4} (hl : l ≠ 0) (h : QueuesOk s) (hs : (s.readyQueues l).size > 0) :
    ∃ p xs u, DrainRound l p xs s u ∧ ∀ n, agingDrain l (n+1) s = agingDrain l n u := by
  obtain ⟨p, hp, hlevel⟩ := dequeue_level h hs
  have hok := dequeue_ok h hs
  have hproc (q : ProcRef) : (s.setLevel l (mlfqDequeue (s.readyQueues l)).2).procs q =
    s.procs q := rfl
  simp only [agingDrain, if_pos hs, hp]
  by_cases hnorm : (s.procs p).policy = .normal
  · simp only [hproc, if_pos hnorm]
    have hokm := hok.modify p Process.boost
    refine ⟨p, _, _, ⟨enqueueLevel_ok hokm 0 p, hlevel, ?_, rfl, rfl, ?_, ?_⟩, fun _ => rfl⟩
    · rw [enqueueLevel_level hokm, modify_level, setLevel_level, Function.update_of_ne hl.symm]
      congr 1
      rw [List.filter_cons_of_pos (by simp [Sched.isNormal, hnorm]), List.filter_nil,
        take_snoc (level_le h 0)]
    · intro q
      simp only [hnorm, and_true]
      exact modify_procs
    · intro hfull
      rw [level_length] at hfull
      simp [Sched.enqueueLevel, Sched.setLevel, Function.update_of_ne hl.symm, hfull]
  · simp only [hproc, if_neg hnorm]
    refine ⟨p, _, _, ⟨hok, hlevel, ?_, rfl, rfl, ?_, fun _ => rfl⟩, fun _ => rfl⟩
    · rw [setLevel_level, List.filter_cons_of_neg (by simp [Sched.isNormal, hnorm]),
        List.filter_nil, List.append_nil, List.take_of_length_le (level_le h 0), eq_comm,
        Function.update_eq_self_iff, Function.update_of_ne hl.symm]
    · intro q
      rw [if_neg fun hq => hnorm hq.2]
      rfl

section Round

variable {l : Fin 4} {p : ProcRef} {xs : List ProcPtr}

theorem DrainRound.rest (h : DrainRound l p xs s u) (hl : l ≠ 0) : u.level l = xs := by
  rw [h.level, Function.update_of_ne hl, Function.update_self]

theorem DrainRound.size (h : DrainRound l p xs s u) (hl : l ≠ 0) {n : Nat}
    (hn : (s.readyQueues l).size = n + 1) : (u.readyQueues l).size = n := by
  have hlen := congrArg List.length h.head
  rw [level_length, hn, List.length_cons] at hlen
  rw [← level_length, h.rest hl]
  omega

theorem DrainRound.sameProcs (h : DrainRound l p xs s u) : SameProcs s u := by
  refine ⟨h.cpu, ?_, ?_⟩
  · intro q
    rw [h.procs]
    split
    · rename_i hq
      rw [hq.1]
      rfl
    · rfl
  · intro q
    rw [h.procs]
    split
    · rename_i hq
      rw [hq.1]
      exact ⟨rfl, rfl⟩
    · exact ⟨rfl, rfl⟩

end Round

theorem agingDrain_drained {l : Fin 4} (hl : l ≠ 0) {n : Nat} (h : QueuesOk s)
    (hn : (s.readyQueues l).size = n) : Drained l s (agingDrain l n s) := by
  induction n generalizing s with
  | zero =>
    refine .nil h (List.length_eq_zero_iff.mp ?_)
    rw [level_length, hn]
  | succ n ih =>
    obtain ⟨p, xs, u, hround, heq⟩ := agingDrain_round hl h (by omega)
    rw [heq n]
    exact (ih hround.ok (hround.size hl hn)).cons hl hround.head hround.sameProcs hround.rt
      hround.level hround.full

/-- What the aging pass leaves behind. -/
structure Aged (s t : Sched) : Prop where
  ok : QueuesOk t
  procs : SameProcs s t
  rt : t.rt = s.rt
  top : t.level 0 = (s.level 0 ++ (s.level 1 ++ (s.level 2 ++ s.level 3)).filter s.isNormal).take
    maxProcesses
  lower : ∀ l, l ≠ 0 → t.level l = []
  full : (allLevels s.level).length ≤ maxProcesses → t.fullReturns = s.fullReturns

theorem agingLevel_drained {l : Fin 4} (hl : l ≠ 0) (h : QueuesOk s) :
    Drained l s (agingLevel s l) :=
  agingDrain_drained hl h rfl

theorem Drained.top {l : Fin 4} (h : Drained l s t) :
    t.level 0 = (s.level 0 ++ (s.level l).filter s.isNormal).take maxProcesses := by
  rw [h.level, Function.update_self]

theorem Drained.other {l k : Fin 4} (h : Drained l s t) (hk : k ≠ 0) (hkl : k ≠ l) :
    t.level k = s.level k := by
  rw [h.level, Function.update_of_ne hk, Function.update_of_ne hkl]

theorem Drained.self {l : Fin 4} (h : Drained l s t) (hl : l ≠ 0) : t.level l = [] := by
  rw [h.level, Function.update_of_ne hl, Function.update_self]

theorem agingPass_aged (h : QueuesOk s) : Aged s (agingPass s) := by
  have h₁ := agingLevel_drained (l := 1) (by decide) h
  have h₂ := agingLevel_drained (l := 2) (by decide) h₁.ok
  have h₃ := agingLevel_drained (l := 3) (by decide) h₂.ok
  have hl₂ : (agingLevel s 1).level 2 = s.level 2 := h₁.other (by decide) (by decide)
  have hl₃ : (agingLevel (agingLevel s 1) 2).level 3 = s.level 3 := by
    rw [h₂.other (by decide) (by decide), h₁.other (by decide) (by decide)]
  have hn₂ := h₁.procs.sameClass.isNormal
  have hn₃ := (h₁.procs.sameClass.trans h₂.procs.sameClass).isNormal
  refine ⟨h₃.ok, (h₁.procs.trans h₂.procs).trans h₃.procs, ?_, ?_, ?_, ?_⟩
  · exact h₃.rt.trans (h₂.rt.trans h₁.rt)
  · show (agingLevel (agingLevel (agingLevel s 1) 2) 3).level 0 = _
    rw [h₃.top, h₂.top, h₁.top, hl₃, hl₂, hn₃, hn₂]
    simp only [take_append_take, List.append_assoc, List.filter_append]
  · intro l hl
    show (agingLevel (agingLevel (agingLevel s 1) 2) 3).level l = []
    rcases level_cases l with rfl | rfl | rfl | rfl
    · exact absurd rfl hl
    · rw [h₃.other hl (by decide), h₂.other hl (by decide), h₁.self hl]
    · rw [h₃.other hl (by decide), h₂.self hl]
    · exact h₃.self hl
  · intro hsum
    have hf₁ := (s.level 1).length_filter_le s.isNormal
    have hf₂ := (s.level 2).length_filter_le s.isNormal
    simp only [allLevels_eq, List.length_append] at hsum
    show (agingLevel (agingLevel (agingLevel s 1) 2) 3).fullReturns = _
    rw [h₃.full, h₂.full, h₁.full]
    · omega
    · rw [h₁.top, hl₂, List.length_take, List.length_append]
      omega
    · rw [h₂.top, h₁.top, hl₃, hl₂, hn₂, take_append_take, List.length_take]
      simp only [List.length_append]
      omega

theorem Aged.allLevels_top (h : Aged s t) : allLevels t.level = t.level 0 := by
  simp [allLevels_eq, h.lower 1, h.lower 2, h.lower 3]

/-- Aging keeps every entry when the lower levels hold normal processes and level 0 has room. -/
theorem Aged.queued_eq (h : Aged s t)
    (hn : ∀ x ∈ s.level 1 ++ (s.level 2 ++ s.level 3), s.isNormal x = true)
    (hlen : (allLevels s.level).length ≤ maxProcesses) : t.queued = s.queued := by
  rw [allLevels_eq] at hlen
  rw [Sched.queued, Sched.queued, h.rt, h.allLevels_top, h.top, List.filter_eq_self.mpr hn,
    List.take_of_length_le hlen, allLevels_eq]

theorem Aged.sublist (h : Aged s t) : List.Subperm t.queued s.queued := by
  rw [Sched.queued, Sched.queued, h.allLevels_top, h.rt, h.top, allLevels_eq]
  refine List.Sublist.subperm (List.Sublist.append_left ?_ _)
  refine (List.take_sublist _ _).trans ?_
  exact List.Sublist.append_left List.filter_sublist _

end Aging

section Tick

variable {s : Sched}

theorem tickCharge_quiet (p : ProcRef) : Quiet s (tickCharge s p) := by
  unfold tickCharge
  refine Quiet.trans (t := if some p = s.cpu.idle
    then { s.modify p _ with cpu := { s.cpu with idleTicks := s.cpu.idleTicks + 1#64 } }
    else s.modify p _) ?_ (.modify ?_ ?_ ?_)
  · have h : Quiet s (s.modify p fun x =>
        { x with stats := { x.stats with cpuTime := x.stats.cpuTime + 1#64 } }) :=
      .modify (fun _ => rfl) (fun _ => rfl) (fun _ => rfl)
    split
    · exact ⟨h.rtQueue, h.readyQueues, h.current, h.idle, h.fullReturns, h.state, h.sameClass⟩
    · exact h
  all_goals
    intro x
    split <;> rfl

theorem tickCharge_timeSlice (p : ProcRef) :
    ((tickCharge s p).procs p).timeSlice = 0#64 ↔ (s.procs p).timeSlice.toNat ≤ 1 := by
  have hts : ((tickCharge s p).procs p).timeSlice =
      if (s.procs p).timeSlice > 0#64 then (s.procs p).timeSlice - 1#64
      else (s.procs p).timeSlice := by
    simp only [tickCharge, modify_self]
    split <;> split <;> simp_all
  rw [hts]
  generalize (s.procs p).timeSlice = w
  by_cases hw : w > 0#64
  · rw [if_pos hw]
    bv_omega
  · rw [if_neg hw]
    bv_omega

/-- What `sched_tick` does before its aging part. -/
inductive TickCase (s : Sched) : Sched → Prop
  | noProcess {u : Sched} (hcur : s.cpu.current = none) (hu : Quiet s u) : TickCase s u
  | expired {p : ProcRef} {u : Sched} (hcur : s.cpu.current = some p)
      (hslice : (s.procs p).timeSlice.toNat ≤ 1)
      (hpol : (s.procs p).policy = .normal ∨ (s.procs p).policy = .rr) (hu : Quiet s u) :
      TickCase s (schedYield u)
  | kept {p : ProcRef} {u : Sched} (hcur : s.cpu.current = some p)
      (hkeep : 1 < (s.procs p).timeSlice.toNat ∨
        (s.procs p).policy = .fifo ∨ (s.procs p).policy = .idle) (hu : Quiet s u) :
      TickCase s u

theorem tickHead_case (s : Sched) : TickCase s (tickHead s) := by
  have hcount : Quiet s { s with
      globalTicks := s.globalTicks + 1#64
      cpu := { s.cpu with ticks := s.cpu.ticks + 1#64 } } :=
    ⟨rfl, rfl, rfl, rfl, rfl, fun _ => rfl, .of_procs rfl⟩
  unfold tickHead
  cases hcur : s.cpu.current with
  | none => exact .noProcess hcur hcount
  | some p =>
    generalize hu : ({ s with
      globalTicks := s.globalTicks + 1#64
      cpu := { s.cpu with ticks := s.cpu.ticks + 1#64 } } : Sched) = u at hcount
    have hcharge := hcount.trans (tickCharge_quiet (s := u) p)
    have hslice := tickCharge_timeSlice (s := u) p
    have hts : (u.procs p).timeSlice = (s.procs p).timeSlice := by rw [← hu]
    rw [hts] at hslice
    simp only [(hcharge.sameClass p).1]
    by_cases hz : ((tickCharge u p).procs p).timeSlice = 0#64
    · rw [if_pos hz]
      cases hp : (s.procs p).policy with
      | normal => exact .expired hcur (hslice.mp hz) (.inl hp) hcharge
      | fifo => exact .kept hcur (.inr (.inl hp)) hcharge
      | rr => exact .expired hcur (hslice.mp hz) (.inr hp) hcharge
      | idle => exact .kept hcur (.inr (.inr hp)) hcharge
    · rw [if_neg hz]
      refine .kept hcur (.inl ?_) hcharge
      have hn := mt hslice.mpr hz
      omega

/-- A property that survives quiet changes, the switch of a preemptible process and the
aging pass survives a tick and each of its two parts. -/
theorem tick_invariant {I : Sched → Prop} (hquiet : ∀ s t, I s → Quiet s t → I t)
    (hyield : ∀ s p, I s → s.cpu.current = some p →
      ((s.procs p).policy = .normal ∨ (s.procs p).policy = .rr) → I (schedYield s))
    (haging : ∀ s, I s → I (agingPass s)) (h : I s) :
    I (tickHead s) ∧ I (tickTail s) ∧ I (schedTick s) := by
  have hhead : I (tickHead s) := by
    have hcase := tickHead_case s
    generalize tickHead s = t at hcase
    cases hcase with
    | noProcess _ hu => exact hquiet _ _ h hu
    | @expired p u hcur _ hpol hu =>
      refine hyield u p (hquiet _ _ h hu) (hu.current.trans hcur) ?_
      rw [(hu.sameClass p).1]
      exact hpol
    | kept _ _ hu => exact hquiet _ _ h hu
  have htail (t : Sched) (ht : I t) : I (tickTail t) := by
    unfold tickTail
    split
    · exact haging t ht
    · exact ht
  refine ⟨hhead, htail s h, ?_⟩
  unfold schedTick
  split
  · exact hhead
  · exact htail _ hhead

end Tick

end RiscvOs.Scheduler
