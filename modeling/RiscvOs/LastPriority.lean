import RiscvOs.Routing
set_option autoImplicit false

/-!
What a sequence of `sched_set_priority` calls leaves behind. A real-time priority makes the
process a round-robin process, and a normal priority sets the level but not the policy.
-/

namespace RiscvOs.Scheduler
open WordMemory Queues

/-- The `queue_level` that `sched_set_priority` gives to a normal priority. -/
def priorityLevel (priority : Int) : Int :=
  let level := ((priority - priorityNormalMin) * numQueueLevels) / (priorityMax - priorityNormalMin + 1)
  if level ≥ numQueueLevels then numQueueLevels - 1 else level

def setPriorities (s : Sched) (p : ProcRef) (vs : List Int) : Sched :=
  vs.foldl (fun s v => schedSetPriority s (some p) v) s

/-- The priorities are set one after the other, and the process is added. -/
def addWith (s : Sched) (p : ProcRef) (vs : List Int) : Sched := schedAdd (setPriorities s p vs) (some p)

section Fields

variable {s : Sched} {p : ProcRef} {v : Int}

theorem schedSetPriority_rt (hv : clampPriority v ≤ priorityRtMax) :
    (schedSetPriority s (some p) v).procs p =
      { s.procs p with priority := clampPriority v, dynamicPriority := clampPriority v, policy := .rr } := by
  simp only [schedSetPriority, if_pos hv, modify_self]

theorem schedSetPriority_normal (hv : priorityRtMax < clampPriority v) :
    (schedSetPriority s (some p) v).procs p = { s.procs p with
      priority := clampPriority v
      dynamicPriority := clampPriority v
      queueLevel := priorityLevel (clampPriority v) } := by
  simp only [schedSetPriority, if_neg (not_le.mpr hv), modify_self, priorityLevel]

theorem setPriorities_concat (s : Sched) (p : ProcRef) (vs : List Int) (v : Int) :
    setPriorities s p (vs ++ [v]) = schedSetPriority (setPriorities s p vs) (some p) v := by
  simp [setPriorities]

theorem setPriorities_rewrites (s : Sched) (p : ProcRef) (vs : List Int) :
    Rewrites p s (setPriorities s p vs) := by
  induction vs generalizing s with
  | nil => exact ⟨rfl, rfl, rfl, rfl, fun _ _ => rfl⟩
  | cons v vs ih => exact (schedSetPriority_rewrites p v).trans (ih _)

theorem setPriorities_policy (s : Sched) (p : ProcRef) (vs : List Int) :
    ((setPriorities s p vs).procs p).policy =
      if ∀ w ∈ vs, priorityRtMax < clampPriority w then (s.procs p).policy else .rr := by
  induction vs generalizing s with
  | nil => simp [setPriorities]
  | cons v vs ih =>
    have hrec := ih (schedSetPriority s (some p) v)
    rw [(schedSetPriority_procs p v).2.2] at hrec
    have hcons : setPriorities s p (v :: vs) = setPriorities (schedSetPriority s (some p) v) p vs := rfl
    rw [hcons, hrec]
    simp only [List.forall_mem_cons]
    by_cases hv : clampPriority v ≤ priorityRtMax
    · simp [hv, not_lt.mpr hv]
    · simp [hv, not_le.mp hv]

end Fields

section Standing

/-- The process has the same class and level in both states, and stands in the same queues. -/
structure SameStanding (p : ProcRef) (s t : Sched) : Prop where
  priority : (s.procs p).priority = (t.procs p).priority
  dynamicPriority : (s.procs p).dynamicPriority = (t.procs p).dynamicPriority
  policy : (s.procs p).policy = (t.procs p).policy
  queueLevel : (s.procs p).queueLevel = (t.procs p).queueLevel
  rt : s.rt.count (some p) = t.rt.count (some p)
  level : ∀ l, (s.level l).count (some p) = (t.level l).count (some p)

/-- The last of the priorities decides: also about the entry that `sched_add` makes in the
real-time queue. -/
def LastDecides (s : Sched) (p : ProcRef) (vs : List Int) (v : Int) : Prop :=
  (priorityNormalMin ≤ clampPriority v → SameStanding p (addWith s p (vs ++ [v])) (addWith s p [v])) ∧
  ((addWith s p (vs ++ [v])).rt.count (some p) = s.rt.count (some p) + 1 ↔ clampPriority v ≤ priorityRtMax)

variable {s t u : Sched} {p : ProcRef}

theorem schedAdd_count_rt : (schedAdd s (some p)).rt.count (some p) = s.rt.count (some p) + 1 ↔
    ((s.procs p).policy = .fifo ∨ (s.procs p).policy = .rr) ∧ s.rt.length < maxProcesses := by
  rw [schedAdd_rt]
  split
  · next h =>
    have hperm := insertAfter_perm (fun x => decide (s.prio x ≤ s.prio (some p))) (some p) s.rt
    rw [hperm.count_eq, List.count_cons_self]
    exact iff_of_true rfl h
  · next h => exact iff_of_false (by omega) h

/-- Normal processes with the same fields go to the same queue. -/
theorem sameStanding_add (ht : Rewrites p s t) (hu : Rewrites p s u)
    (hprio : (t.procs p).priority = (u.procs p).priority)
    (hdyn : (t.procs p).dynamicPriority = (u.procs p).dynamicPriority)
    (hpol : (t.procs p).policy = .normal) (hpol' : (u.procs p).policy = .normal)
    (hlevel : (t.procs p).queueLevel = (u.procs p).queueLevel) :
    SameStanding p (schedAdd t (some p)) (schedAdd u (some p)) := by
  have hprocs (w : Sched) : (schedAdd w (some p)).procs p = (w.procs p).setState .runnable := by
    rw [schedAdd_procs, if_pos rfl]
  have hrings : (schedAdd t (some p)).readyQueues = (schedAdd u (some p)).readyQueues := by
    rw [schedAdd_normal hpol, schedAdd_normal hpol', hlevel]
    simp only [Sched.enqueueLevel, Sched.setLevel, modify_readyQueues, ht.readyQueues, hu.readyQueues]
  refine ⟨?_, ?_, ?_, ?_, ?_, ?_⟩
  · rw [hprocs, hprocs]
    exact hprio
  · rw [hprocs, hprocs]
    exact hdyn
  · rw [hprocs, hprocs]
    exact hpol.trans hpol'.symm
  · rw [hprocs, hprocs]
    exact hlevel
  · rw [schedAdd_rt, schedAdd_rt, hpol, hpol', ht.rt, hu.rt]
    simp
  · intro l
    rw [Sched.level, hrings]
    rfl

theorem addWith_count_rt (hpol : (s.procs p).policy = .normal) (vs : List Int) :
    (addWith s p vs).rt.count (some p) = s.rt.count (some p) + 1 ↔
      (¬ ∀ w ∈ vs, priorityRtMax < clampPriority w) ∧ s.rt.length < maxProcesses := by
  have hcount := schedAdd_count_rt (s := setPriorities s p vs) (p := p)
  rw [(setPriorities_rewrites s p vs).rt, setPriorities_policy, hpol] at hcount
  rw [addWith, hcount]
  by_cases hvs : ∀ w ∈ vs, priorityRtMax < clampPriority w
  · rw [if_pos hvs]
    exact iff_of_false (fun hc => by simp at hc) fun hc => hc.1 hvs
  · rw [if_neg hvs]
    exact and_congr_left fun _ => iff_of_true (.inr rfl) hvs

theorem addWith_policy (hpol : (s.procs p).policy = .normal) (vs : List Int) :
    ((addWith s p vs).procs p).policy =
      if ∀ w ∈ vs, priorityRtMax < clampPriority w then .normal else .rr := by
  rw [addWith, schedAdd_procs, if_pos rfl, ← hpol]
  exact setPriorities_policy s p vs

theorem addWith_sameStanding (hpol : (s.procs p).policy = .normal) {vs : List Int} {v : Int}
    (hvs : ∀ w ∈ vs, priorityRtMax < clampPriority w) (hv : priorityRtMax < clampPriority v) :
    SameStanding p (addWith s p (vs ++ [v])) (addWith s p [v]) := by
  have hnormal (ws : List Int) (hws : ∀ w ∈ ws, priorityRtMax < clampPriority w) :
      ((setPriorities s p ws).procs p).policy = .normal := by
    rw [setPriorities_policy, if_pos hws, hpol]
  have hlast (ws : List Int) : (setPriorities s p (ws ++ [v])).procs p = { (setPriorities s p ws).procs p with
      priority := clampPriority v
      dynamicPriority := clampPriority v
      queueLevel := priorityLevel (clampPriority v) } := by
    rw [setPriorities_concat]
    exact schedSetPriority_normal hv
  have hone := hlast []
  rw [List.nil_append] at hone
  refine sameStanding_add (setPriorities_rewrites s p _) (setPriorities_rewrites s p _) ?_ ?_
    (hnormal _ ?_) (hnormal [v] (by simpa using hv)) ?_
  · rw [hlast, hone]
  · rw [hlast, hone]
  · intro w hw
    rcases List.mem_append.mp hw with hw | hw
    · exact hvs w hw
    · rw [List.mem_singleton.mp hw]
      exact hv
  · rw [hlast, hone]

theorem processAlloc_fresh {s₀ s : Sched} (halloc : processAlloc s₀ = (some p, s)) :
    Rewrites p s₀ s ∧ (s.procs p).policy = .normal := by
  rcases processAlloc_case s₀ with he | ⟨i, _, hr, hp, hx⟩
  · rw [he] at halloc
    cases halloc
  · rw [halloc] at hr hp hx
    cases hp
    refine ⟨hr, ?_⟩
    rw [hx]
    rfl

/-- For a process fresh from `process_alloc`, in any state: the last priority decides exactly when
it is a real-time priority and the real-time queue has room, or all priorities are normal. -/
theorem last_priority_decides_iff {s₀ s : Sched} {p : ProcRef} (halloc : processAlloc s₀ = (some p, s))
    (vs : List Int) (v : Int) : LastDecides s p vs v ↔
      (clampPriority v ≤ priorityRtMax ∧ s₀.rt.length < maxProcesses) ∨
        ∀ w ∈ vs ++ [v], priorityRtMax < clampPriority w := by
  obtain ⟨hr, hpol⟩ := processAlloc_fresh halloc
  rw [LastDecides, addWith_count_rt hpol, hr.rt]
  by_cases hv : clampPriority v ≤ priorityRtMax
  · have hmixed : ¬ ∀ w ∈ vs ++ [v], priorityRtMax < clampPriority w :=
      fun hall => absurd hv (not_le.mpr (hall v (by simp)))
    have hrange : ¬ priorityNormalMin ≤ clampPriority v := by
      simp only [priorityNormalMin, priorityRtMax] at hv ⊢
      omega
    simp only [hv, hmixed, hrange, not_false_eq_true, true_and, or_false, iff_true, false_imp_iff]
  · have hlt := not_le.mp hv
    have hrange : priorityNormalMin ≤ clampPriority v := by
      simp only [priorityNormalMin, priorityRtMax] at hlt ⊢
      omega
    by_cases hvs : ∀ w ∈ vs, priorityRtMax < clampPriority w
    · have hall : ∀ w ∈ vs ++ [v], priorityRtMax < clampPriority w := by
        simpa [or_imp, forall_and] using ⟨hvs, hlt⟩
      refine iff_of_true ⟨fun _ => addWith_sameStanding hpol hvs hlt, ?_⟩ (.inr hall)
      exact iff_of_false (fun hc => hc.1 hall) hv
    · have hmixed : ¬ ∀ w ∈ vs ++ [v], priorityRtMax < clampPriority w :=
        fun hall => hvs fun w hw => hall w (List.mem_append_left _ hw)
      refine iff_of_false ?_ (by simp only [hv, hmixed, false_and, or_self, not_false_eq_true])
      rintro ⟨hsame, -⟩
      -- The policy is round-robin after the calls, and normal after the last one alone.
      have hpolicy := (hsame hrange).policy
      rw [addWith_policy hpol, addWith_policy hpol, if_neg hmixed, if_pos (by simpa using hlt)] at hpolicy
      cases hpolicy

/-- Two normal priorities, one after the other. -/
theorem last_priority_decides_normal : LastDecides (processAlloc Sched.start).2 (.slot 0) [130] 110 := by
  have halloc : processAlloc Sched.start = (some (.slot 0), (processAlloc Sched.start).2) := rfl
  exact (last_priority_decides_iff halloc [130] 110).mpr (.inr (by decide))

/-- A process that had a real-time priority goes to the real-time queue with the normal priority 120. -/
theorem last_priority_overruled : (processAlloc Sched.start).1 = some (.slot 0) ∧
    priorityNormalMin ≤ clampPriority 120 ∧
    some (.slot 0) ∈ (addWith (processAlloc Sched.start).2 (.slot 0) ([50] ++ [120])).rt ∧
    some (.slot 0) ∈ (addWith (processAlloc Sched.start).2 (.slot 0) [120]).level 2 ∧
    ¬ LastDecides (processAlloc Sched.start).2 (.slot 0) [50] 120 := by
  have hrt : some (.slot 0) ∈ (addWith (processAlloc Sched.start).2 (.slot 0) ([50] ++ [120])).rt := by
    decide +kernel
  refine ⟨by decide +kernel, by decide, hrt, by decide +kernel, ?_⟩
  intro hlast
  exact absurd (hlast.2.mp (by decide +kernel)) (by decide)

end Standing

end RiscvOs.Scheduler
