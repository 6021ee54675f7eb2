import RiscvOs.TimerTick
set_option autoImplicit false

/-!
The aging pass as an equation on lists: the lower levels are appended to the top level in
their order, each loop ends, and nothing but the moved processes is changed.
-/

namespace RiscvOs.Scheduler
open WordMemory Queues

/-- The aging part with a limit of `n` rounds for each of its loops, which run at all levels but
the top level. -/
def agingRounds (n : Nat) (s : Sched) : Sched := levels.tail.foldl (fun s l => agingDrain l n s) s

section Loops

variable {s : Sched} {l : Fin 4}

/-- A loop that may take more rounds than the level has entries stops when the level is empty. -/
theorem agingDrain_stops (hl : l ≠ 0) {k n : Nat} (h : QueuesOk s) (hk : (s.readyQueues l).size = k)
    (hn : k ≤ n) : agingDrain l n s = agingDrain l k s := by
  induction k generalizing s n with
  | zero =>
    cases n with
    | zero => rfl
    | succ n =>
      have hs : ¬ (s.readyQueues l).size > 0 := by omega
      simp only [agingDrain, if_neg hs]
  | succ k ih =>
    obtain ⟨m, rfl⟩ : ∃ m, n = m + 1 := ⟨n - 1, by omega⟩
    obtain ⟨p, xs, u, hround, heq⟩ := agingDrain_round hl h (by omega)
    rw [heq m, heq k]
    exact ih hround.ok (hround.size hl hk) (by omega)

theorem agingLevel_stops (hl : l ≠ 0) {n : Nat} (h : QueuesOk s) (hn : maxProcesses ≤ n) :
    agingDrain l n s = agingLevel s l :=
  agingDrain_stops hl h rfl (Nat.le_trans (h.rings l).size_le hn)

theorem agingRounds_stops {n : Nat} (h : QueuesOk s) (hn : maxProcesses ≤ n) :
    agingRounds n s = agingPass s := by
  have h₁ := agingLevel_drained (l := 1) (by decide) h
  have h₂ := agingLevel_drained (l := 2) (by decide) h₁.ok
  simp only [agingRounds, levels, agingPass, List.tail_cons, List.foldl_cons, List.foldl_nil]
  rw [agingLevel_stops (by decide) h hn, agingLevel_stops (by decide) h₁.ok hn,
    agingLevel_stops (by decide) h₂.ok hn]

theorem boost_boost (x : Process) : x.boost.boost = x.boost := rfl

theorem agingDrain_procs (hl : l ≠ 0) {n : Nat} (h : QueuesOk s) (hn : (s.readyQueues l).size = n)
    (q : ProcRef) : (agingDrain l n s).procs q =
      if some q ∈ s.level l ∧ (s.procs q).policy = .normal then (s.procs q).boost else s.procs q := by
  induction n generalizing s with
  | zero =>
    have hempty : s.level l = [] := List.length_eq_zero_iff.mp (by rw [level_length, hn])
    simp [agingDrain, hempty]
  | succ n ih =>
    obtain ⟨p, xs, u, hround, heq⟩ := agingDrain_round hl h (by omega)
    have hpol : (u.procs q).policy = (s.procs q).policy := (hround.sameProcs.sameClass q).1
    rw [heq n, ih hround.ok (hround.size hl hn), hpol, hround.rest hl, hround.head, hround.procs]
    by_cases hnorm : (s.procs q).policy = .normal
    · by_cases hqp : q = p
      · subst hqp
        simp [hnorm, boost_boost]
      · simp [hnorm, hqp]
    · have hno : ¬ (q = p ∧ (s.procs p).policy = .normal) := by
        rintro ⟨rfl, hp⟩
        exact hnorm hp
      simp [hnorm, hno]

end Loops

section Frame

/-- The body of a loop at level `l`. -/
def agingRound (l : Fin 4) (s : Sched) : Sched :=
  let r := mlfqDequeue (s.readyQueues l)
  let s := s.setLevel l r.2
  match r.1 with
  | none => s
  | some p =>
    if (s.procs p).policy = .normal then (s.modify p Process.boost).enqueueLevel topLevel (some p) else s

def Sched.withRt (s : Sched) (rt : RtQueue) : Sched := { s with rtQueue := rt }

/-- `t` differs from `s` in the processes, the levels and the count of full queues only. -/
def Reordered (s t : Sched) : Prop :=
  t = { s with procs := t.procs, readyQueues := t.readyQueues, fullReturns := t.fullReturns }

theorem Reordered.trans {s t u : Sched} (h : Reordered s t) (h' : Reordered t u) : Reordered s u := by
  rw [Reordered] at h' ⊢
  rw [h] at h'
  exact h'

theorem Reordered.of_withRt {s t u : Sched} {rt : RtQueue} (ht : Reordered s t) (hu : Reordered s u)
    (h : t.withRt rt = u.withRt rt) : t = u := by
  have hback (v : Sched) (hv : Reordered s v) : (v.withRt rt).withRt s.rtQueue = v := by
    rw [hv]
    rfl
  rw [← hback t ht, h, hback u hu]

variable (l : Fin 4) (s : Sched) (rt : RtQueue)

theorem agingDrain_succ (n : Nat) : agingDrain l (n+1) s =
    if (s.readyQueues l).size > 0 then agingDrain l n (agingRound l s) else s := by
  simp only [agingDrain, agingRound]
  cases (mlfqDequeue (s.readyQueues l)).1 with
  | none => rfl
  | some p =>
    dsimp only
    split
    · split <;> rfl
    · rfl

theorem agingRound_withRt : agingRound l (s.withRt rt) = (agingRound l s).withRt rt := by
  have hq : (s.withRt rt).readyQueues = s.readyQueues := rfl
  simp only [agingRound, hq]
  cases (mlfqDequeue (s.readyQueues l)).1 with
  | none => rfl
  | some p =>
    have hp : ((s.withRt rt).setLevel l (mlfqDequeue (s.readyQueues l)).2).procs p = s.procs p := rfl
    have hp' : (s.setLevel l (mlfqDequeue (s.readyQueues l)).2).procs p = s.procs p := rfl
    simp only [hp, hp']
    split <;> rfl

theorem agingRound_reordered : Reordered s (agingRound l s) := by
  simp only [agingRound]
  split
  · rfl
  · split <;> rfl

theorem agingDrain_withRt (n : Nat) : agingDrain l n (s.withRt rt) = (agingDrain l n s).withRt rt := by
  induction n generalizing s with
  | zero => rfl
  | succ n ih =>
    have hq : (s.withRt rt).readyQueues = s.readyQueues := rfl
    rw [agingDrain_succ, agingDrain_succ, hq]
    split
    · rw [agingRound_withRt, ih]
    · rfl

theorem agingDrain_reordered (n : Nat) : Reordered s (agingDrain l n s) := by
  induction n generalizing s with
  | zero => rfl
  | succ n ih =>
    rw [agingDrain_succ]
    split
    · exact (agingRound_reordered l s).trans (ih _)
    · rfl

theorem agingRounds_withRt (n : Nat) : agingRounds n (s.withRt rt) = (agingRounds n s).withRt rt := by
  simp only [agingRounds, levels, List.tail_cons, List.foldl_cons, List.foldl_nil, agingDrain_withRt]

theorem agingPass_withRt : agingPass (s.withRt rt) = (agingPass s).withRt rt := by
  have hlevel (l : Fin 4) (t : Sched) : agingLevel (t.withRt rt) l = (agingLevel t l).withRt rt :=
    agingDrain_withRt l t rt _
  simp only [agingPass, List.foldl_cons, List.foldl_nil, hlevel]

theorem agingRounds_reordered (n : Nat) : Reordered s (agingRounds n s) :=
  ((agingDrain_reordered 1 s n).trans (agingDrain_reordered 2 _ n)).trans (agingDrain_reordered 3 _ n)

theorem agingPass_reordered : Reordered s (agingPass s) :=
  ((agingDrain_reordered 1 s _).trans (agingDrain_reordered 2 _ _)).trans (agingDrain_reordered 3 _ _)

end Frame

section Pass

variable {s : Sched}

/-- The pass boosts the normal processes of the lower levels. -/
theorem agingPass_procs (h : QueuesOk s) (q : ProcRef) : (agingPass s).procs q =
    if some q ∈ s.level 1 ++ (s.level 2 ++ s.level 3) ∧ (s.procs q).policy = .normal
    then (s.procs q).boost else s.procs q := by
  have h₁ := agingLevel_drained (l := 1) (by decide) h
  have h₂ := agingLevel_drained (l := 2) (by decide) h₁.ok
  have hl₂ : (agingLevel s 1).level 2 = s.level 2 := h₁.other (by decide) (by decide)
  have hl₃ : (agingLevel (agingLevel s 1) 2).level 3 = s.level 3 := by
    rw [h₂.other (by decide) (by decide), h₁.other (by decide) (by decide)]
  have hp₂ : ((agingLevel s 1).procs q).policy = (s.procs q).policy := (h₁.procs.sameClass q).1
  have hp₃ : ((agingLevel (agingLevel s 1) 2).procs q).policy = (s.procs q).policy :=
    (h₂.procs.sameClass q).1.trans hp₂
  have hd₁ := agingDrain_procs (l := 1) (by decide) h rfl q
  have hd₂ := agingDrain_procs (l := 2) (by decide) h₁.ok rfl q
  have hd₃ := agingDrain_procs (l := 3) (by decide) h₂.ok rfl q
  rw [hl₃, hp₃] at hd₃
  rw [hl₂, hp₂] at hd₂
  simp only [agingPass, List.foldl_cons, List.foldl_nil]
  rw [agingLevel, hd₃, agingLevel, hd₂, agingLevel, hd₁]
  simp only [List.mem_append]
  by_cases hnorm : (s.procs q).policy = .normal
  · by_cases hq₁ : some q ∈ s.level 1 <;> by_cases hq₂ : some q ∈ s.level 2 <;>
      by_cases hq₃ : some q ∈ s.level 3 <;> simp [hnorm, hq₁, hq₂, hq₃, boost_boost]
  · simp [hnorm]

theorem lower_normal (hnormal : ∀ l, ∀ x ∈ s.level l, s.isNormal x = true) {x : ProcPtr}
    (hx : x ∈ s.level 1 ++ (s.level 2 ++ s.level 3)) : s.isNormal x = true := by
  rcases List.mem_append.mp hx with hx | hx
  · exact hnormal 1 x hx
  · rcases List.mem_append.mp hx with hx | hx
    · exact hnormal 2 x hx
    · exact hnormal 3 x hx

/-- The state with the processes of a list boosted, over the levels of `t`. -/
def Sched.boostAll (s : Sched) (xs : List ProcPtr) (t : Sched) : Sched :=
  { s with
    procs := fun p =>
      if some p ∈ xs then { s.procs p with queueLevel := 0, timeSlice := 5#64 } else s.procs p
    readyQueues := t.readyQueues }

theorem agingPass_appends (h : QueuesOk s) (hnormal : ∀ l, ∀ x ∈ s.level l, s.isNormal x = true)
    (hlen : (allLevels s.level).length ≤ maxProcesses) :
    (agingPass s).level 0 = s.level 0 ++ (s.level 1 ++ (s.level 2 ++ s.level 3)) ∧
    agingPass s = s.boostAll (s.level 1 ++ (s.level 2 ++ s.level 3)) (agingPass s) := by
  have haged := agingPass_aged h
  have hprocs : (agingPass s).procs =
      (s.boostAll (s.level 1 ++ (s.level 2 ++ s.level 3)) (agingPass s)).procs := by
    funext p
    rw [agingPass_procs h]
    simp only [Sched.boostAll]
    by_cases hm : some p ∈ s.level 1 ++ (s.level 2 ++ s.level 3)
    · have hpol : (s.procs p).policy = .normal := of_decide_eq_true (lower_normal hnormal hm)
      rw [if_pos ⟨hm, hpol⟩, if_pos hm]
      rfl
    · rw [if_neg fun hc => hm hc.1, if_neg hm]
  constructor
  · rw [allLevels_eq] at hlen
    rw [haged.top, List.filter_eq_self.mpr fun x hx => lower_normal hnormal hx, List.take_of_length_le hlen]
  · have hre := agingPass_reordered s
    rw [Reordered, hprocs, haged.full hlen] at hre
    exact hre

/-- The lower levels behind the top level, in their order, with their processes boosted, and
everything else as it was. The rings may start anywhere. -/
theorem aging_appends_levels (hrings : ∀ l, (s.readyQueues l).Valid maxProcesses)
    (hnormal : ∀ l, ∀ x ∈ s.level l, s.isNormal x = true)
    (hlen : (allLevels s.level).length ≤ maxProcesses) :
    (∀ n, maxProcesses ≤ n → agingRounds n s = agingPass s) ∧
    (agingPass s).level 0 = s.level 0 ++ (s.level 1 ++ (s.level 2 ++ s.level 3)) ∧
    (∀ l, l ≠ 0 → (agingPass s).level l = []) ∧
    agingPass s = { s with
      procs := fun p =>
        if some p ∈ s.level 1 ++ (s.level 2 ++ s.level 3)
        then { s.procs p with queueLevel := 0, timeSlice := 5#64 } else s.procs p
      readyQueues := (agingPass s).readyQueues } := by
  -- The pass never looks at the real-time queue, so that it may as well be empty.
  obtain ⟨rt, hrt⟩ : ∃ rt : RtQueue, rt = ⟨s.rtQueue.queue, 0⟩ := ⟨_, rfl⟩
  have hok : QueuesOk (s.withRt rt) := by
    refine ⟨by rw [Sched.withRt, hrt]; exact Nat.zero_le _, hrings, ?_⟩
    intro hnone
    rcases mem_queued.mp hnone with hnone | ⟨l, hnone⟩
    · rw [Sched.rt, Sched.withRt, hrt] at hnone
      exact absurd hnone List.not_mem_nil
    · exact Bool.false_ne_true (hnormal l none hnone)
  obtain ⟨htop, heq⟩ := agingPass_appends hok hnormal hlen
  have hlower := (agingPass_aged hok).lower
  rw [agingPass_withRt] at htop heq hlower
  refine ⟨?_, htop, hlower, ?_⟩
  · intro n hn
    have hstops := agingRounds_stops hok hn
    rw [agingRounds_withRt, agingPass_withRt] at hstops
    exact (agingRounds_reordered s n).of_withRt (agingPass_reordered s) hstops
  · exact (agingPass_reordered s).of_withRt rfl heq

/-- Two processes at level 2, whose ring starts at its last cell. -/
def wrappedLevel (p q : ProcRef) : Sched :=
  { Sched.start with readyQueues := fun l =>
      if l.val = 2 then ⟨fun k => if k = 63 then some p else some q, 63, 1, 2⟩
      else ⟨fun _ => none, 5, 5, 0⟩ }

theorem aging_appends_levels_wrapped :
    (agingPass (wrappedLevel (.slot 0) (.slot 1))).level 0 = [some (.slot 0), some (.slot 1)] := by
  have hrings : ∀ l, ((wrappedLevel (.slot 0) (.slot 1)).readyQueues l).Valid maxProcesses := by
    intro l
    rcases level_cases l with rfl | rfl | rfl | rfl <;> exact ⟨by decide, by decide, by decide⟩
  have happends := aging_appends_levels hrings (by decide +kernel) (by decide +kernel)
  exact happends.2.1.trans (by decide +kernel)

end Pass

end RiscvOs.Scheduler
