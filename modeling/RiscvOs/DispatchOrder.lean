import RiscvOs.Routing
set_option autoImplicit false

/-!
Whether a ready process can be overtaken. New and demoted processes go to the end of a level,
`sched_next` takes the first one of the highest level, and the aging pass puts the lower
levels behind the processes of level 0 in their order, so the order of two processes that
are both ready stays the same until the first of them is dispatched.
-/

namespace RiscvOs.Scheduler
open WordMemory Queues Runs

/-- The process `x` is at a higher level than `y`, or before it at the same level. -/
def Ahead (s : Sched) (x y : ProcPtr) : Prop :=
  (∃ l, [x, y].Sublist (s.level l)) ∨ ∃ k l, k < l ∧ x ∈ s.level k ∧ y ∈ s.level l

/-- Processes that are queued or current are not added, and those that are queued keep their
priority and policy. -/
def OrderOk (s : Sched) : SchedCall → Prop
  | .free _ => False
  | .add x => x = none ∨ x ∉ s.queued ∧ x ≠ s.cpu.current
  | .setPriority x _ | .setPolicy x _ => x ≠ some .idle ∧ x ∉ s.queued
  | .alloc | .yield | .tick | .tickHead | .tickTail => True

instance OrderOk.decidable (s : Sched) : (c : SchedCall) → Decidable (OrderOk s c)
  | .free _ => inferInstanceAs (Decidable False)
  | .add _ => inferInstanceAs (Decidable (_ ∨ _))
  | .setPriority _ _ | .setPolicy _ _ => inferInstanceAs (Decidable (_ ∧ _))
  | .alloc | .yield | .tick | .tickHead | .tickTail => inferInstanceAs (Decidable True)

section Order

variable {α β : Type} {x y : α}

theorem pair_sublist_append {as bs : List α} :
    [x, y].Sublist (as ++ bs) ↔ [x, y].Sublist as ∨ (x ∈ as ∧ y ∈ bs) ∨ [x, y].Sublist bs := by
  induction as with
  | nil => simp
  | cons a as ih =>
    rw [List.cons_append, List.sublist_cons_iff, List.sublist_cons_iff, ih]
    simp only [List.cons.injEq, List.mem_cons]
    grind

/-- A pair in the concatenation of the lists `f l` is in one of them, or in two of them in the
order of `ls`. -/
theorem pair_sublist_flatMap {f : β → List α} {ls : List β} : [x, y].Sublist (ls.flatMap f) ↔
    (∃ l ∈ ls, [x, y].Sublist (f l)) ∨ ∃ k l, [k, l].Sublist ls ∧ x ∈ f k ∧ y ∈ f l := by
  induction ls with
  | nil => simp
  | cons a ls ih =>
    rw [List.flatMap_cons, pair_sublist_append, ih]
    have hpair (k l : β) : [k, l].Sublist (a :: ls) ↔ [k, l].Sublist ls ∨ k = a ∧ l ∈ ls := by
      rw [List.sublist_cons_iff]
      simp
    simp only [hpair, List.mem_flatMap, List.mem_cons]
    grind

theorem pair_sublist_levels : ∀ k l : Fin 4, [k, l].Sublist levels ↔ k < l := by decide

theorem ahead_iff {s : Sched} {x y : ProcPtr} : Ahead s x y ↔ [x, y].Sublist (allLevels s.level) := by
  have hall (l : Fin 4) : l ∈ levels := by
    revert l
    decide
  rw [allLevels, pair_sublist_flatMap]
  simp only [pair_sublist_levels, hall, true_and]
  rfl

end Order

section Line

variable {s t : Sched} {p : ProcRef} {x y : ProcPtr}

/-- The process that has the CPU is not queued, and the others are queued at most once. -/
structure Once (s : Sched) : Prop where
  nodup : s.queued.Nodup
  current : s.cpu.current ∉ s.queued

theorem Once.start : Once Sched.start := by
  refine ⟨?_, ?_⟩
  · simp [start_queued]
  · simp [start_queued]

theorem Once.quiet (h : Once s) (hq : Quiet s t) : Once t := by
  refine ⟨?_, ?_⟩
  · rw [hq.queued]
    exact h.nodup
  · rw [hq.queued, hq.current]
    exact h.current

theorem Once.rewrites (h : Once s) (hr : Rewrites p s t) : Once t := by
  refine ⟨?_, ?_⟩
  · rw [hr.queued]
    exact h.nodup
  · rw [hr.queued, hr.cpu]
    exact h.current

theorem nodup_schedAdd (hok : QueuesOk s) (hnd : s.queued.Nodup) (hp : some p ∉ s.queued) :
    (schedAdd s (some p)).queued.Nodup := by
  rw [(schedAdd_perm hok).nodup_iff]
  split
  · exact List.nodup_cons.mpr ⟨hp, hnd⟩
  · exact hnd

theorem Once.add (h : Once s) (hok : QueuesOk s) (hx : x = none ∨ x ∉ s.queued ∧ x ≠ s.cpu.current) :
    Once (schedAdd s x) := by
  cases x with
  | none => exact h
  | some p =>
    obtain ⟨hq, hc⟩ := hx.resolve_left (by simp)
    refine ⟨nodup_schedAdd hok h.nodup hq, ?_⟩
    rw [schedAdd_cpu]
    intro hm
    rcases mem_schedAdd hok hm with he | hm
    · exact hc he.symm
    · exact h.current hm

theorem Once.aging (h : Once s) (hok : QueuesOk s) : Once (agingPass s) := by
  have haged := agingPass_aged hok
  obtain ⟨l, hperm, hsub⟩ := haged.sublist
  refine ⟨hperm.nodup_iff.mp (h.nodup.sublist hsub), ?_⟩
  rw [haged.procs.cpu]
  exact fun hm => h.current (haged.sublist.subset hm)

/-- The queues are in order, and the idle process is in none of them. -/
structure InLine (s : Sched) : Prop where
  classed : Classed (fun _ => True) s
  nodup : s.queued.Nodup
  current : s.cpu.current ∉ s.queued

theorem InLine.ok (h : InLine s) : QueuesOk s := h.classed.serving.ok

theorem InLine.once (h : InLine s) : Once s := ⟨h.nodup, h.current⟩

theorem Once.inLine (h : Once s) (hc : Classed (fun _ => True) s) : InLine s := ⟨hc, h.nodup, h.current⟩

theorem InLine.start : InLine Sched.start := Once.start.inLine (.start trivial)

theorem InLine.quiet (h : InLine s) (hq : Quiet s t) : InLine t :=
  (h.once.quiet hq).inLine (h.classed.quiet hq)

theorem InLine.rewrites (h : InLine s) (hr : Rewrites p s t) (hp : p ≠ .idle) (hq : some p ∉ s.queued) :
    InLine t :=
  (h.once.rewrites hr).inLine (h.classed.rewrites hr hp hq trivial)

theorem InLine.alloc (h : InLine s) : InLine (processAlloc s).2 := by
  rcases processAlloc_case s with he | ⟨i, hi, hr, _, _⟩
  · rwa [he]
  · exact h.rewrites hr (by simp) fun hm => h.classed.serving.live _ hm hi

theorem InLine.add (h : InLine s) (hx : x = none ∨ x ∉ s.queued ∧ x ≠ s.cpu.current) :
    InLine (schedAdd s x) :=
  (h.once.add h.ok hx).inLine (h.classed.add _)

/-- The queues fit the 64 slots of the process table. -/
theorem InLine.length_le (h : InLine s) : s.queued.length ≤ maxProcesses := by
  have hnd : (none :: some .idle :: s.queued).Nodup := by
    rw [List.nodup_cons, List.nodup_cons]
    exact ⟨by simp [h.ok.noNull], h.classed.idle_unqueued, h.nodup⟩
  have hle := hnd.length_le_card
  rw [card_procPtr] at hle
  simp only [List.length_cons] at hle
  simp only [maxProcesses]
  omega

/-- The aging pass keeps the order of all queued processes. -/
theorem InLine.aging_queued (h : InLine s) : (agingPass s).queued = s.queued := by
  refine (agingPass_aged h.ok).queued_eq (fun x hx => h.classed.routed.lower_normal h.ok hx) ?_
  have hle := h.length_le
  rw [Sched.queued, List.length_append] at hle
  omega

theorem InLine.aging (h : InLine s) : InLine (agingPass s) :=
  (h.once.aging h.ok).inLine h.classed.aging

end Line

section Leaving

variable {s t : Sched} {p : ProcRef} {x : ProcPtr}

/-- What is queued stays in its order; at most `x` is new. -/
structure Joins (x : ProcPtr) (s t : Sched) : Prop where
  levels : (allLevels s.level).Sublist (allLevels t.level)
  perm : t.queued.Perm s.queued ∨ t.queued.Perm (x :: s.queued)

theorem Joins.of_eq (hl : t.level = s.level) (hq : t.queued = s.queued) : Joins x s t := by
  refine ⟨?_, .inl ?_⟩
  · rw [hl]
  · rw [hq]

theorem sublist_allLevels {f g : Fin 4 → List ProcPtr} (h : ∀ l, (f l).Sublist (g l)) :
    (allLevels f).Sublist (allLevels g) := by
  rw [allLevels_eq, allLevels_eq]
  exact (h 0).append ((h 1).append ((h 2).append (h 3)))

theorem schedAdd_joins (h : QueuesOk s) : Joins (some p) s (schedAdd s (some p)) := by
  refine ⟨sublist_allLevels fun l => ?_, ?_⟩
  · rcases policy_cases (s.procs p).policy with hp | hp | hp
    · rw [schedAdd_normal hp, enqueueLevel_level (h.modify p _), modify_level]
      by_cases hl : l = clampLevel (s.procs p).queueLevel
      · subst hl
        rw [Function.update_self]
        split
        · exact List.sublist_append_left _ _
        · exact List.Sublist.refl _
      · rw [Function.update_of_ne hl]
    · rw [schedAdd_realTime hp]
      exact List.Sublist.refl _
    · rw [schedAdd_idle hp]
      exact List.Sublist.refl _
  · have hperm := schedAdd_perm (p := p) h
    split at hperm
    · exact .inr hperm
    · exact .inl hperm

theorem Joins.trans_quiet {u : Sched} (hq : Quiet s t) (h : Joins x t u) : Joins x s u := by
  obtain ⟨hl, hp⟩ := h
  rw [hq.level] at hl
  rw [hq.queued] at hp
  exact ⟨hl, hp⟩

theorem switchOut_joins (h : QueuesOk s) (x : ProcPtr) : Joins x s (switchOut s x) := by
  cases x with
  | none => exact .of_eq rfl rfl
  | some p =>
    simp only [switchOut]
    split
    · have hcase := requeue_case (s := s) (p := p)
      generalize requeue s p = u at hcase
      cases hcase with
      | idle _ hu => exact .of_eq hu.level hu.queued
      | added _ _ hu => exact .trans_quiet hu (schedAdd_joins (hu.ok h))
      | dropped _ _ hu => exact .of_eq hu.level hu.queued
    · exact .of_eq rfl rfl

theorem Joins.mem {y : ProcPtr} (h : Joins x s t) (hy : y ∈ t.queued) : y = x ∨ y ∈ s.queued := by
  rcases h.perm with hp | hp
  · exact .inr (hp.mem_iff.mp hy)
  · exact List.mem_cons.mp (hp.mem_iff.mp hy)

theorem Joins.nodup (h : Joins x s t) (hnd : s.queued.Nodup) (hx : x ∉ s.queued) : t.queued.Nodup := by
  rcases h.perm with hp | hp
  · exact hp.nodup_iff.mpr hnd
  · exact hp.nodup_iff.mpr (List.nodup_cons.mpr ⟨hx, hnd⟩)

theorem Once.yield (h : Once s) (hok : QueuesOk s) (hidle : s.cpu.idle = some .idle) :
    Once (schedYield s) := by
  have hcase := schedYield_case hok hidle
  generalize schedYield s = u at hcase
  cases hcase with
  | same hnext _ hprocs _ hcur =>
    rcases hnext.perm with hp | ⟨_, _, rfl⟩
    · exact absurd (hp.mem_iff.mpr (by simp [hcur])) h.current
    · exact ⟨h.nodup, h.current⟩
  | @switch p t hnext hok hprocs _ hcur =>
    have hnd : (some p :: t.queued).Nodup := by
      rcases hnext.perm with hp | ⟨hn, _, he⟩
      · exact hp.nodup_iff.mp h.nodup
      · simp [he, hn]
    obtain ⟨hp, hnd⟩ := List.nodup_cons.mp hnd
    have hjoins := switchOut_joins hok s.cpu.current
    refine ⟨hjoins.nodup hnd fun hm => h.current (hnext.mem_queued hm), ?_⟩
    rw [switchIn_current, switchIn_queued]
    intro hm
    rcases hjoins.mem hm with he | hm
    · exact hcur he.symm
    · exact hp hm

theorem InLine.yield (h : InLine s) : InLine (schedYield s) :=
  (h.once.yield h.ok h.classed.serving.idle).inLine h.classed.yield

end Leaving

section Dispatch

variable {s t : Sched} {c : SchedCall} {p q : ProcRef}

/-- `sched_next` takes the first process of the line, if it takes one of the levels. -/
theorem NextCase.levels {x : ProcPtr} (h : NextCase s x t) :
    allLevels s.level = allLevels t.level ∨ allLevels s.level = x :: allLevels t.level := by
  cases h with
  | realTime _ hlevel => exact .inl (by rw [hlevel])
  | normal l _ _ hup hlevel =>
    right
    have hempty (k : Fin 4) (hk : k < l) : t.level k = [] := by
      have hs := hup k hk
      rwa [hlevel, Function.update_of_ne (by omega)] at hs
    rw [hlevel, allLevels_eq, allLevels_eq]
    rcases level_cases l with rfl | rfl | rfl | rfl <;> simp [hempty]
  | idle _ _ ht => exact .inl (by rw [ht])

theorem Ahead.joins {x y z : ProcPtr} (h : Ahead s x y) (hj : Joins z s t) : Ahead t x y :=
  ahead_iff.mpr ((ahead_iff.mp h).trans hj.levels)

theorem Ahead.quiet {x y : ProcPtr} (h : Ahead s x y) (hq : Quiet s t) : Ahead t x y :=
  h.joins (z := none) (.of_eq hq.level hq.queued)

theorem Ahead.next {x y z : ProcPtr} (h : Ahead s x y) (hnext : NextCase s z t) : z = x ∨ Ahead t x y := by
  rw [ahead_iff] at h
  rcases hnext.levels with he | he
  · rw [he] at h
    exact .inr (ahead_iff.mpr h)
  · rw [he, List.sublist_cons_iff] at h
    rcases h with h | ⟨r, hr, _⟩
    · exact .inr (ahead_iff.mpr h)
    · cases hr
      exact .inl rfl

theorem Ahead.yield (h : Ahead s (some p) (some q)) (hline : InLine s) :
    (schedYield s).cpu.current = some p ∨ Ahead (schedYield s) (some p) (some q) := by
  have hcase := schedYield_case hline.ok hline.classed.serving.idle
  generalize schedYield s = u at hcase
  cases hcase with
  | same hnext _ hprocs _ hcur =>
    rcases h.next hnext with he | ha
    · left
      rw [hprocs.cpu, hcur, he]
    · exact .inr ha
  | switch hnext hok _ _ _ =>
    rcases h.next hnext with he | ha
    · left
      rw [switchIn_current, he]
    · have hout := ha.joins (switchOut_joins hok s.cpu.current)
      exact .inr hout

theorem Ahead.tickHead (h : Ahead s (some p) (some q)) (hline : InLine s) :
    (tickHead s).cpu.current = some p ∨ Ahead (tickHead s) (some p) (some q) := by
  have hcase := tickHead_case s
  generalize Scheduler.tickHead s = t at hcase
  cases hcase with
  | noProcess _ hu => exact .inr (h.quiet hu)
  | expired _ _ _ hu => exact (h.quiet hu).yield (hline.quiet hu)
  | kept _ _ hu => exact .inr (h.quiet hu)

theorem Ahead.aging {x y : ProcPtr} (h : Ahead s x y) (hline : InLine s) : Ahead (agingPass s) x y := by
  have haged := agingPass_aged hline.ok
  have hqueued := hline.aging_queued
  rw [Sched.queued, Sched.queued, haged.rt, List.append_cancel_left_eq] at hqueued
  rw [ahead_iff, hqueued]
  exact ahead_iff.mp h

theorem Ahead.tickTail {x y : ProcPtr} (h : Ahead s x y) (hline : InLine s) : Ahead (tickTail s) x y := by
  unfold Scheduler.tickTail
  split
  · exact h.aging hline
  · exact h

theorem tickTail_current (h : QueuesOk s) : (tickTail s).cpu.current = s.cpu.current := by
  unfold tickTail
  split
  · rw [(agingPass_aged h).procs.cpu]
  · rfl

theorem InLine.ticks (h : InLine s) : InLine (tickHead s) ∧ InLine (tickTail s) ∧ InLine (schedTick s) :=
  tick_invariant (I := InLine) (fun _ _ hs hq => hs.quiet hq) (fun _ _ hs _ _ => hs.yield)
    (fun _ hs => hs.aging) h

theorem Ahead.tick (h : Ahead s (some p) (some q)) (hline : InLine s) :
    (schedTick s).cpu.current = some p ∨ Ahead (schedTick s) (some p) (some q) := by
  have hhead := hline.ticks.1
  unfold schedTick
  split
  · exact h.tickHead hline
  · rcases h.tickHead hline with hc | ha
    · left
      rw [tickTail_current hhead.ok, hc]
    · exact .inr (ha.tickTail hhead)

theorem InLine.exec (h : InLine s) (hok : OrderOk s c) : InLine (s.exec c) := by
  cases c with
  | alloc => exact h.alloc
  | free x => exact hok.elim
  | add x => exact h.add hok
  | yield => exact h.yield
  | tick => exact h.ticks.2.2
  | tickHead => exact h.ticks.1
  | tickTail => exact h.ticks.2.1
  | setPriority x v =>
    cases x with
    | none => exact h
    | some p => exact h.rewrites (schedSetPriority_rewrites p v) (fun he => hok.1 (congrArg some he)) hok.2
  | setPolicy x policy =>
    cases x with
    | none => exact h
    | some p => exact h.rewrites (schedSetPolicy_rewrites p policy) (fun he => hok.1 (congrArg some he)) hok.2

theorem Ahead.rewrites {r : ProcRef} {x y : ProcPtr} (h : Ahead s x y) (hr : Rewrites r s t) : Ahead t x y :=
  h.joins (z := none) (.of_eq hr.level hr.queued)

/-- One call dispatches the first of the two, or leaves their order as it is. -/
theorem Ahead.exec (h : Ahead s (some p) (some q)) (hline : InLine s) (c : SchedCall) (hok : OrderOk s c) :
    (s.exec c).cpu.current = some p ∨ Ahead (s.exec c) (some p) (some q) := by
  cases c with
  | alloc =>
    rcases processAlloc_case s with he | ⟨i, _, hr, _, _⟩
    · simp only [Sched.exec, he]
      exact .inr h
    · exact .inr (h.rewrites hr)
  | free x => exact hok.elim
  | add x =>
    cases x with
    | none => exact .inr h
    | some r => exact .inr (h.joins (schedAdd_joins hline.ok))
  | yield => exact h.yield hline
  | tick => exact h.tick hline
  | tickHead => exact h.tickHead hline
  | tickTail => exact .inr (h.tickTail hline)
  | setPriority x v =>
    cases x with
    | none => exact .inr h
    | some r => exact .inr (h.rewrites (schedSetPriority_rewrites r v))
  | setPolicy x policy =>
    cases x with
    | none => exact .inr h
    | some r => exact .inr (h.rewrites (schedSetPolicy_rewrites r policy))

/-- A queued process is not the current one. -/
theorem Ahead.not_current (h : Ahead s (some p) (some q)) (hline : InLine s) :
    s.cpu.current ≠ some p ∧ s.cpu.current ≠ some q := by
  have hsub := (ahead_iff.mp h).subset
  have hmem (x : ProcPtr) (hx : x ∈ allLevels s.level) : s.cpu.current ≠ x := by
    intro he
    exact hline.current (List.mem_append_right _ (he ▸ hx))
  exact ⟨hmem _ (hsub (by simp)), hmem _ (hsub (by simp))⟩

/-- In a run from `s` on, either the first of the two has been dispatched or both still wait
in their order. -/
theorem Ahead.run {calls : List SchedCall} (h : Ahead s (some p) (some q)) (hline : InLine s)
    (hrun : Run (guarded OrderOk Sched.exec) s calls t) :
    (∃ as bs u, calls = as ++ bs ∧ Run (guarded OrderOk Sched.exec) s as u ∧
      Run (guarded OrderOk Sched.exec) u bs t ∧ u.cpu.current = some p) ∨ Ahead t (some p) (some q) := by
  induction calls generalizing s with
  | nil =>
    cases hrun
    exact .inr h
  | cons c calls ih =>
    obtain ⟨u, hstep, hrest⟩ := hrun
    obtain ⟨hok, rfl⟩ := hstep
    rcases h.exec hline c hok with hc | ha
    · exact .inl ⟨[c], calls, _, rfl, ⟨_, ⟨hok, rfl⟩, rfl⟩, hrest, hc⟩
    · rcases ih ha (hline.exec hok) hrest with ⟨as, bs, v, rfl, has, hbs, hv⟩ | hend
      · exact .inl ⟨c :: as, bs, v, rfl, ⟨_, ⟨hok, rfl⟩, has⟩, hbs, hv⟩
      · exact .inr hend

end Dispatch

/-- Of two ready processes the one that is ahead is dispatched first: in every run that makes
the other one current there is an earlier state, after `s`, in which the first one is. -/
theorem dispatch_in_order {before calls : List SchedCall} {s t : Sched} {p q : ProcRef}
    (hs : Run (guarded OrderOk Sched.exec) Sched.start before s) (hahead : Ahead s (some p) (some q))
    (hrun : Run (guarded OrderOk Sched.exec) s calls t) (hq : t.cpu.current = some q) :
    ∃ as bs u, calls = as ++ bs ∧ as ≠ [] ∧ bs ≠ [] ∧ Run (guarded OrderOk Sched.exec) s as u ∧
      Run (guarded OrderOk Sched.exec) u bs t ∧ u.cpu.current = some p := by
  have hline : InLine s := hs.guarded_invariant InLine (fun _ _ hs hok => hs.exec hok) .start
  have hline' : InLine t := hrun.guarded_invariant InLine (fun _ _ hs hok => hs.exec hok) hline
  rcases hahead.run hline hrun with ⟨as, bs, u, rfl, has, hbs, hu⟩ | hend
  · refine ⟨as, bs, u, rfl, ?_, ?_, has, hbs, hu⟩
    · rintro rfl
      cases has
      exact (hahead.not_current hline).1 hu
    · rintro rfl
      cases hbs
      -- then `p` and `q` are the same process, which is queued only once
      rw [hu] at hq
      cases hq
      have hnd := hline.nodup.sublist ((ahead_iff.mp hahead).trans (List.sublist_append_right _ _))
      simp at hnd
  · exact absurd hq (hend.not_current hline').2

/-- Two processes are ready. -/
def twoReady (p q : ProcRef) : List SchedCall := [.alloc, .alloc, .alloc, .add (some p), .add (some q)]

/-- A third process is added before the second one has its turn. -/
def bothTurns (r : ProcRef) : List SchedCall := [.yield, .add (some r), .yield]

theorem dispatch_in_order_two :
    let s := (twoReady (.slot 1) (.slot 0)).foldl Sched.exec Sched.start
    ∃ t, Ahead s (some (.slot 1)) (some (.slot 0)) ∧
      Run (guarded OrderOk Sched.exec) s (bothTurns (.slot 2)) t ∧ t.cpu.current = some (.slot 0) ∧
      ∃ as bs u, bothTurns (.slot 2) = as ++ bs ∧ as ≠ [] ∧ bs ≠ [] ∧
        Run (guarded OrderOk Sched.exec) s as u ∧ Run (guarded OrderOk Sched.exec) u bs t ∧
        u.cpu.current = some (.slot 1) := by
  intro s
  have hs := run_guarded_iff.mpr ⟨show Admissible OrderOk Sched.exec Sched.start
    (twoReady (.slot 1) (.slot 0)) by decide +kernel, show s = _ from rfl⟩
  have hahead : Ahead s (some (.slot 1)) (some (.slot 0)) := .inl ⟨topLevel, by decide +kernel⟩
  have hrun := run_guarded_iff.mpr ⟨show Admissible OrderOk Sched.exec s (bothTurns (.slot 2)) by
    decide +kernel, rfl⟩
  have hq : ((bothTurns (.slot 2)).foldl Sched.exec s).cpu.current = some (.slot 0) := by decide +kernel
  exact ⟨_, hahead, hrun, hq, dispatch_in_order hs hahead hrun hq⟩

end RiscvOs.Scheduler
