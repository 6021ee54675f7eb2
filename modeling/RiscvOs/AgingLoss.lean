import RiscvOs.Routing
set_option autoImplicit false

/-!
Which processes an aging pass keeps. It takes every entry out of the lower levels and
puts back those whose policy is normal at that time, although the policy may have
changed since the process was queued.
-/

namespace RiscvOs.Scheduler
open WordMemory Queues Runs

def NothingFreed (_ : Sched) : SchedCall → Prop
  | .free _ => False
  | _ => True

instance NothingFreed.decidable (s : Sched) : (c : SchedCall) → Decidable (NothingFreed s c)
  | .free _ => inferInstanceAs (Decidable False)
  | .alloc | .add _ | .yield | .tick | .tickHead | .tickTail | .setPriority _ _ | .setPolicy _ _ =>
    inferInstanceAs (Decidable True)

variable {s t : Sched}

theorem nothingFreed_run {calls : List SchedCall}
    (h : Run (guarded NothingFreed Sched.exec) Sched.start calls s) : Serving s := by
  refine h.guarded_invariant Serving ?_ Serving.start
  intro s c hs hok
  apply hs.exec
  intro p hc
  rw [hc] at hok
  exact hok

theorem Aged.perm_iff (h : Aged s t) : t.queued.Perm s.queued ↔
    (∀ x ∈ s.level 1 ++ (s.level 2 ++ s.level 3), s.isNormal x = true) ∧
      (allLevels s.level).length ≤ maxProcesses := by
  constructor
  · intro hp
    have hlen := hp.length_eq
    have hf := List.length_filter_le s.isNormal (s.level 1 ++ (s.level 2 ++ s.level 3))
    rw [Sched.queued, Sched.queued, h.rt, h.allLevels_top, h.top, List.length_append,
      List.length_append, List.length_take, List.length_append] at hlen
    have hall : (allLevels s.level).length =
        (s.level 0).length + (s.level 1 ++ (s.level 2 ++ s.level 3)).length := by
      rw [allLevels_eq, List.length_append]
    refine ⟨List.length_filter_eq_length_iff.mp ?_, ?_⟩
    · omega
    · omega
  · intro hc
    rw [h.queued_eq hc.1 hc.2]

/-- In every state that can be reached without freeing a process, a tick that ages keeps the
entries of the queues exactly when all entries of the lower levels are normal processes and
the levels have no more entries than level 0 has cells. -/
theorem aging_keeps_iff {calls : List SchedCall}
    (h : Run (guarded NothingFreed Sched.exec) Sched.start calls s) (hc : s.cpu.current ≠ none)
    (ht : (tickHead s).globalTicks % 100#64 = 0#64) :
    (schedTick s).queued.Perm (tickHead s).queued ↔
      (∀ x ∈ (tickHead s).level 1 ++ ((tickHead s).level 2 ++ (tickHead s).level 3),
        (tickHead s).isNormal x = true) ∧
      (allLevels (tickHead s).level).length ≤ maxProcesses := by
  have hs : Serving (tickHead s) :=
    (nothingFreed_run h).exec (c := .tickHead) (fun p hp => by cases hp)
  have haged : schedTick s = agingPass (tickHead s) := by
    rw [schedTick, if_neg hc, tickTail, if_pos ht]
  rw [haged]
  exact (agingPass_aged hs.ok).perm_iff

/-- The hundredth tick finds a normal process at the lowest level. -/
theorem aging_keeps_iff_normal : ∃ s, Run (guarded NothingFreed Sched.exec) Sched.start
      (List.replicate 99 .tick ++ ([.yield, .alloc, .setPriority (some (.slot 0)) 139,
        .add (some (.slot 0))] : List SchedCall)) s ∧
    (tickHead s).level 3 = [some (.slot 0)] ∧ (schedTick s).queued.Perm (tickHead s).queued := by
  have hrun := run_guarded_iff.mpr ⟨show Admissible NothingFreed Sched.exec Sched.start
    (List.replicate 99 .tick ++ ([.yield, .alloc, .setPriority (some (.slot 0)) 139,
      .add (some (.slot 0))] : List SchedCall)) by decide +kernel, rfl⟩
  refine ⟨_, hrun, by decide +kernel, ?_⟩
  exact (aging_keeps_iff hrun (by decide +kernel) (by decide +kernel)).mpr (by decide +kernel)

/-- A normal process at the lowest level is made a round-robin process, and the hundredth tick
takes it out of the queues. -/
theorem aging_loses_process : ∃ s, Run (guarded NothingFreed Sched.exec) Sched.start
      (List.replicate 99 .tick ++ ([.yield, .alloc, .setPriority (some (.slot 0)) 139,
        .add (some (.slot 0)), .setPolicy (some (.slot 0)) .rr] : List SchedCall)) s ∧
    s.cpu.current ≠ none ∧ (tickHead s).globalTicks % 100#64 = 0#64 ∧
    (tickHead s).queued = [some (.slot 0)] ∧ (schedTick s).queued = [] := by
  have hrun := run_guarded_iff.mpr ⟨show Admissible NothingFreed Sched.exec Sched.start
    (List.replicate 99 .tick ++ ([.yield, .alloc, .setPriority (some (.slot 0)) 139,
      .add (some (.slot 0)), .setPolicy (some (.slot 0)) .rr] : List SchedCall)) by decide +kernel,
    rfl⟩
  exact ⟨_, hrun, by decide +kernel, by decide +kernel, by decide +kernel, by decide +kernel⟩

end RiscvOs.Scheduler
