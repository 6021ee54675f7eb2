import RiscvOs.ProcessCore
set_option autoImplicit false

/-!
Which address space is active. `context_switch` writes `satp` for a process that has a page
table of its own and leaves it alone for one that has none, so that such a process runs in
the address space that is active already.
-/

namespace RiscvOs.Scheduler
open WordMemory

def satpOf (pagetable : Word) : Word := (8#64 <<< 60) ||| (pagetable >>> 12)

/-- The scheduler with the page tables of the processes that got the CPU so far, the last one
first; the source has no such list. -/
structure SpaceSys where
  sched : Sched
  trail : List Word

inductive SpaceCall where
  | add (p : ProcPtr)
  | yield
  | tick
  | tickHead
  | tickTail
  | setPagetable (p : ProcRef) (pagetable : Word)

def Sched.spaceExec (s : Sched) : SpaceCall → Sched
  | .add p => schedAdd s p
  | .yield => schedYield s
  | .tick => schedTick s
  | .tickHead => Scheduler.tickHead s
  | .tickTail => Scheduler.tickTail s
  | .setPagetable p pagetable => s.modify p fun x => { x with pagetable := pagetable }

/-- `pagetable` of the current process. -/
def Sched.currentPagetable (s : Sched) : Word :=
  match s.cpu.current with
  | none => 0#64
  | some p => (s.procs p).pagetable

def SpaceSys.exec (s : SpaceSys) (c : SpaceCall) : SpaceSys :=
  let t := s.sched.spaceExec c
  ⟨t, if t.cpu.current = s.sched.cpu.current then s.trail else t.currentPagetable :: s.trail⟩

/-- After `kvminithart` and `scheduler_init`, over any process table. -/
def SpaceSys.start (procs : ProcRef → Process) (kernelSatp : Word) : SpaceSys :=
  ⟨schedulerInit { Sched.boot with procs := procs, satp := kernelSatp }, []⟩

def SpaceSys.after (procs : ProcRef → Process) (kernelSatp : Word) (calls : List SpaceCall) : SpaceSys :=
  calls.foldl SpaceSys.exec (SpaceSys.start procs kernelSatp)

/-- The address space of the last page table on the trail that is not `NULL`, or the kernel's. -/
def lastSpace (kernelSatp : Word) : List Word → Word
  | [] => kernelSatp
  | pagetable :: trail => if pagetable ≠ 0#64 then satpOf pagetable else lastSpace kernelSatp trail

/-- The call gives the CPU to `p`, which does not have it. -/
def SpaceSys.Dispatches (s : SpaceSys) (c : SpaceCall) (p : ProcRef) : Prop :=
  s.sched.cpu.current ≠ some p ∧ (s.exec c).sched.cpu.current = some p

section Trail

variable {s t : Sched}

/-- What a call can do to `satp`. -/
inductive SatpCase (s t : Sched) : Prop
  | kept (hcur : t.cpu.current = s.cpu.current) (hsatp : t.satp = s.satp)
  | written (hcur : t.cpu.current ≠ s.cpu.current)
      (hsatp : t.satp = if t.currentPagetable ≠ 0#64 then satpOf t.currentPagetable else s.satp)

theorem Kept.satpCase (h : Kept s t) : SatpCase s t := .kept (by rw [h.cpu]) h.satp

theorem Switched.satpCase {p : ProcRef} (h : Switched p s t) : SatpCase s t := by
  have hcur : t.cpu.current = some p := by rw [h.cpu]
  have hpt : t.currentPagetable = (t.procs p).pagetable := by
    simp only [Sched.currentPagetable, hcur]
  refine .written ?_ ?_
  · rw [hcur]
    exact h.other.symm
  · rw [hpt]
    exact h.satp

theorem schedYield_satpCase (s : Sched) : SatpCase s (schedYield s) := by
  rcases schedYield_dispatch s with h | ⟨p, h⟩
  · exact h.satpCase
  · exact h.satpCase

theorem SatpCase.of_charged {u : Sched} (hu : Charged s u) (h : SatpCase u t) : SatpCase s t := by
  have hcur : u.cpu.current = s.cpu.current := by rw [hu.cpu]
  cases h with
  | kept h hsatp => exact .kept (h.trans hcur) (hsatp.trans hu.satp)
  | written h hsatp =>
    rw [hcur] at h
    rw [hu.satp] at hsatp
    exact .written h hsatp

theorem SatpCase.then_kept {u : Sched} (h : SatpCase s t) (hu : Kept t u) : SatpCase s u := by
  have hcur : u.cpu.current = t.cpu.current := by rw [hu.cpu]
  have hpt : u.currentPagetable = t.currentPagetable := by
    simp only [Sched.currentPagetable, hcur]
    split
    · rfl
    · exact (core_fields (hu.core _)).1
  cases h with
  | kept h hsatp => exact .kept (hcur.trans h) (hu.satp.trans hsatp)
  | written h hsatp =>
    refine .written (hcur ▸ h) ?_
    rw [hu.satp, hpt]
    exact hsatp

theorem tickHead_satpCase (s : Sched) : SatpCase s (tickHead s) := by
  obtain ⟨u, hu, he⟩ := tickHead_charged s
  rcases he with he | he
  · rw [he]
    exact .of_charged hu (Kept.refl u).satpCase
  · rw [he]
    exact .of_charged hu (schedYield_satpCase u)

theorem spaceExec_satpCase (c : SpaceCall) : SatpCase s (s.spaceExec c) := by
  cases c with
  | add p => exact (schedAdd_kept p).satpCase
  | yield => exact schedYield_satpCase s
  | tick =>
    simp only [Sched.spaceExec, schedTick]
    split
    · exact tickHead_satpCase s
    · exact (tickHead_satpCase s).then_kept (tickTail_kept _)
  | tickHead => exact tickHead_satpCase s
  | tickTail => exact (tickTail_kept s).satpCase
  | setPagetable p v => exact .kept rfl rfl

variable {procs : ProcRef → Process} {k : Word} {c : SpaceCall} {p : ProcRef}

theorem exec_lastSpace {s : SpaceSys} (h : s.sched.satp = lastSpace k s.trail) (c : SpaceCall) :
    (s.exec c).sched.satp = lastSpace k (s.exec c).trail := by
  cases spaceExec_satpCase (s := s.sched) c with
  | kept hcur hsatp => simp only [SpaceSys.exec, hcur, if_true, hsatp, h]
  | written hcur hsatp => simp only [SpaceSys.exec, hcur, if_false, hsatp, lastSpace, h]

/-- In every history `satp` is that of the last process with a page table of its own. -/
theorem after_lastSpace (calls : List SpaceCall) :
    (SpaceSys.after procs k calls).sched.satp = lastSpace k (SpaceSys.after procs k calls).trail := by
  unfold SpaceSys.after
  have hstart : (SpaceSys.start procs k).sched.satp = lastSpace k (SpaceSys.start procs k).trail := rfl
  generalize SpaceSys.start procs k = s at hstart
  induction calls generalizing s with
  | nil => exact hstart
  | cons c calls ih => exact ih _ (exec_lastSpace hstart c)

theorem dispatch_satp {s : SpaceSys} (h : s.sched.satp = lastSpace k s.trail) (hd : s.Dispatches c p) :
    (s.exec c).sched.satp = lastSpace k (((s.exec c).sched.procs p).pagetable :: s.trail) := by
  obtain ⟨hne, hcur⟩ := hd
  have hpt : (s.exec c).sched.currentPagetable = ((s.exec c).sched.procs p).pagetable := by
    simp only [Sched.currentPagetable, hcur]
  cases spaceExec_satpCase (s := s.sched) c with
  | kept hkept => exact absurd (hkept.symm.trans hcur) hne
  | written _ hsatp =>
    change (s.exec c).sched.satp = _ at hsatp
    rw [hsatp]
    change (if (s.exec c).sched.currentPagetable ≠ 0#64 then satpOf (s.exec c).sched.currentPagetable
      else s.sched.satp) = _
    rw [hpt, h, lastSpace]

end Trail

/-- Two histories that end with the dispatch of the same process with the same page table: the
address space is the page table's, and without one it is that of the process before. -/
theorem active_space_of_dispatch {procs procs' : ProcRef → Process} {kernelSatp : Word}
    {as bs : List SpaceCall} {c d : SpaceCall} {p : ProcRef}
    (ha : (SpaceSys.after procs kernelSatp as).Dispatches c p)
    (hb : (SpaceSys.after procs' kernelSatp bs).Dispatches d p)
    (hpt : (((SpaceSys.after procs kernelSatp as).exec c).sched.procs p).pagetable =
      (((SpaceSys.after procs' kernelSatp bs).exec d).sched.procs p).pagetable) :
    ((((SpaceSys.after procs kernelSatp as).exec c).sched.procs p).pagetable ≠ 0#64 →
      ((SpaceSys.after procs kernelSatp as).exec c).sched.satp =
        ((SpaceSys.after procs' kernelSatp bs).exec d).sched.satp) ∧
    ((((SpaceSys.after procs kernelSatp as).exec c).sched.procs p).pagetable = 0#64 →
      ((SpaceSys.after procs kernelSatp as).exec c).sched.satp =
        lastSpace kernelSatp (SpaceSys.after procs kernelSatp as).trail ∧
      ((SpaceSys.after procs' kernelSatp bs).exec d).sched.satp =
        lastSpace kernelSatp (SpaceSys.after procs' kernelSatp bs).trail) := by
  rw [dispatch_satp (after_lastSpace as) ha, dispatch_satp (after_lastSpace bs) hb, ← hpt]
  constructor
  · intro hne
    simp only [lastSpace, hne, ne_eq, not_false_eq_true, if_true]
  · intro hnull
    simp only [lastSpace, hnull, ne_eq, not_true_eq_false, if_false, and_self]

/-- The process `p` has a page table, the others have none. -/
def oneTable (p q : ProcRef) : Process :=
  { Process.zero with pagetable := if q = p then 0x87000000#64 else 0#64 }

theorem active_space_of_dispatch_oneTable :
    ((SpaceSys.after (oneTable (.slot 0)) 7#64 [.add (some (.slot 0))]).exec .yield).sched.satp =
      ((SpaceSys.after (oneTable (.slot 0)) 7#64 [.add (some (.slot 1)), .yield, .add (some (.slot 0))]).exec
        .yield).sched.satp := by
  have ha : (SpaceSys.after (oneTable (.slot 0)) 7#64 [.add (some (.slot 0))]).Dispatches .yield (.slot 0) :=
    ⟨by decide +kernel, by decide +kernel⟩
  have hb : (SpaceSys.after (oneTable (.slot 0)) 7#64 [.add (some (.slot 1)), .yield, .add (some (.slot 0))]).Dispatches
      .yield (.slot 0) := ⟨by decide +kernel, by decide +kernel⟩
  exact (active_space_of_dispatch ha hb (by decide +kernel)).1 (by decide +kernel)

/-- The second slot, without a page table, is dispatched once from the start and once after the
first one. -/
theorem active_space_depends_on_history :
    (SpaceSys.after (oneTable (.slot 0)) 7#64 [.add (some (.slot 1))]).Dispatches .yield (.slot 1) ∧
    (SpaceSys.after (oneTable (.slot 0)) 7#64 [.add (some (.slot 0)), .yield, .add (some (.slot 1))]).Dispatches
      .yield (.slot 1) ∧
    (((SpaceSys.after (oneTable (.slot 0)) 7#64 [.add (some (.slot 1))]).exec .yield).sched.procs (.slot 1)).pagetable =
      (((SpaceSys.after (oneTable (.slot 0)) 7#64 [.add (some (.slot 0)), .yield, .add (some (.slot 1))]).exec
        .yield).sched.procs (.slot 1)).pagetable ∧
    ((SpaceSys.after (oneTable (.slot 0)) 7#64 [.add (some (.slot 1))]).exec .yield).sched.satp ≠
      ((SpaceSys.after (oneTable (.slot 0)) 7#64 [.add (some (.slot 0)), .yield, .add (some (.slot 1))]).exec
        .yield).sched.satp :=
  ⟨⟨by decide +kernel, by decide +kernel⟩, ⟨by decide +kernel, by decide +kernel⟩, by decide +kernel,
    by decide +kernel⟩

end RiscvOs.Scheduler
