import RiscvOs.Riscv
import RiscvOs.SchedulerCalls
set_option autoImplicit false

/-!
Processes that are preempted inside a timer trap. `trap_entry` of `bootloader/boot.S` keeps
the interrupted `sp` in `sscratch` and the interrupted `pc` in `sepc`, of which the hart has
one each, while `sched_tick` may switch to a process that takes traps of its own. It keeps no
other register, so that even a trap without a switch is at the mercy of its handler.
-/

namespace RiscvOs.Preemption
open WordMemory Runs Riscv Scheduler

/-- `trap_entry` up to the call of `trap_handler`. -/
def trapEntrySave : List Instr := [.csrw .sscratch sp]

/-- `trap_entry` from the return of `trap_handler` on. -/
def trapEntryRestore : List Instr := [.csrr sp .sscratch, .sret]

/-- The registers `s0` to `s11`. -/
def sReg : Fin 12 → Reg
  | 0 => 8#5 | 1 => 9#5 | 2 => 18#5 | 3 => 19#5 | 4 => 20#5 | 5 => 21#5
  | 6 => 22#5 | 7 => 23#5 | 8 => 24#5 | 9 => 25#5 | 10 => 26#5 | 11 => 27#5

/-- What `swtch` stores in the context of the old process. -/
def saveContext (h : Hart) : Context := ⟨h.regs ra, h.regs sp, fun i => h.regs (sReg i)⟩

/-- What `swtch` loads from the context of the new process, and its `ret`. -/
def loadContext (c : Context) (h : Hart) : Hart :=
  let regs := stores h.regs ([(ra, c.ra), (sp, c.sp)] ++ (List.finRange 12).map fun i => (sReg i, c.s i))
  { h with regs := regs, pc := c.ra }

/-- The hart and the scheduler. `inTrap` are the processes between their entry into a trap and
its `sret`; `none` is the boot code. `lastTrap` and `interrupted` are not in the source: the
process that took the last timer trap, and the `pc` and `sp` each one had at its last trap. -/
structure Kernel where
  sched : Sched
  hart : Hart
  inTrap : ProcPtr → Bool
  lastTrap : ProcPtr
  interrupted : ProcPtr → Word × Word

/-- `execute` is a stretch of code that runs up to `pc` with `regs` in the registers. The `regs`
of `timer` and `yield` are those at the call of `swtch`, if it is called. -/
inductive KernelCall where
  | execute (pc : Word) (regs : Reg → Word)
  | setSie (on : Bool)
  | timer (regs : Reg → Word)
  | yield (regs : Reg → Word)
  | trapReturn
  | setContext (p : ProcRef) (c : Context)
  | sched (c : SchedCall)

def Kernel.current (k : Kernel) : ProcPtr := k.sched.cpu.current

/-- The hart after the scheduler has gone from `k.sched` to `s`, through `swtch` when the
current process has changed. -/
def Kernel.swtch (k : Kernel) (s : Sched) (h : Hart) : Kernel :=
  if s.cpu.current = k.current then { k with sched := s, hart := h }
  else
    let s := match k.current with
      | none => s
      | some p => s.modify p fun x => { x with context := saveContext h }
    match s.cpu.current with
    | none => { k with sched := s, hart := h }
    | some q => { k with sched := s, hart := loadContext (s.procs q).context h }

def Kernel.sie (k : Kernel) : Bool := (k.hart.csr .sstatus).getLsbD bitSie

/-- The calls of the scheduler that do not switch. -/
def quiet : SchedCall → Bool
  | .alloc | .add _ | .setPriority _ _ | .setPolicy _ _ => true
  | _ => false

def Kernel.Ok (k : Kernel) : KernelCall → Prop
  | .execute _ _ => True
  | .setSie _ => k.inTrap k.current = false
  | .timer _ => k.inTrap k.current = false ∧ k.sie = true
  | .yield _ => k.inTrap k.current = false
  | .trapReturn => k.inTrap k.current = true
  | .setContext p _ => some p ≠ k.current ∧ k.inTrap (some p) = false
  | .sched c => quiet c = true

instance (k : Kernel) : (c : KernelCall) → Decidable (k.Ok c)
  | .execute _ _ => inferInstanceAs (Decidable True)
  | .setSie _ => inferInstanceAs (Decidable (_ = _))
  | .timer _ => inferInstanceAs (Decidable (_ ∧ _))
  | .yield _ => inferInstanceAs (Decidable (_ = _))
  | .trapReturn => inferInstanceAs (Decidable (_ = _))
  | .setContext _ _ => inferInstanceAs (Decidable (_ ∧ _))
  | .sched _ => inferInstanceAs (Decidable (_ = _))

/-- The hart at the call of `trap_handler`. -/
def Kernel.trapped (k : Kernel) : Hart := run id trapEntrySave (k.hart.trap true)

def Kernel.exec (k : Kernel) : KernelCall → Kernel
  | .execute pc regs => { k with hart := { k.hart with pc := pc, regs := regs } }
  | .setSie on => { k with hart := k.hart.setCsr .sstatus (setBit (k.hart.csr .sstatus) bitSie on) }
  | .timer regs =>
    { k with
      inTrap := Function.update k.inTrap k.current true
      lastTrap := k.current
      interrupted := Function.update k.interrupted k.current (k.hart.pc, k.hart.regs sp) }.swtch
      (tickHead k.sched) { k.trapped with regs := regs }
  | .yield regs => k.swtch (schedYield k.sched) { k.hart with regs := regs }
  | .trapReturn =>
    { k with
      sched := if k.current = none then k.sched else tickTail k.sched
      hart := run id trapEntryRestore k.hart
      inTrap := Function.update k.inTrap k.current false }
  | .setContext p c => { k with sched := k.sched.modify p fun x => { x with context := c } }
  | .sched c => { k with sched := k.sched.exec c }

/-- The boot code after `scheduler_init` and `trap_init`. -/
def Kernel.start (h : Hart) : Kernel :=
  ⟨Sched.start, h, fun _ => false, none, fun _ => (h.csr .sepc, h.csr .sscratch)⟩

/-- The process that returned from its trap, which leads from `k` to `t`, goes on where it was
interrupted. -/
def Resumes (k t : Kernel) : Prop :=
  (t.hart.pc, t.hart.regs sp) = k.interrupted k.current

section Invariant

variable {k : Kernel}

@[simp] theorem swtch_inTrap (s : Sched) (h : Hart) : (k.swtch s h).inTrap = k.inTrap := by
  simp only [Kernel.swtch]
  repeat' split
  all_goals rfl

@[simp] theorem swtch_lastTrap (s : Sched) (h : Hart) : (k.swtch s h).lastTrap = k.lastTrap := by
  simp only [Kernel.swtch]
  repeat' split
  all_goals rfl

@[simp] theorem swtch_interrupted (s : Sched) (h : Hart) :
    (k.swtch s h).interrupted = k.interrupted := by
  simp only [Kernel.swtch]
  repeat' split
  all_goals rfl

/-- `swtch` saves and loads no supervisor register. -/
@[simp] theorem swtch_csr (s : Sched) (h : Hart) : (k.swtch s h).hart.csr = h.csr := by
  simp only [Kernel.swtch]
  repeat' split
  all_goals rfl

/-- The two registers have what the last trap left there, whoever took it. -/
def TrapRegs (k : Kernel) : Prop :=
  (k.hart.csr .sepc, k.hart.csr .sscratch) = k.interrupted k.lastTrap

theorem trapped_csr : k.trapped.csr .sepc = k.hart.pc ∧ k.trapped.csr .sscratch = k.hart.regs sp :=
  ⟨rfl, rfl⟩

theorem TrapRegs.exec (h : TrapRegs k) (c : KernelCall) : TrapRegs (k.exec c) := by
  cases c with
  | execute pc regs => exact h
  | setSie on => exact h
  | timer regs => simp [TrapRegs, Kernel.exec, trapped_csr]
  | yield regs => simpa [TrapRegs, Kernel.exec] using h
  | trapReturn => exact h
  | setContext p c => exact h
  | sched c => exact h

theorem trapReturn_hart : ((k.exec .trapReturn).hart.pc, (k.exec .trapReturn).hart.regs sp) =
    (k.hart.csr .sepc, k.hart.csr .sscratch) := rfl

end Invariant

/-- In every run a process returns from its trap to where it was interrupted exactly when the
last trap was its own, or interrupted another process at the same place. -/
theorem preempted_resumes_iff {h : Hart} {calls : List KernelCall} {k t : Kernel}
    (hrun : Run (guarded Kernel.Ok Kernel.exec) (Kernel.start h) calls k)
    (hret : guarded Kernel.Ok Kernel.exec k .trapReturn t) :
    Resumes k t ↔ k.interrupted k.lastTrap = k.interrupted k.current := by
  have hregs : TrapRegs k := hrun.guarded_invariant TrapRegs (fun s c hs _ => hs.exec c) rfl
  rw [Resumes, hret.2, trapReturn_hart, hregs]

/-- Two processes of the real-time queue that are preempted at every tick. The first one is
interrupted at `0x1000`, the second one turns interrupts on and is interrupted at `0x2000`. -/
def twoTraps (p q : ProcRef) : List KernelCall :=
  [.sched .alloc, .sched .alloc, .sched (.setPolicy (some p) .rr), .sched (.setPolicy (some q) .rr),
   .sched (.add (some p)), .sched (.add (some q)),
   .yield fun _ => 0#64, .execute 0x1000#64 fun _ => 0x80400000#64, .timer fun _ => 0x80400000#64,
   .setSie true, .execute 0x2000#64 fun _ => 0x80500000#64, .timer fun _ => 0x80500000#64]

/-- The second process yields instead and the first one returns from its trap. -/
def oneTrap (p q : ProcRef) : List KernelCall := (twoTraps p q).take 9 ++ [.yield fun _ => 0#64]

/-- The boot code with interrupts on. -/
def bootHart : Hart where
  regs := fun _ => 0x80300000#64
  csr := fun c => if c = .sstatus then 2#64 else 0#64
  mem := fun _ => 0#64
  pc := 0x80200000#64

def afterCalls (calls : List KernelCall) : Kernel := calls.foldl Kernel.exec (Kernel.start bootHart)

theorem preempted_resumes_oneTrap :
    ∃ k t, Run (guarded Kernel.Ok Kernel.exec) (Kernel.start bootHart) (oneTrap (.slot 0) (.slot 1)) k ∧
      guarded Kernel.Ok Kernel.exec k .trapReturn t ∧ Resumes k t := by
  obtain ⟨k, hk⟩ : ∃ k, k = afterCalls (oneTrap (.slot 0) (.slot 1)) := ⟨_, rfl⟩
  have hadm : Admissible Kernel.Ok Kernel.exec (Kernel.start bootHart) (oneTrap (.slot 0) (.slot 1)) := by
    decide +kernel
  have hok : k.Ok .trapReturn := by
    rw [hk]
    decide +kernel
  have hown : k.interrupted k.lastTrap = k.interrupted k.current := by
    rw [hk]
    decide +kernel
  have hrun := run_guarded_iff.mpr ⟨hadm, show k = _ from hk⟩
  exact ⟨_, _, hrun, ⟨hok, rfl⟩, (preempted_resumes_iff hrun ⟨hok, rfl⟩).mpr hown⟩

/-- The first process returns to the second one's `pc` and `sp`. -/
theorem preempted_resumes_elsewhere :
    ∃ k t, Run (guarded Kernel.Ok Kernel.exec) (Kernel.start bootHart) (twoTraps (.slot 0) (.slot 1)) k ∧
      guarded Kernel.Ok Kernel.exec k .trapReturn t ∧ k.current = some (.slot 0) ∧
      k.interrupted (some (.slot 0)) = (0x1000#64, 0x80400000#64) ∧
      (t.hart.pc, t.hart.regs sp) = (0x2000#64, 0x80500000#64) ∧ ¬ Resumes k t := by
  obtain ⟨k, hk⟩ : ∃ k, k = afterCalls (twoTraps (.slot 0) (.slot 1)) := ⟨_, rfl⟩
  have hadm : Admissible Kernel.Ok Kernel.exec (Kernel.start bootHart) (twoTraps (.slot 0) (.slot 1)) := by
    decide +kernel
  have hok : k.Ok .trapReturn := by
    rw [hk]
    decide +kernel
  have hcur : k.current = some (.slot 0) := by
    rw [hk]
    decide +kernel
  have hint : k.interrupted (some (.slot 0)) = (0x1000#64, 0x80400000#64) := by
    rw [hk]
    decide +kernel
  have hres : ((k.exec .trapReturn).hart.pc, (k.exec .trapReturn).hart.regs sp) =
      (0x2000#64, 0x80500000#64) := by
    rw [hk]
    decide +kernel
  refine ⟨k, _, run_guarded_iff.mpr ⟨hadm, hk⟩, ⟨hok, rfl⟩, hcur, hint, hres, ?_⟩
  rw [Resumes, hres, hcur, hint]
  decide

section Interrupts

/-- While a process is in a trap, interrupts are off and the last trap is its own. -/
def Alone (k : Kernel) : Prop := ∀ p, k.inTrap p = true → k.lastTrap = p ∧ k.sie = false

/-- The processes leave `SIE` as it is. -/
def Kernel.OkMasked (k : Kernel) (c : KernelCall) : Prop := k.Ok c ∧ ∀ on, c ≠ .setSie on

theorem Alone.exec {k : Kernel} {c : KernelCall} (h : Alone k) (hok : k.OkMasked c) : Alone (k.exec c) := by
  obtain ⟨hok, hsie⟩ := hok
  intro p hp
  cases c with
  | execute pc regs => exact h p hp
  | setSie on => exact absurd rfl (hsie on)
  | timer regs =>
    have hnone : k.inTrap p = false := by
      cases hq : k.inTrap p with
      | false => rfl
      | true => exact absurd hok.2 (by simp [(h p hq).2])
    have hcur : p = k.current := by
      by_contra hne
      simp [Kernel.exec, Function.update_of_ne hne, hnone] at hp
    have hmask : (k.trapped.csr .sstatus).getLsbD bitSie = false := trap_sie true
    refine ⟨by simp [Kernel.exec, hcur], ?_⟩
    simpa [Kernel.exec, Kernel.sie] using hmask
  | yield regs =>
    simp only [Kernel.exec, swtch_inTrap] at hp
    simpa [Kernel.exec, Kernel.sie] using h p hp
  | trapReturn =>
    have hcur := (h k.current hok).1
    by_cases hpc : p = k.current
    · simp [Kernel.exec, hpc] at hp
    · simp only [Kernel.exec, Function.update_of_ne hpc] at hp
      exact absurd ((h p hp).1.symm.trans hcur) hpc
  | setContext q c => exact h p hp
  | sched c => exact h p hp

/-- As long as the processes leave `SIE` as it is, traps do not overlap, and each of them
returns to where it came from. -/
theorem masked_resumes {h : Hart} {calls : List KernelCall} {k t : Kernel}
    (hrun : Run (guarded Kernel.OkMasked Kernel.exec) (Kernel.start h) calls k)
    (hret : guarded Kernel.OkMasked Kernel.exec k .trapReturn t) : Resumes k t := by
  have hregs : TrapRegs k := hrun.guarded_invariant TrapRegs (fun s c hs _ => hs.exec c) rfl
  have halone : Alone k :=
    hrun.guarded_invariant Alone (fun s c hs hok => hs.exec hok) (by simp [Alone, Kernel.start])
  rw [Resumes, hret.2, trapReturn_hart, hregs, (halone k.current hret.1.1).1]

end Interrupts

section Registers

def trapEntry (link : Word) : List Instr := trapEntrySave ++ [.call link] ++ trapEntryRestore

/-- What a function must give back in the RISC-V calling convention: `sp`, `gp`, `tp` and `s0` to `s11`. -/
def calleeSaved : List Reg :=
  [2#5, 3#5, 4#5, 8#5, 9#5, 18#5, 19#5, 20#5, 21#5, 22#5, 23#5, 24#5, 25#5, 26#5, 27#5]

/-- What it may use as it likes: `ra`, `t0` to `t6` and `a0` to `a7`. -/
def callerSaved : List Reg :=
  [1#5, 5#5, 6#5, 7#5, 10#5, 11#5, 12#5, 13#5, 14#5, 15#5, 16#5, 17#5, 28#5, 29#5, 30#5, 31#5]

/-- A `trap_handler` that follows the convention and takes no further trap, so that `sscratch` stays. -/
structure KeepsConvention (handler : Hart → Hart) : Prop where
  regs : ∀ h, ∀ x ∈ calleeSaved, (handler h).regs x = h.regs x
  sscratch : ∀ h, (handler h).csr .sscratch = h.csr .sscratch

/-- An interrupt: the return address of the call in `trap_entry`, and the handler. -/
structure Interrupt where
  link : Word
  handler : Hart → Hart
  keeps : KeepsConvention handler

/-- The hart at the first instruction of `trap_handler`. -/
def Interrupt.called (i : Interrupt) (h : Hart) : Hart := (run id trapEntrySave (h.trap true)).set ra i.link

/-- The hart behind the `sret` of `trap_entry`. -/
def Interrupt.leave (i : Interrupt) (h : Hart) : Hart := run i.handler (trapEntry i.link) (h.trap true)

/-- The interrupted code goes on with the registers it had. -/
def Interrupt.Transparent (i : Interrupt) (h : Hart) : Prop :=
  ∀ x : Reg, x ≠ 0#5 → (i.leave h).regs x = h.regs x

theorem mem_saved {x : Reg} (hzero : x ≠ 0#5) : x ∈ calleeSaved ∨ x ∈ callerSaved := by
  have hall : ∀ x : Reg, x ≠ 0#5 → x ∈ calleeSaved ∨ x ∈ callerSaved := forall_reg (by decide)
  exact hall x hzero

variable (i : Interrupt) (h : Hart)

/-- Only `sp` is put back; the other registers are those of the handler. -/
theorem leave_regs : (i.leave h).regs = Function.update (i.handler (i.called h)).regs sp (h.regs sp) := by
  have hscratch : (i.handler (i.called h)).csr .sscratch = h.regs sp := i.keeps.sscratch _
  have hsp : sp ≠ 0#5 := by decide
  have hleave : i.leave h = run i.handler trapEntryRestore (i.handler (i.called h)) := rfl
  rw [hleave, trapEntryRestore, run_cons, run_cons, run_nil, Instr.exec, Instr.exec, sret_regs, set_regs hsp, hscratch]

theorem leave_calleeSaved {x : Reg} (hx : x ∈ calleeSaved) : (i.leave h).regs x = h.regs x := by
  have hra : x ≠ ra := by
    rintro rfl
    exact absurd hx (by decide)
  rw [leave_regs]
  by_cases hsp : x = sp
  · rw [hsp, Function.update_self]
  · rw [Function.update_of_ne hsp, i.keeps.regs _ x hx, Interrupt.called, set_regs (by decide),
      Function.update_of_ne hra]
    rfl

theorem leave_callerSaved {x : Reg} (hx : x ∈ callerSaved) :
    (i.leave h).regs x = (i.handler (i.called h)).regs x := by
  have hsp : x ≠ sp := by
    rintro rfl
    exact absurd hx (by decide)
  rw [leave_regs, Function.update_of_ne hsp]

/-- A handler that the convention allows: it leaves a value of its own in `t0`. -/
def usesT0 (v : Word) : Interrupt where
  link := 0x80201000#64
  handler := fun h => h.set t0 v
  keeps := by
    constructor
    · intro h x hx
      have hne : x ≠ t0 := by
        rintro rfl
        exact absurd hx (by decide)
      rw [set_regs (by decide), Function.update_of_ne hne]
    · intro h
      rw [set_csr]

/-- `trap_entry` saves none of the registers that the convention lets its callee use. An interrupt
is transparent exactly when the handler happens to leave in them what was there before `trap_entry`,
and whatever the registers are, some handler does not. -/
theorem interrupt_transparent_iff : (∀ i : Interrupt, i.Transparent h ↔
      ∀ x ∈ callerSaved, (i.handler (i.called h)).regs x = h.regs x) ∧
    ∃ i : Interrupt, ¬ i.Transparent h := by
  refine ⟨?_, usesT0 (h.regs t0 + 1#64), ?_⟩
  · intro i
    constructor
    · intro hi x hx
      have hzero : x ≠ 0#5 := by
        rintro rfl
        exact absurd hx (by decide)
      rw [← leave_callerSaved i h hx, hi x hzero]
    · intro hi x hzero
      rcases mem_saved hzero with hx | hx
      · exact leave_calleeSaved i h hx
      · rw [leave_callerSaved i h hx, hi x hx]
  · intro hi
    have ht0 := hi t0 (by decide)
    rw [leave_callerSaved _ h (by decide)] at ht0
    have hne : h.regs t0 + 1#64 ≠ h.regs t0 := by
      bv_omega
    exact hne ht0

/-- A handler that does nothing. -/
def idleInterrupt : Interrupt := ⟨0x80201000#64, id, ⟨fun _ _ _ => rfl, fun _ => rfl⟩⟩

/-- The call itself overwrites the `ra` of the interrupted code. -/
theorem interrupt_ra_lost : ¬ idleInterrupt.Transparent bootHart ∧
    bootHart.regs ra = 0x80300000#64 ∧ (idleInterrupt.leave bootHart).regs ra = 0x80201000#64 := by
  have hlost : (idleInterrupt.leave bootHart).regs ra = 0x80201000#64 :=
    leave_callerSaved idleInterrupt bootHart (by decide)
  refine ⟨?_, rfl, hlost⟩
  intro hi
  have hkept := hi ra (by decide)
  rw [hlost] at hkept
  exact absurd hkept (by decide)

end Registers

end RiscvOs.Preemption
