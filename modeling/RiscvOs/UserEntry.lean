import RiscvOs.Riscv
set_option autoImplicit false

/-!
The way into user mode and back of `kernel/process/swtch.S`. `switch_to_user` and
`trap_vector_user` hand the pair of `sp` and `sscratch` to each other; in between, the
user's code may do what it likes with the general registers.
-/

namespace RiscvOs.UserEntry
open WordMemory Riscv

/-- The registers of the trap frame with their offsets; `sp` has the one at 8. -/
def trapFrame : List (Reg × Word) :=
  [(1#5, 0#64), (3#5, 16#64), (4#5, 24#64), (5#5, 32#64), (6#5, 40#64), (7#5, 48#64), (8#5, 56#64),
   (9#5, 64#64), (10#5, 72#64), (11#5, 80#64), (12#5, 88#64), (13#5, 96#64), (14#5, 104#64),
   (15#5, 112#64), (16#5, 120#64), (17#5, 128#64), (18#5, 136#64), (19#5, 144#64), (20#5, 152#64),
   (21#5, 160#64), (22#5, 168#64), (23#5, 176#64), (24#5, 184#64), (25#5, 192#64), (26#5, 200#64),
   (27#5, 208#64), (28#5, 216#64), (29#5, 224#64), (30#5, 232#64), (31#5, 240#64)]

/-- `trap_vector_user` up to the call of `trap_handler`. -/
def trapSave : List Instr :=
  [.csrrw sp .sscratch sp, .addi sp sp (-256#64)] ++ saveAll sp trapFrame ++
    [.csrr t0 .sscratch, .sd t0 8#64 sp, .mv a0 sp]

/-- `trap_vector_user` from the return of `trap_handler` on. -/
def trapRestore : List Instr :=
  loadAll sp trapFrame ++ [.ld t0 8#64 sp, .addi sp sp 256#64, .csrw .sscratch sp, .mv sp t0, .sret]

def trapVectorUser (link : Word) : List Instr := trapSave ++ [.call link] ++ trapRestore

/-- What `trap_handler` leaves alone: the stack pointer, `sscratch`, and the words of the frame
above its own. -/
structure KeepsFrame (handler : Hart → Hart) : Prop where
  sp : ∀ h, (handler h).regs sp = h.regs sp
  sscratch : ∀ h, (handler h).csr .sscratch = h.csr .sscratch
  frame : ∀ h, ∀ j < 32, (handler h).mem (h.regs Riscv.sp + BitVec.ofNat 64 (8 * j)) =
    h.mem (h.regs Riscv.sp + BitVec.ofNat 64 (8 * j))

/-- A stretch of user code, the trap that ends it, and the handler of that trap. -/
structure Round where
  regs : Reg → Word
  mem : Mem
  pc : Word
  link : Word
  handler : Hart → Hart
  keeps : KeepsFrame handler

/-- The hart when the trap is taken. -/
def Round.enter (r : Round) (h : Hart) : Hart :=
  Hart.trap { h with regs := r.regs, mem := r.mem, pc := r.pc } false

/-- The frame is stored, `trap_handler` about to be called. -/
def Round.saved (r : Round) (h : Hart) : Hart := run r.handler trapSave (r.enter h)

/-- `trap_handler` has returned. -/
def Round.handled (r : Round) (h : Hart) : Hart := r.handler ((r.saved h).set ra r.link)

/-- The hart back in user code. -/
def Round.leave (r : Round) (h : Hart) : Hart := run r.handler (trapVectorUser r.link) (r.enter h)

/-- One trap goes as it should for the kernel stack `k`. -/
structure Round.Agrees (r : Round) (k : Word) (h : Hart) : Prop where
  inside : ∀ a, (r.saved h).mem a ≠ (r.enter h).mem a → ∃ j < 32, a = k - 256#64 + BitVec.ofNat 64 (8 * j)
  frame : ∀ x ∈ (sp, 8#64) :: trapFrame, (r.saved h).mem (k - 256#64 + x.2) = r.regs x.1
  sp : (r.leave h).regs sp = r.regs sp
  sscratch : (r.leave h).csr .sscratch = k

/-- The user's code goes on with the registers it had. -/
def Round.Transparent (r : Round) (h : Hart) : Prop :=
  ∀ x : Reg, x ≠ 0#5 → (r.leave h).regs x = r.regs x

section Switch

variable (h : Hart)

end Switch

section Trap

variable {h : Hart} {f : Hart → Hart}

theorem trapFrame_regs : 0#5 ∉ trapFrame.map Prod.fst ∧ sp ∉ trapFrame.map Prod.fst := by decide

/-- The stacks are swapped and the frame is opened. -/
theorem run_swap (size : Word) : run f [.csrrw sp .sscratch sp, .addi sp sp size] h =
    { h with
      regs := Function.update h.regs sp (h.csr .sscratch + size)
      csr := Function.update h.csr .sscratch (h.regs sp) } := by
  have hsp : sp ≠ 0#5 := by decide
  simp only [run_cons, run_nil, Instr.exec, Hart.set, hsp, if_false, Hart.setCsr, Function.update_self,
    Function.update_idem]

/-- Where the frame goes and what `trap_handler` gets. -/
theorem run_trapSave : run f trapSave h =
    { h with
      regs := Function.update (Function.update (Function.update h.regs sp (h.csr .sscratch - 256#64)) t0
        (h.regs sp)) a0 (h.csr .sscratch - 256#64)
      csr := Function.update h.csr .sscratch (h.regs sp)
      mem := stores h.mem ((trapFrame ++ [(sp, 8#64)]).map fun x =>
        (h.csr .sscratch - 256#64 + x.2, h.regs x.1)) } := by
  have hregs (x : Reg × Word) (hx : x ∈ trapFrame) :
      Function.update h.regs sp (h.csr .sscratch - 256#64) x.1 = h.regs x.1 := by
    apply Function.update_of_ne
    intro he
    exact trapFrame_regs.2 (he ▸ List.mem_map_of_mem hx)
  have hsaved : (trapFrame.map fun x => (h.csr .sscratch - 256#64 + x.2,
        Function.update h.regs sp (h.csr .sscratch - 256#64) x.1)) =
      trapFrame.map fun x => (h.csr .sscratch - 256#64 + x.2, h.regs x.1) := by
    apply List.map_congr_left
    intro x hx
    rw [hregs x hx]
  have ht0 : t0 ≠ 0#5 ∧ sp ≠ t0 := by decide
  have ha0 : a0 ≠ 0#5 := by decide
  rw [trapSave, run_append, run_append, run_swap, ← BitVec.sub_eq_add_neg, run_saveAll]
  simp only [Function.update_self, hsaved, run_cons, run_nil, Instr.exec, Hart.set, ht0, ha0, ne_eq,
    not_false_eq_true, if_false, Function.update_of_ne, List.map_append, stores, List.foldl_append,
    List.map_cons, List.map_nil, List.foldl_cons, List.foldl_nil]

/-- The way back from a frame at `sp`: the registers of the frame, then the slot at 8 in `t0` and `sp`. -/
theorem run_trapRestore : (run f trapRestore h).regs =
      Function.update (Function.update (stores h.regs (trapFrame.map fun x => (x.1, h.mem (h.regs sp + x.2)))) t0
        (h.mem (h.regs sp + 8#64))) sp (h.mem (h.regs sp + 8#64)) ∧
    (run f trapRestore h).csr .sscratch = h.regs sp + 256#64 := by
  have hsp : (stores h.regs (trapFrame.map fun x => (x.1, h.mem (h.regs sp + x.2)))) sp = h.regs sp := by
    apply stores_of_not_mem
    rw [List.map_map]
    exact trapFrame_regs.2
  have hne : sp ≠ 0#5 ∧ t0 ≠ 0#5 ∧ sp ≠ t0 := by decide
  rw [trapRestore, run_append, run_loadAll trapFrame_regs.2 trapFrame_regs.1]
  constructor
  · simp only [run_cons, run_nil, Instr.exec, Hart.set, hne, if_false, sret_regs, setCsr_regs, hsp,
      Function.update_idem, ne_eq, not_false_eq_true, Function.update_of_ne, Function.update_self,
      Ne.symm hne.2.2]
  · simp [Instr.exec, Hart.set, hne, hsp, sret_csr]

theorem frame_addresses (b : Word) :
    (((trapFrame ++ [(sp, 8#64)]).map fun x => (b + x.2, h.regs x.1)).map Prod.fst).Nodup := by
  have hnd : ((trapFrame ++ [(sp, 8#64)]).map Prod.snd).Nodup := by decide
  have hmap := hnd.map (f := (b + ·)) fun _ _ he => BitVec.add_right_inj b |>.mp he
  simpa only [List.map_map, Function.comp_def] using hmap

theorem frame_slot : ∀ x ∈ trapFrame ++ [(sp, 8#64)], ∃ j < 32, x.2 = BitVec.ofNat 64 (8 * j) := by
  intro x hx
  have hall : ((trapFrame ++ [(sp, 8#64)]).all fun x => x.2.toNat % 8 == 0 && decide (x.2.toNat < 256)) = true := by
    decide
  have hword := List.all_eq_true.mp hall x hx
  simp only [Bool.and_eq_true, beq_iff_eq, decide_eq_true_eq] at hword
  refine ⟨x.2.toNat / 8, by omega, BitVec.eq_of_toNat_eq ?_⟩
  rw [BitVec.toNat_ofNat]
  omega

section Rounds

variable (r : Round) (h : Hart)

theorem saved_eq : r.saved h =
    { r.enter h with
      regs := Function.update (Function.update (Function.update r.regs sp (h.csr .sscratch - 256#64)) t0
        (r.regs sp)) a0 (h.csr .sscratch - 256#64)
      csr := Function.update (r.enter h).csr .sscratch (r.regs sp)
      mem := stores r.mem ((trapFrame ++ [(sp, 8#64)]).map fun x =>
        (h.csr .sscratch - 256#64 + x.2, r.regs x.1)) } := run_trapSave

theorem saved_frame {x : Reg × Word} (hx : x ∈ trapFrame ++ [(sp, 8#64)]) :
    (r.saved h).mem (h.csr .sscratch - 256#64 + x.2) = r.regs x.1 := by
  rw [saved_eq]
  exact stores_of_mem (List.mem_map_of_mem (f := fun x => (h.csr .sscratch - 256#64 + x.2, r.regs x.1)) hx)
    (frame_addresses (h := r.enter h) _)

/-- `call` writes `ra` and leaves the stack pointer to the handler. -/
theorem called_sp : ((r.saved h).set ra r.link).regs sp = h.csr .sscratch - 256#64 := by
  rw [set_regs (by decide), Function.update_of_ne (by decide), saved_eq]
  rfl

theorem handled_sp : (r.handled h).regs sp = h.csr .sscratch - 256#64 := by
  rw [Round.handled, r.keeps.sp, called_sp]

theorem handled_frame {x : Reg × Word} (hx : x ∈ trapFrame ++ [(sp, 8#64)]) :
    (r.handled h).mem (h.csr .sscratch - 256#64 + x.2) = r.regs x.1 := by
  obtain ⟨j, hj, he⟩ := frame_slot x hx
  have hslot := r.keeps.frame ((r.saved h).set ra r.link) j hj
  rw [called_sp, set_mem, ← he] at hslot
  exact hslot.trans (saved_frame r h hx)

theorem leave_eq : r.leave h = run r.handler trapRestore (r.handled h) := by
  rw [Round.leave, trapVectorUser, run_append, run_append]
  rfl

/-- A trap that finds the kernel stack in `sscratch` goes as it should and puts it back there. -/
theorem Round.agrees {h : Hart} {k : Word} (hk : h.csr .sscratch = k) : r.Agrees k h := by
  subst hk
  obtain ⟨hregs, hscratch⟩ := run_trapRestore (f := r.handler) (h := r.handled h)
  rw [← leave_eq, handled_sp] at hregs hscratch
  refine ⟨?_, ?_, ?_, ?_⟩
  · intro a ha
    rw [saved_eq] at ha
    have hmem : a ∈ ((trapFrame ++ [(sp, 8#64)]).map fun x =>
        (h.csr .sscratch - 256#64 + x.2, r.regs x.1)).map Prod.fst := by
      by_contra hn
      exact ha (stores_of_not_mem hn)
    simp only [List.map_map, List.mem_map, Function.comp_apply] at hmem
    obtain ⟨x, hx, rfl⟩ := hmem
    obtain ⟨j, hj, he⟩ := frame_slot x hx
    exact ⟨j, hj, by rw [he]⟩
  · intro x hx
    exact saved_frame r h (by simpa [or_comm] using hx)
  · rw [hregs, Function.update_self]
    exact handled_frame r h (x := (sp, 8#64)) (by simp)
  · rw [hscratch, BitVec.sub_add_cancel]

theorem leave_t0 : (r.leave h).regs t0 = r.regs sp := by
  have hregs := (run_trapRestore (f := r.handler) (h := r.handled h)).1
  rw [← leave_eq, handled_sp] at hregs
  rw [hregs, Function.update_of_ne (by decide), Function.update_self]
  exact handled_frame r h (x := (sp, 8#64)) (by simp)

theorem trapFrame_covers {x : Reg} (hzero : x ≠ 0#5) (hsp : x ≠ sp) : ∃ o, (x, o) ∈ trapFrame := by
  have hall : ∀ x : Reg, x ≠ 0#5 → x ≠ sp → x ∈ trapFrame.map Prod.fst := forall_reg (by decide)
  obtain ⟨⟨y, o⟩, ho, rfl⟩ := List.mem_map.mp (hall x hzero hsp)
  exact ⟨o, ho⟩

theorem leave_saved {x : Reg} (hzero : x ≠ 0#5) (hsp : x ≠ sp) (ht0 : x ≠ t0) :
    (r.leave h).regs x = r.regs x := by
  obtain ⟨o, ho⟩ := trapFrame_covers hzero hsp
  have hregs := (run_trapRestore (f := r.handler) (h := r.handled h)).1
  have hnd : ((trapFrame.map fun x => (x.1, (r.handled h).mem (h.csr .sscratch - 256#64 + x.2))).map
      Prod.fst).Nodup := by
    rw [List.map_map]
    show (trapFrame.map Prod.fst).Nodup
    decide
  rw [← leave_eq, handled_sp] at hregs
  rw [hregs, Function.update_of_ne hsp, Function.update_of_ne ht0,
    stores_of_mem (List.mem_map_of_mem (f := fun x => (x.1, (r.handled h).mem (_ + x.2))) ho) hnd]
  exact handled_frame r h (List.mem_append_left _ ho)

end Rounds

end Trap

/-- A hart about to enter user mode. -/
def bootHart : Hart where
  regs := fun r => if r = sp then 0x80300000#64 else if r = a2 then 0x3FFFF000#64 else 0x1000#64
  csr := fun _ => 0#64
  mem := fun _ => 0#64
  pc := 0x80200000#64

/-- A trap is transparent exactly for user code whose `t0` holds its stack pointer: `t0` is restored
first and then used to carry the stack pointer over. -/
theorem user_trap_transparent_iff (r : Round) (h : Hart) : r.Transparent h ↔ r.regs t0 = r.regs sp := by
  have ht0 := leave_t0 r h
  constructor
  · intro hr
    rw [← hr t0 (by decide), ht0]
  · intro he x hzero
    by_cases hsp : x = sp
    · rw [hsp]
      exact (r.agrees rfl).sp
    · by_cases hx : x = t0
      · rw [hx, ht0, he]
      · exact leave_saved r h hzero hsp hx

/-- A trap with a handler that does nothing, taken with 7 in `t0`. -/
def idleRound : Round where
  regs := fun x => if x = sp then 0x3FFFF000#64 else if x = t0 then 7#64 else 0#64
  mem := fun _ => 0#64
  pc := 0x1000#64
  link := 0x80201000#64
  handler := id
  keeps := ⟨fun _ => rfl, fun _ => rfl, fun _ _ _ => rfl⟩

/-- A hart in user mode, with the kernel stack in `sscratch`. -/
def userHart : Hart := bootHart.setCsr .sscratch 0x80300000#64

/-- The user's code finds its stack pointer in `t0`. -/
theorem user_trap_t0_lost : userHart.csr .sscratch = 0x80300000#64 ∧ ¬ idleRound.Transparent userHart ∧
    (idleRound.leave userHart).regs t0 = 0x3FFFF000#64 := by
  have hlost := leave_t0 idleRound userHart
  refine ⟨rfl, ?_, hlost⟩
  intro hr
  have hkept := hr t0 (by decide)
  rw [hlost] at hkept
  exact absurd hkept (by decide)

end RiscvOs.UserEntry
