import RiscvOs.WordMemory
set_option autoImplicit false

/-!
A small RISC-V hart for straight-line assembly: the integer registers, the supervisor
registers that trap code uses, and a memory of double words. A C function that the code
calls is a parameter of the execution.
-/

namespace RiscvOs.Riscv
open WordMemory

abbrev Reg := BitVec 5

def ra : Reg := 1#5
def sp : Reg := 2#5
def t0 : Reg := 5#5
def a0 : Reg := 10#5
def a1 : Reg := 11#5
def a2 : Reg := 12#5

inductive Csr where
  | satp | sscratch | sepc | sstatus | stvec
  deriving DecidableEq

structure Hart where
  regs : Reg → Word
  csr : Csr → Word
  mem : Mem
  pc : Word

/-- A write to a register; `x0` stays 0. -/
def Hart.set (h : Hart) (rd : Reg) (v : Word) : Hart :=
  if rd = 0#5 then h else { h with regs := Function.update h.regs rd v }

def Hart.setCsr (h : Hart) (c : Csr) (v : Word) : Hart := { h with csr := Function.update h.csr c v }

def setBit (w : Word) (i : Nat) (b : Bool) : Word :=
  if b then w ||| 1#64 <<< i else w &&& ~~~(1#64 <<< i)

/-- `SIE`, `SPIE` and `SPP` in `sstatus`. -/
def bitSie : Nat := 1
def bitSpie : Nat := 5
def bitSpp : Nat := 8

/-- What the hart does when it takes a trap to supervisor mode. -/
def Hart.trap (h : Hart) (supervisor : Bool) : Hart :=
  let s := h.csr .sstatus
  let s := setBit (setBit (setBit s bitSpie (s.getLsbD bitSie)) bitSie false) bitSpp supervisor
  { (h.setCsr .sepc h.pc).setCsr .sstatus s with pc := h.csr .stvec }

def Hart.sret (h : Hart) : Hart :=
  let s := h.csr .sstatus
  let s := setBit (setBit (setBit s bitSie (s.getLsbD bitSpie)) bitSpie true) bitSpp false
  { h.setCsr .sstatus s with pc := h.csr .sepc }

inductive Instr where
  | addi (rd rs : Reg) (imm : Word)
  | li (rd : Reg) (imm : Word)
  | mv (rd rs : Reg)
  | ld (rd : Reg) (imm : Word) (base : Reg)
  | sd (rs : Reg) (imm : Word) (base : Reg)
  | csrr (rd : Reg) (c : Csr)
  | csrw (c : Csr) (rs : Reg)
  | csrrw (rd : Reg) (c : Csr) (rs : Reg)
  | sfenceVma
  | call (link : Word)
  | sret

section Exec

-- The function that `call` calls.
variable (f : Hart → Hart)

def Instr.exec (h : Hart) : Instr → Hart
  | addi rd rs imm => h.set rd (h.regs rs + imm)
  | li rd imm => h.set rd imm
  | mv rd rs => h.set rd (h.regs rs)
  | ld rd imm base => h.set rd (h.mem (h.regs base + imm))
  | sd rs imm base => { h with mem := Function.update h.mem (h.regs base + imm) (h.regs rs) }
  | csrr rd c => h.set rd (h.csr c)
  | csrw c rs => h.setCsr c (h.regs rs)
  | csrrw rd c rs => (h.setCsr c (h.regs rs)).set rd (h.csr c)
  | sfenceVma => h
  | call link => f (h.set ra link)
  | sret => h.sret

def run (code : List Instr) (h : Hart) : Hart := code.foldl (Instr.exec f) h

end Exec

/-- The function with the listed values at their keys, the later ones over the earlier. -/
def stores {κ β : Type} [DecidableEq κ] (m : κ → β) (xs : List (κ × β)) : κ → β :=
  xs.foldl (fun m x => Function.update m x.1 x.2) m

/-- A store to the stack for each register of the list, at its offset. -/
def saveAll (base : Reg) (xs : List (Reg × Word)) : List Instr := xs.map fun x => .sd x.1 x.2 base

def loadAll (base : Reg) (xs : List (Reg × Word)) : List Instr := xs.map fun x => .ld x.1 x.2 base

/-- A statement about all registers, one number after the other. -/
theorem forall_reg {P : Reg → Prop} (h : ∀ n < 32, P (BitVec.ofNat 5 n)) (x : Reg) : P x := by
  have hx := h x.toNat x.isLt
  rwa [BitVec.ofNat_toNat, BitVec.setWidth_eq] at hx

section Lemmas

variable {f : Hart → Hart} {h : Hart}

theorem run_append (xs ys : List Instr) : run f (xs ++ ys) h = run f ys (run f xs h) := List.foldl_append

@[simp] theorem run_nil : run f [] h = h := rfl

@[simp] theorem run_cons (i : Instr) (xs : List Instr) : run f (i :: xs) h = run f xs (i.exec f h) := rfl

@[simp] theorem set_csr (rd : Reg) (v : Word) : (h.set rd v).csr = h.csr := by
  unfold Hart.set
  split <;> rfl

@[simp] theorem set_mem (rd : Reg) (v : Word) : (h.set rd v).mem = h.mem := by
  unfold Hart.set
  split <;> rfl

theorem set_regs {rd : Reg} (hrd : rd ≠ 0#5) (v : Word) : (h.set rd v).regs = Function.update h.regs rd v := by
  rw [Hart.set, if_neg hrd]

@[simp] theorem setCsr_regs (c : Csr) (v : Word) : (h.setCsr c v).regs = h.regs := rfl

@[simp] theorem setCsr_csr (c : Csr) (v : Word) : (h.setCsr c v).csr = Function.update h.csr c v := rfl

@[simp] theorem sret_regs : h.sret.regs = h.regs := rfl

theorem sret_csr {c : Csr} (hc : c ≠ .sstatus) : h.sret.csr c = h.csr c := Function.update_of_ne hc ..

theorem getLsbD_setBit (w : Word) {i : Nat} (hi : i < 64) (b : Bool) (j : Nat) :
    (setBit w i b).getLsbD j = if j = i then b else w.getLsbD j := by
  cases b with
  | true =>
    by_cases he : j = i
    · subst he
      simp [setBit, hi]
    · by_cases hlt : j < i
      · simp [setBit, he, hlt]
      · have hpos : j - i ≠ 0 := by omega
        simp [setBit, he, hpos]
  | false =>
    by_cases he : j = i
    · subst he
      simp [setBit]
    · by_cases hj : j < 64
      · have hpos : ¬ j < i → j - i ≠ 0 := by omega
        by_cases hlt : j < i <;> simp [setBit, he, hj, hlt, hpos]
      · have hw : w.getLsbD j = false := BitVec.getLsbD_of_ge w j (by omega)
        simp [setBit, he, hw]

/-- A trap is taken with interrupts off. -/
theorem trap_sie (b : Bool) : ((h.trap b).csr .sstatus).getLsbD bitSie = false := by
  have hsstatus : (h.trap b).csr .sstatus = setBit (setBit (setBit (h.csr .sstatus) bitSpie
      ((h.csr .sstatus).getLsbD bitSie)) bitSie false) bitSpp b := rfl
  rw [hsstatus, getLsbD_setBit _ (by decide), if_neg (by decide), getLsbD_setBit _ (by decide), if_pos rfl]

section Stores

variable {κ β : Type} [DecidableEq κ] {m : κ → β} {xs : List (κ × β)} {k : κ} {v : β}

theorem stores_of_not_mem (hk : k ∉ xs.map Prod.fst) : stores m xs k = m k := by
  induction xs generalizing m with
  | nil => rfl
  | cons x xs ih =>
    simp only [List.map_cons, List.mem_cons, not_or] at hk
    rw [stores, List.foldl_cons, ← stores, ih hk.2, Function.update_of_ne hk.1]

theorem stores_of_mem (hx : (k, v) ∈ xs) (hnd : (xs.map Prod.fst).Nodup) : stores m xs k = v := by
  induction xs generalizing m with
  | nil => cases hx
  | cons x xs ih =>
    rw [List.map_cons, List.nodup_cons] at hnd
    rw [stores, List.foldl_cons, ← stores]
    cases hx with
    | head => rw [stores_of_not_mem hnd.1, Function.update_self]
    | tail _ hx => exact ih hx hnd.2

end Stores

theorem run_saveAll (base : Reg) (xs : List (Reg × Word)) : run f (saveAll base xs) h =
    { h with mem := stores h.mem (xs.map fun x => (h.regs base + x.2, h.regs x.1)) } := by
  induction xs generalizing h with
  | nil => rfl
  | cons x xs ih =>
    rw [saveAll, List.map_cons, run_cons, ← saveAll, ih]
    rfl

theorem run_loadAll {base : Reg} {xs : List (Reg × Word)} (hbase : base ∉ xs.map Prod.fst)
    (hzero : 0#5 ∉ xs.map Prod.fst) : run f (loadAll base xs) h =
      { h with regs := stores h.regs (xs.map fun x => (x.1, h.mem (h.regs base + x.2))) } := by
  induction xs generalizing h with
  | nil => rfl
  | cons x xs ih =>
    simp only [List.map_cons, List.mem_cons, not_or] at hbase hzero
    have hset : h.set x.1 (h.mem (h.regs base + x.2)) =
        { h with regs := Function.update h.regs x.1 (h.mem (h.regs base + x.2)) } :=
      if_neg (Ne.symm hzero.1)
    rw [loadAll, List.map_cons, run_cons, ← loadAll, ih hbase.2 hzero.2, Instr.exec, hset]
    simp only [Function.update_of_ne hbase.1]
    rfl

end Lemmas

end RiscvOs.Riscv
