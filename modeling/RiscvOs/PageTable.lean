import RiscvOs.PageAlloc
set_option autoImplicit false

/-!
The SV39 page tables of `kernel/mm/vm.c`: three levels of tables of 512 entries,
each table one page of the page allocator. `panic` never returns, and a C loop
without an exit condition gets a bound on its iterations.
-/

namespace RiscvOs.Vm
open WordMemory PageAlloc

def pgSize : Word := 4096#64
def maxVa : Word := 1#64 <<< (9 + 9 + 9 + 12 - 1)
def pteV : Word := 1#64
def pteR : Word := 1#64 <<< 1
def pteW : Word := 1#64 <<< 2
def pteX : Word := 1#64 <<< 3
def kernbase : Word := 0x80000000#64
def phystop : Word := kernbase + 128#64 * 1024#64 * 1024#64
def satpSv39 : Word := 8#64 <<< 60

def pa2pte (pa : Word) : Word := (pa >>> 12) <<< 10
def pte2pa (pte : Word) : Word := (pte >>> 10) <<< 12
def pteValid (pte : Word) : Bool := pte &&& pteV != 0#64

/-- `PX(level, va)`: the 9 index bits of `va` at a level. -/
def px (level : Nat) (va : Word) : Word := (va >>> (12 + 9 * level)) &&& 0x1FF#64

inductive Outcome (α : Type) where
  | ret (a : α)
  | panic (msg : String)
  | spin

def Outcome.bind {α β : Type} : Outcome α → (α → Outcome β) → Outcome β
  | .ret a, f => f a
  | .panic msg, _ => .panic msg
  | .spin, _ => .spin

/-- The loop of `walk` from `level` down, at the table `pagetable`. -/
def walkFrom (va : Word) (alloc : Bool) : Nat → Word → Mm → Word × Mm
  | 0, pagetable, s => (slot pagetable (px 0 va).toNat, s)
  | level+1, pagetable, s =>
    let pte := slot pagetable (px (level+1) va).toNat
    if pteValid (s.mem pte) then walkFrom va alloc level (pte2pa (s.mem pte)) s
    else if !alloc then (0#64, s)
    else
      let r := allocPage s
      if r.1 = 0#64 then (0#64, r.2)
      else walkFrom va alloc level r.1 (r.2.store pte (pa2pte r.1 ||| pteV))

def walk (s : Mm) (pagetable va : Word) (alloc : Bool) : Word × Mm :=
  if va ≥ maxVa then (0#64, s) else walkFrom va alloc 2 pagetable s

def mappagesLoop (pagetable last : Word) (perm : BitVec 32) :
    Nat → Word → Word → Mm → Outcome (Int × Mm)
  | 0, _, _, _ => .spin
  | n+1, a, pa, s =>
    let r := walk s pagetable a true
    if r.1 = 0#64 then .ret (-1, r.2)
    else if pteValid (r.2.mem r.1) then .panic "mappages: remap"
    else
      let s := r.2.store r.1 (pa2pte pa ||| perm.signExtend 64 ||| pteV)
      if a = last then .ret (0, s)
      else mappagesLoop pagetable last perm n (a + pgSize) (pa + pgSize) s

/-- A page-aligned 64-bit counter comes back to its start after `2^52` steps. -/
def loopBound : Nat := 2^52

def mappages (s : Mm) (pagetable va size pa : Word) (perm : BitVec 32) : Outcome (Int × Mm) :=
  if size = 0#64 then .panic "mappages: size is zero"
  else mappagesLoop pagetable ((va + size - 1#64) / pgSize * pgSize) perm loopBound
    (va / pgSize * pgSize) pa s

def unmappagesLoop (pagetable last : Word) : Nat → Word → Mm → Outcome Mm
  | 0, _, _ => .spin
  | n+1, a, s =>
    let pte := (walk s pagetable a false).1
    if pte = 0#64 ∨ !pteValid (s.mem pte) then .panic "unmappages: not mapped"
    else
      let s := s.store pte 0#64
      if a = last then .ret s
      else unmappagesLoop pagetable last n (a + pgSize) s

def unmappages (s : Mm) (pagetable va size : Word) : Outcome Mm :=
  if size = 0#64 then .ret s
  else unmappagesLoop pagetable ((va + size - 1#64) / pgSize * pgSize) loopBound
    (va / pgSize * pgSize) s

def walkaddr (s : Mm) (pagetable va : Word) : Word :=
  if va ≥ maxVa then 0#64
  else
    let pte := (walk s pagetable va false).1
    if pte = 0#64 ∨ !pteValid (s.mem pte) then 0#64 else pte2pa (s.mem pte)

def va2pa (s : Mm) (pagetable va : Word) : Word :=
  let pte := (walk s pagetable va false).1
  if pte = 0#64 ∨ !pteValid (s.mem pte) then 0#64
  else pte2pa (s.mem pte) + (va &&& (pgSize - 1#64))

def vmCreateUserPagetable (s : Mm) : Word × Mm := allocPage s

/-- The memory in the course of `vm_free`. `freed` is not in the source: it lists the
arguments of the calls of `free_page` so far. -/
structure Freeing where
  mm : Mm
  freed : List Word

def Freeing.freePage (page : Word) (s : Freeing) : Freeing :=
  ⟨PageAlloc.freePage page s.mm, s.freed ++ [page]⟩

/-- The entry points to a lower-level page table. -/
def pteTable (pte : Word) : Bool := pteValid pte && pte &&& (pteR ||| pteW ||| pteX) == 0#64

/-- The loop of `vm_free` over the entries `is` of a table; `free` is the recursive call. -/
def vmFreeLoop (free : Word → Freeing → Outcome Freeing) (pagetable : Word) :
    List Nat → Freeing → Outcome Freeing
  | [], s => .ret s
  | i :: is, s =>
    let pte := s.mm.mem (slot pagetable i)
    if pteTable pte then (free (pte2pa pte) s).bind (vmFreeLoop free pagetable is)
    else vmFreeLoop free pagetable is s

/-- `vm_free` with a bound on the depth of its recursion. -/
def vmFree : Nat → Word → Freeing → Outcome Freeing
  | 0, _, _ => .spin
  | n+1, pagetable, s =>
    (vmFreeLoop (vmFree n) pagetable (List.range 512) s).bind fun s => .ret (s.freePage pagetable)

/-- A call of `mappages` by `kvminit`, with the message it panics with. -/
def kvmmap (s : Mm) (pagetable va size pa perm : Word) (msg : String) : Outcome Mm :=
  (mappages s pagetable va size pa (perm.setWidth 32)).bind fun r =>
    if r.1 ≠ 0 then .panic msg else .ret r.2

/-- `kvminit`; the first result is `kernel_pagetable`. -/
def kvminit (s : Mm) : Outcome (Word × Mm) :=
  let r := allocPage s
  if r.1 = 0#64 then .panic "kvminit: alloc_page failed"
  else
    (kvmmap r.2 r.1 kernbase (phystop - kernbase) kernbase (pteR ||| pteW ||| pteX)
      "kvminit: mappages failed for kernel").bind fun s =>
    (kvmmap s r.1 0x10000000#64 pgSize 0x10000000#64 (pteR ||| pteW)
      "kvminit: mappages failed for UART").bind fun s =>
    (kvmmap s r.1 0x0C000000#64 0x4000000#64 0x0C000000#64 (pteR ||| pteW)
      "kvminit: mappages failed for PLIC").bind fun s =>
    (kvmmap s r.1 0x02000000#64 0x10000#64 0x02000000#64 (pteR ||| pteW)
      "kvminit: mappages failed for CLINT").bind fun s => .ret (r.1, s)

/-- The value `kvminithart` writes to `satp`. -/
def kvminithart (kernelPagetable : Word) : Word := satpSv39 ||| (kernelPagetable >>> 12)

theorem maxVa_toNat : maxVa.toNat = 2^38 := by decide

theorem px_toNat (level : Nat) (va : Word) :
    (px level va).toNat = va.toNat / 2^(12 + 9 * level) % 512 := by
  rw [px, BitVec.toNat_and, BitVec.toNat_ushiftRight, Nat.shiftRight_eq_div_pow]
  exact Nat.and_two_pow_sub_one_eq_mod _ 9

theorem px_lt (level : Nat) (va : Word) : (px level va).toNat < 512 := by
  rw [px_toNat]
  exact Nat.mod_lt _ (by decide)

theorem pteValid_zero : pteValid 0#64 = false := by decide

theorem pteValid_or (x : Word) : pteValid (x ||| pteV) = true := by
  have h : ((x ||| pteV) &&& pteV).getLsbD 0 = true := by
    simp [pteV]
  simp only [pteValid, bne_iff_ne, ne_eq]
  intro hz
  rw [hz] at h
  simp at h

/-- Flag bits do not reach the page number of an entry. -/
theorem pte2pa_or {x f : Word} (hx : x.toNat < 2^52) (hf : f.toNat < 2^10) :
    pte2pa (x <<< 10 ||| f) = x <<< 12 := by
  have hs : (x <<< 10 ||| f).toNat = x.toNat * 1024 + f.toNat := by
    have h := Nat.shiftLeft_add_eq_or_of_lt hf x.toNat
    rw [BitVec.toNat_or, BitVec.toNat_shiftLeft, Nat.mod_eq_of_lt, ← h, Nat.shiftLeft_eq]
    rw [Nat.shiftLeft_eq]
    omega
  apply BitVec.eq_of_toNat_eq
  rw [pte2pa, BitVec.toNat_shiftLeft, BitVec.toNat_ushiftRight, hs, BitVec.toNat_shiftLeft,
    Nat.shiftRight_eq_div_pow]
  congr 2
  omega

theorem ushiftRight_toNat_lt (pa : Word) : (pa >>> 12).toNat < 2^52 := by
  have hlt := pa.isLt
  rw [BitVec.toNat_ushiftRight, Nat.shiftRight_eq_div_pow]
  omega

theorem Outcome.bind_eq_ret {α β : Type} {o : Outcome α} {f : α → Outcome β} {b : β} :
    o.bind f = .ret b ↔ ∃ a, o = .ret a ∧ f a = .ret b := by
  cases o <;> simp [Outcome.bind]

theorem Outcome.bind_assoc {α β γ : Type} (o : Outcome α) (f : α → Outcome β) (g : β → Outcome γ) :
    (o.bind f).bind g = o.bind fun a => (f a).bind g := by
  cases o <;> rfl

/-- A table's address survives the trip through the entry that points to it. -/
theorem pte2pa_pa2pte {q : Word} (hq : Aligned q) : pte2pa (pa2pte q ||| pteV) = q := by
  rw [pa2pte, pte2pa_or (ushiftRight_toNat_lt q) (by decide)]
  have hlt := q.isLt
  simp only [Aligned] at hq
  apply BitVec.eq_of_toNat_eq
  rw [BitVec.toNat_shiftLeft, BitVec.toNat_ushiftRight, Nat.shiftLeft_eq,
    Nat.shiftRight_eq_div_pow]
  omega

end RiscvOs.Vm
