import RiscvOs.KernelMap
set_option autoImplicit false

/-!
The memory-mapped registers that the drivers read and write, and what the address
translation makes of these addresses once `kvminithart` has turned paging on.
-/

namespace RiscvOs.Devices
open WordMemory PageAlloc Vm Runs

structure Access where
  addr : Word
  bytes : Nat
  write : Bool
  deriving DecidableEq

def load (addr : Word) (bytes : Nat) : Access := ⟨addr, bytes, false⟩
def store (addr : Word) (bytes : Nat) : Access := ⟨addr, bytes, true⟩

def uartBase : Word := 0x10000000#64
def uartRbr : Word := uartBase + 0#64
def uartThr : Word := uartBase + 0#64
def uartLsr : Word := uartBase + 5#64

/-- The accesses of `uart_putc`; the load of the wait loop is listed once. -/
def uartPutc : List Access := [load uartLsr 1, store uartThr 1]

def uartGetc : List Access := [load uartLsr 1, load uartRbr 1]

def plicBase : Word := 0x0C000000#64

/-- `PLIC_PRIORITY(id)`, whose product is of 32 bits. -/
def plicPriorityReg (id : BitVec 32) : Word := plicBase + (id * 4#32).setWidth 64
def plicEnableReg (hart : Word) : Word := plicBase + 0x2000#64 + hart * 0x80#64
def plicThresholdReg (hart : Word) : Word := plicBase + 0x200000#64 + hart * 0x1000#64
def plicClaimReg (hart : Word) : Word := plicBase + 0x200004#64 + hart * 0x1000#64

/-- `&enable[irq / 32]` of hart 0. -/
def plicEnableWord (irq : BitVec 32) : Word := plicEnableReg 0#64 + (irq / 32#32).setWidth 64 * 4#64

def plicInit : List Access := [store (plicThresholdReg 0#64) 4]

def plicEnable (irq : BitVec 32) : List Access :=
  [store (plicPriorityReg irq) 4, load (plicEnableWord irq) 4, store (plicEnableWord irq) 4]

def plicDisable (irq : BitVec 32) : List Access :=
  [load (plicEnableWord irq) 4, store (plicEnableWord irq) 4]

def plicClaim : List Access := [load (plicClaimReg 0#64) 4]

def plicComplete : List Access := [store (plicClaimReg 0#64) 4]

def rtcBase : Word := 0x101000#64

def rtcGetTime : List Access := [load rtcBase 4]

/-- `QEMU_VIRT_TEST` -/
def qemuVirtTest : Word := 0x100000#64

section Translation

/-- The root table that the `PPN` field of `satp` points to. -/
def satpRoot (satp : Word) : Word := (satp &&& 0xFFFFFFFFFFF#64) <<< 12

/-- Every byte of the access is translated to itself and may be read and written. -/
def Mapped (mm : Mm) (satp : Word) (a : Access) : Prop :=
  ∀ i < a.bytes,
    let va := a.addr + BitVec.ofNat 64 i
    let pte := leafPte mm (satpRoot satp) va
    pteValid pte = true ∧ pte &&& (pteR ||| pteW) = pteR ||| pteW ∧ va2pa mm (satpRoot satp) va = va

theorem satpRoot_kvminithart {lo : Nat} {pt : Word} (h : IsPage lo pt) : satpRoot (kvminithart pt) = pt := by
  obtain ⟨_, hlt, hal⟩ := h
  have hshift : (pt >>> 12).toNat = pt.toNat / 4096 := by
    rw [BitVec.toNat_ushiftRight, Nat.shiftRight_eq_div_pow]
  have hlow : (kvminithart pt &&& 0xFFFFFFFFFFF#64).toNat = pt.toNat / 4096 := by
    have hmode : satpSv39 &&& 0xFFFFFFFFFFF#64 = 0#64 := by decide
    have hmask : (pt >>> 12 &&& 0xFFFFFFFFFFF#64).toNat = (pt >>> 12).toNat % 2^44 :=
      Nat.and_two_pow_sub_one_eq_mod _ 44
    rw [kvminithart, BitVec.and_comm, BitVec.and_or_distrib_left, BitVec.and_comm, hmode, BitVec.zero_or,
      BitVec.and_comm, hmask, hshift]
    rw [memEnd_toNat] at hlt
    omega
  apply BitVec.eq_of_toNat_eq
  rw [satpRoot, BitVec.toNat_shiftLeft, hlow, Nat.shiftLeft_eq]
  simp only [Aligned, memEnd_toNat] at *
  omega

/-- An access has its bytes inside one of the ranges of `kvminit`. -/
def Access.InMap (a : Access) : Prop :=
  ∀ i < a.bytes, RamAddr (a.addr + BitVec.ofNat 64 i) ∨ DeviceAddr (a.addr + BitVec.ofNat 64 i)

theorem identityMap_mapped_iff {mm : Mm} {pt : Word} (h : IdentityMap mm pt)
    (hroot : satpRoot (kvminithart pt) = pt) (a : Access) : Mapped mm (kvminithart pt) a ↔ a.InMap := by
  have hflags (pte : Word) (f : Word) (hf : pteFlags pte = f) :
      pte &&& (pteR ||| pteW) = f &&& (pteR ||| pteW) := by
    have hmask : 0x3FF#64 &&& (pteR ||| pteW) = pteR ||| pteW := by decide
    rw [← hf, pteFlags, BitVec.and_assoc, hmask]
  rw [Mapped, hroot]
  constructor
  · intro hm i hi
    exact (h.valid _).mp (hm i hi).1
  · intro hin i hi
    refine ⟨(h.valid _).mpr (hin i hi), ?_, h.same _ (hin i hi)⟩
    rcases hin i hi with hram | hdev
    · rw [hflags _ _ (h.ram _ hram)]
      decide
    · rw [hflags _ _ (h.device _ hdev)]
      decide

end Translation

section Drivers

theorem inMap_of_device {a : Access} (hpos : DeviceAddr a.addr)
    (hlast : a.addr.toNat % 4096 + a.bytes ≤ 4096) : a.InMap := by
  intro i hi
  have hlt := a.addr.isLt
  right
  simp only [DeviceAddr, BitVec.toNat_add, BitVec.toNat_ofNat] at *
  omega

theorem not_inMap {a : Access} (hpos : 0 < a.bytes) (hlow : a.addr.toNat < 0x02000000) : ¬ a.InMap := by
  intro h
  have h0 := h 0 hpos
  simp only [BitVec.add_zero, RamAddr, DeviceAddr] at h0
  omega

theorem uart_inMap : ∀ a ∈ uartPutc ++ uartGetc, a.InMap := by
  have hnum : ∀ a ∈ uartPutc ++ uartGetc,
      a.addr.toNat / 4096 = 0x10000 ∧ a.addr.toNat % 4096 + a.bytes ≤ 4096 := by decide
  intro a ha
  obtain ⟨hpage, hlast⟩ := hnum a ha
  refine inMap_of_device ?_ hlast
  simp only [DeviceAddr]
  omega

theorem plicPriorityReg_toNat {irq : BitVec 32} (h : irq.toNat < 1024) :
    (plicPriorityReg irq).toNat = 0x0C000000 + irq.toNat * 4 := by
  simp only [plicPriorityReg, plicBase, BitVec.toNat_add, BitVec.toNat_setWidth, BitVec.toNat_mul,
    BitVec.toNat_ofNat]
  omega

theorem plicEnableWord_toNat {irq : BitVec 32} (h : irq.toNat < 1024) :
    (plicEnableWord irq).toNat = 0x0C002000 + irq.toNat / 32 * 4 := by
  have hreg : (plicEnableReg 0#64).toNat = 0x0C002000 := by decide
  simp only [plicEnableWord, BitVec.toNat_add, hreg, BitVec.toNat_mul, BitVec.toNat_setWidth,
    BitVec.toNat_udiv, BitVec.toNat_ofNat, Nat.reducePow, Nat.reduceMod]
  omega

theorem plic_inMap {irq : BitVec 32} (h : irq.toNat < 1024) :
    ∀ a ∈ plicInit ++ plicEnable irq ++ plicDisable irq ++ plicClaim ++ plicComplete, a.InMap := by
  have hprio := plicPriorityReg_toNat h
  have henable := plicEnableWord_toNat h
  have hthreshold : (plicThresholdReg 0#64).toNat = 0x0C200000 := by decide
  have hclaim : (plicClaimReg 0#64).toNat = 0x0C200004 := by decide
  intro a ha
  have hreg : a.bytes = 4 ∧ (a.addr = plicThresholdReg 0#64 ∨ a.addr = plicPriorityReg irq ∨
      a.addr = plicEnableWord irq ∨ a.addr = plicClaimReg 0#64) := by
    simp only [plicInit, plicEnable, plicDisable, plicClaim, plicComplete, load, store, List.mem_append,
      List.mem_cons, List.not_mem_nil, or_false] at ha
    rcases ha with (((rfl | rfl | rfl | rfl) | rfl | rfl) | rfl) | rfl <;> simp
  obtain ⟨hbytes, hreg⟩ := hreg
  refine inMap_of_device ?_ ?_
  · rcases hreg with he | he | he | he <;> simp only [DeviceAddr, he] <;> omega
  · rcases hreg with he | he | he | he <;> rw [he, hbytes] <;> omega

end Drivers

end RiscvOs.Devices
