import RiscvOs.CStrings
import RiscvOs.WordMemory
set_option autoImplicit false

/-!
Memory of bytes with 64-bit addresses, which wrap: stores of one byte value over a stretch,
little-endian loads, and computations that keep the addresses they have read.
-/

namespace RiscvOs.ByteMemory
open CStrings WordMemory

abbrev Bytes := Word → Byte

/-- Byte `i` from `a` on. -/
def offset (a : Word) (i : Nat) : Word := a + BitVec.ofNat 64 i

/-- Store `v` to `n` bytes from `a` on. -/
def fill (a : Word) (n : Nat) (v : Byte) (m : Bytes) : Bytes := storeLoop (offset a) (fun _ => v) n m

theorem offset_toNat {a : Word} {i : Nat} (h : a.toNat + i < 2^64) : (offset a i).toNat = a.toNat + i := by
  rw [offset, BitVec.toNat_add, BitVec.toNat_ofNat]
  omega

theorem fill_inside {a x : Word} {n : Nat} {v : Byte} {m : Bytes} (h : a.toNat + n ≤ 2^64)
    (hlow : a.toNat ≤ x.toNat) (hhigh : x.toNat < a.toNat + n) : fill a n v m x = v := by
  have hx : x = offset a (x.toNat - a.toNat) := by
    apply BitVec.eq_of_toNat_eq
    rw [offset_toNat (by omega)]
    omega
  rw [hx]
  apply storeLoop_at (g := fun _ => v) (by omega)
  intro i hi he
  have hn := congrArg BitVec.toNat he
  rw [offset_toNat (by omega), offset_toNat (by omega)] at hn
  omega

theorem fill_outside {a x : Word} {n : Nat} {v : Byte} {m : Bytes} (h : a.toNat + n ≤ 2^64)
    (hx : x.toNat < a.toNat ∨ a.toNat + n ≤ x.toNat) : fill a n v m x = m x := by
  apply storeLoop_of_ne
  rintro i hi rfl
  rw [offset_toNat (by omega)] at hx
  omega

/-- The addresses of `n` bytes from `a` on. -/
def span (a : Word) (n : Nat) : List Word := (List.range n).map (offset a)

/-- The little-endian number in the `n` bytes from `a` on. -/
def leValue (m : Bytes) (a : Word) : Nat → Nat
  | 0 => 0
  | n + 1 => (m a).toNat + 256 * leValue m (a + 1#64) n

/-- The field of `w` bits at `a`. -/
def field (w : Nat) (m : Bytes) (a : Word) : BitVec w := BitVec.ofNat w (leValue m a (w / 8))

/-- A computation on a memory, with the addresses that it reads, in their order. -/
def Reads (α : Type) : Type := Bytes → α × List Word

namespace Reads

variable {α β : Type}

def value (x : Reads α) (m : Bytes) : α := (x m).1

def reads (x : Reads α) (m : Bytes) : List Word := (x m).2

instance : Monad Reads where
  pure a := fun _ => (a, [])
  bind x f := fun m => ((f (x.value m)).value m, x.reads m ++ (f (x.value m)).reads m)

def load (w : Nat) (a : Word) : Reads (BitVec w) := fun m => (field w m a, span a (w / 8))

-- Not by `rfl` alone, so that a `simp` with them is checked step by step.
@[simp] theorem value_pure (a : α) (m : Bytes) : (pure a : Reads α).value m = a := by
  rw [value]
  rfl

@[simp] theorem reads_pure (a : α) (m : Bytes) : (pure a : Reads α).reads m = [] := by
  rw [reads]
  rfl

@[simp] theorem value_bind (x : Reads α) (f : α → Reads β) (m : Bytes) :
    (x >>= f).value m = (f (x.value m)).value m := by
  rw [value]
  rfl

@[simp] theorem reads_bind (x : Reads α) (f : α → Reads β) (m : Bytes) :
    (x >>= f).reads m = x.reads m ++ (f (x.value m)).reads m := by
  rw [reads]
  rfl

@[simp] theorem value_load (w : Nat) (a : Word) (m : Bytes) : (load w a).value m = field w m a := by
  rw [value, load]

@[simp] theorem reads_load (w : Nat) (a : Word) (m : Bytes) : (load w a).reads m = span a (w / 8) := by
  rw [reads, load]

@[simp] theorem value_ite (c : Prop) [Decidable c] (x y : Reads α) (m : Bytes) :
    (if c then x else y).value m = if c then x.value m else y.value m := apply_ite (fun z => z.value m) c x y

@[simp] theorem reads_ite (c : Prop) [Decidable c] (x y : Reads α) (m : Bytes) :
    (if c then x else y).reads m = if c then x.reads m else y.reads m := apply_ite (fun z => z.reads m) c x y

section Checks

variable {ε : Type} {m : Bytes} {x y : Reads (Except ε Unit)}

/-- `y` is run only when `x` ends without an error. -/
def andThen (x y : Reads (Except ε Unit)) : Reads (Except ε Unit) := do
  match ← x with
  | .error e => pure (.error e)
  | .ok _ => y

theorem value_andThen : (x.andThen y).value m = .ok () ↔ x.value m = .ok () ∧ y.value m = .ok () := by
  rw [andThen, value_bind]
  cases x.value m with
  | error e => simp
  | ok u => simp

theorem forall_reads_andThen {P : Word → Prop} : (∀ a ∈ (x.andThen y).reads m, P a) ↔
    (∀ a ∈ x.reads m, P a) ∧ (x.value m = .ok () → ∀ a ∈ y.reads m, P a) := by
  rw [andThen, reads_bind, List.forall_mem_append]
  cases x.value m with
  | error e => simp
  | ok u => simp

end Checks

end Reads

/-- The `n` bytes at `a` lie below `size`. -/
def Within (size a : Word) (n : Nat) : Prop := ∀ o ∈ span a n, o.toNat < size.toNat

theorem within_iff {size a : Word} {n : Nat} (h : a.toNat + n ≤ 2^64) (hn : 0 < n) :
    Within size a n ↔ a.toNat + n ≤ size.toNat := by
  simp only [Within, span, List.forall_mem_map, List.mem_range]
  constructor
  · intro hall
    have hlast := hall (n - 1) (by omega)
    rw [offset_toNat (by omega)] at hlast
    omega
  · intro hle i hi
    rw [offset_toNat (by omega)]
    omega

end RiscvOs.ByteMemory
