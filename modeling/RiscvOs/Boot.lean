import RiscvOs.ByteMemory
set_option autoImplicit false

/-!
The loop of `_start` in `bootloader/boot.S` that clears `.bss` before the kernel runs. It goes
up in steps of a double word and ends only when it meets `__bss_end` itself, while the linker
script aligns just `__bss_start`.
-/

namespace RiscvOs.Boot
open CStrings WordMemory ByteMemory

/-- `sd zero, 0(t0)` -/
def storeZero (t0 : Word) (m : Bytes) : Bytes := fill t0 8 0#8 m

/-- `clear_bss` with `__bss_end` in `t1`; `none` when the loop is still running. -/
def clearBss (t1 : Word) : Nat → Word → Bytes → Option Bytes
  | 0, _, _ => none
  | fuel + 1, t0, m => if t0 = t1 then some m else clearBss t1 fuel (t0 + 8#64) (storeZero t0 m)

/-- The loop ends, with the bytes of the section zero and all others as they were. -/
def Clears (bssStart bssEnd : Word) (m : Bytes) : Prop :=
  ∃ fuel m', clearBss bssEnd fuel bssStart m = some m' ∧
    (∀ a, bssStart ≤ a → a < bssEnd → m' a = 0#8) ∧ ∀ a, ¬ (bssStart ≤ a ∧ a < bssEnd) → m' a = m a

/-- Steps of 8 keep the low three bits, also when they wrap. -/
theorem clearBss_low {t0 t1 : Word} {fuel : Nat} {m m' : Bytes} (h : clearBss t1 fuel t0 m = some m') :
    t0.toNat % 8 = t1.toNat % 8 := by
  induction fuel generalizing t0 m with
  | zero => cases h
  | succ fuel ih =>
    rw [clearBss] at h
    split at h
    · rename_i he
      rw [he]
    · have hlow := ih h
      rw [BitVec.toNat_add, BitVec.toNat_ofNat] at hlow
      omega

/-- `n` steps lead from `t0` to `t1`, and each of them clears its double word. -/
theorem clearBss_steps (t0 t1 : Word) {n : Nat} (hn : t0.toNat + 8 * n = t1.toNat) (m : Bytes) :
    ∃ m', clearBss t1 (n + 1) t0 m = some m' ∧ (∀ a, t0 ≤ a → a < t1 → m' a = 0#8) ∧
      ∀ a, ¬ (t0 ≤ a ∧ a < t1) → m' a = m a := by
  have ht1 := t1.isLt
  induction n generalizing t0 m with
  | zero =>
    have he : t0 = t1 := BitVec.eq_of_toNat_eq hn
    refine ⟨m, by rw [clearBss, if_pos he], ?_, fun _ _ => rfl⟩
    intro a hlow hhigh
    rw [BitVec.le_def] at hlow
    rw [BitVec.lt_def] at hhigh
    omega
  | succ n ih =>
    have hne : t0 ≠ t1 := by
      rintro rfl
      omega
    have hnext : (t0 + 8#64).toNat = t0.toNat + 8 := by
      rw [BitVec.toNat_add, BitVec.toNat_ofNat]
      omega
    obtain ⟨m', hrun, hzero, hrest⟩ := ih (t0 + 8#64) (by omega) (storeZero t0 m)
    simp only [BitVec.le_def, BitVec.lt_def, hnext] at hzero hrest ⊢
    refine ⟨m', by rw [clearBss, if_neg hne, hrun], ?_, ?_⟩
    · intro a hlow hhigh
      by_cases hword : a.toNat < t0.toNat + 8
      · rw [hrest a (by omega)]
        exact fill_inside (by omega) hlow hword
      · exact hzero a (by omega) hhigh
    · intro a ha
      rw [hrest a (by omega)]
      exact fill_outside (by omega) (by omega)

/-- Clearing is exact when the section ends on a double word as well; otherwise the loop steps
over `__bss_end` and never ends. -/
theorem clear_bss_exact_iff {bssStart bssEnd : Word} (halign : bssStart.toNat % 8 = 0)
    (hle : bssStart ≤ bssEnd) (m : Bytes) : Clears bssStart bssEnd m ↔ bssEnd.toNat % 8 = 0 := by
  rw [BitVec.le_def] at hle
  constructor
  · rintro ⟨fuel, m', hrun, _⟩
    rw [← clearBss_low hrun, halign]
  · intro hend
    obtain ⟨m', hrun⟩ := clearBss_steps bssStart bssEnd (n := (bssEnd.toNat - bssStart.toNat) / 8)
      (by omega) m
    exact ⟨_, m', hrun⟩

/-- A section of two double words. -/
theorem clear_bss_sixteen : (0x80210000#64).toNat % 8 = 0 ∧ 0x80210000#64 ≤ 0x80210010#64 ∧
    Clears 0x80210000#64 0x80210010#64 fun _ => 7#8 := by
  refine ⟨by decide, by decide, (clear_bss_exact_iff (by decide) (by decide) _).mpr ?_⟩
  decide

/-- A section of four bytes is never cleared: whatever the number of steps, the loop is still running. -/
theorem clear_bss_four : (0x80210000#64).toNat % 8 = 0 ∧ 0x80210000#64 ≤ 0x80210004#64 ∧
    (∀ fuel, clearBss 0x80210004#64 fuel 0x80210000#64 (fun _ => 7#8) = none) ∧
    ¬ Clears 0x80210000#64 0x80210004#64 fun _ => 7#8 := by
  have hnever (fuel : Nat) : clearBss 0x80210004#64 fuel 0x80210000#64 (fun _ => 7#8) = none := by
    cases h : clearBss 0x80210004#64 fuel 0x80210000#64 (fun _ => 7#8) with
    | none => rfl
    | some m' => exact absurd (clearBss_low h) (by decide)
  refine ⟨by decide, by decide, hnever, ?_⟩
  rintro ⟨fuel, m', hrun, _⟩
  rw [hnever] at hrun
  cases hrun

end RiscvOs.Boot
