import Mathlib.Logic.Function.Basic
import Mathlib.Data.List.Nodup
import Mathlib.Algebra.Group.Nat.Defs
set_option autoImplicit false

/-!
Memory of 64-bit words, arrays of words inside aligned 4 KiB pages, counted
store loops, and lists threaded through memory by a link word.
-/

namespace RiscvOs.WordMemory

abbrev Word := BitVec 64
abbrev Mem := Word → Word

/-- Address of entry `i` of the array of words at `p`, `&p[i]` in C. -/
def slot (p : Word) (i : Nat) : Word := p + BitVec.ofNat 64 (8 * i)

def Aligned (p : Word) : Prop := p.toNat % 4096 = 0

instance (p : Word) : Decidable (Aligned p) := inferInstanceAs (Decidable (_ = _))

theorem slot_toNat {p : Word} {i : Nat} (hp : Aligned p) (hi : i < 512) :
    (slot p i).toNat = p.toNat + 8 * i := by
  have hlt := p.isLt
  simp only [Aligned] at hp
  simp only [slot, BitVec.toNat_add, BitVec.toNat_ofNat]
  omega

@[simp] theorem slot_zero (p : Word) : slot p 0 = p := by simp [slot]

/-- Aligned pages do not overlap: a word slot names its page and its index. -/
theorem slot_inj {p q : Word} {i j : Nat} (hp : Aligned p) (hq : Aligned q)
    (hi : i < 512) (hj : j < 512) : slot p i = slot q j ↔ p = q ∧ i = j := by
  constructor
  · intro h
    have hn := congrArg BitVec.toNat h
    rw [slot_toNat hp hi, slot_toNat hq hj] at hn
    simp only [Aligned] at hp hq
    exact ⟨BitVec.eq_of_toNat_eq (by omega), by omega⟩
  · rintro ⟨rfl, rfl⟩
    rfl

theorem ne_slot_of_ne {p q : Word} {i : Nat} (hp : Aligned p) (hq : Aligned q)
    (hi : i < 512) (h : q ≠ p) : q ≠ slot p i := by
  intro hs
  have := (slot_inj hq hp (by omega : 0 < 512) hi).mp (by simpa using hs)
  exact h this.1

section Stores

variable {ι β : Type} [DecidableEq ι]

/-- The loop `for (i = 0; i < n; i++) m[f i] = g i`. -/
def storeLoop (f : Nat → ι) (g : Nat → β) (n : Nat) (m : ι → β) : ι → β :=
  (List.range n).foldl (fun m i => Function.update m (f i) (g i)) m

theorem storeLoop_succ (f : Nat → ι) (g : Nat → β) (n : Nat) (m : ι → β) :
    storeLoop f g (n+1) m = Function.update (storeLoop f g n m) (f n) (g n) := by
  simp [storeLoop, List.range_succ]

theorem storeLoop_of_ne {f : Nat → ι} {g : Nat → β} {n : Nat} {m : ι → β} {x : ι}
    (h : ∀ i < n, x ≠ f i) : storeLoop f g n m x = m x := by
  induction n with
  | zero => simp [storeLoop]
  | succ n ih =>
    rw [storeLoop_succ, Function.update_of_ne (h n (by omega))]
    exact ih (fun i hi => h i (by omega))

/-- Entry `j` holds what iteration `j` stored when no later iteration hits it. -/
theorem storeLoop_at {f : Nat → ι} {g : Nat → β} {n j : Nat} {m : ι → β}
    (hj : j < n) (hf : ∀ i < n, f j = f i → j = i) : storeLoop f g n m (f j) = g j := by
  induction n with
  | zero => omega
  | succ n ih =>
    rw [storeLoop_succ]
    by_cases h : j = n
    · subst h
      simp
    · rw [Function.update_of_ne (fun he => h (hf n (by omega) he))]
      exact ih (by omega) (fun i hi => hf i (by omega))

end Stores

section Chains

variable {ι : Type}

/-- Starting at `a` and following `next`, the nodes are `ps` and then `null`. -/
def Chain (next : ι → ι) (null : ι) : ι → List ι → Prop
  | a, [] => a = null
  | a, p :: ps => a = p ∧ p ≠ null ∧ Chain next null (next p) ps

variable {next next' : ι → ι} {null a : ι} {ps : List ι}

theorem Chain.unique {qs : List ι} (h : Chain next null a ps) (h' : Chain next null a qs) : ps = qs := by
  induction ps generalizing a qs with
  | nil =>
    cases qs with
    | nil => rfl
    | cons q qs => exact absurd (h'.1.symm.trans h) h'.2.1
  | cons p ps ih =>
    cases qs with
    | nil => exact absurd (h.1.symm.trans h') h.2.1
    | cons q qs =>
      obtain rfl : p = q := h.1.symm.trans h'.1
      rw [ih h.2.2 h'.2.2]

/-- A chain only reads the link words of its own nodes. -/
theorem Chain.congr (h : Chain next null a ps) (hn : ∀ p ∈ ps, next' p = next p) :
    Chain next' null a ps := by
  induction ps generalizing a with
  | nil => exact h
  | cons p ps ih =>
    obtain ⟨rfl, hnull, hrest⟩ := h
    refine ⟨rfl, hnull, ?_⟩
    rw [hn a (by simp)]
    exact ih hrest (fun q hq => hn q (by simp [hq]))

/-- Consecutive nodes `f k, f (k+1), ..` linked each to the next form a chain. -/
theorem chain_range {f : Nat → ι} {k n : Nat} (hnull : ∀ i < k + n, f i ≠ null)
    (hlink : ∀ i, k ≤ i → i + 1 < k + n → next (f i) = f (i+1))
    (hlast : next (f (k+n-1)) = null) (hn : 0 < n) :
    Chain next null (f k) ((List.range' k n).map f) := by
  induction n generalizing k with
  | zero => omega
  | succ n ih =>
    refine ⟨rfl, hnull k (by omega), ?_⟩
    rcases Nat.eq_zero_or_pos n with rfl | hpos
    · simpa [Chain] using hlast
    · rw [hlink k (by omega) (by omega)]
      have hk : k + 1 + n - 1 = k + (n + 1) - 1 := by omega
      exact ih (fun i hi => hnull i (by omega)) (fun i h₁ h₂ => hlink i (by omega) (by omega))
        (hk ▸ hlast) hpos

end Chains

end RiscvOs.WordMemory
