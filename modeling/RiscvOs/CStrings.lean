import Mathlib.Logic.Function.Basic
set_option autoImplicit false

/-!
NUL-terminated strings in byte arrays. An array is a function from indices to bytes;
what stands behind the terminator does not matter.
-/

namespace RiscvOs.CStrings

abbrev Byte := BitVec 8

def byte (c : Char) : Byte := BitVec.ofNat 8 c.toNat

/-- The array holds the text and the terminator after it. -/
def Spells : (Nat → Byte) → List Byte → Prop
  | a, [] => a 0 = 0#8
  | a, c :: cs => a 0 = c ∧ c ≠ 0#8 ∧ Spells (fun i => a (i+1)) cs

/-- `a[0] == c0 && a[1] == c1 && ...` -/
def startsWith : (Nat → Byte) → List Byte → Bool
  | _, [] => true
  | a, c :: cs => a 0 == c && startsWith (fun i => a (i+1)) cs

theorem Spells.of_get {a : Nat → Byte} {text : List Byte} (h0 : 0#8 ∉ text)
    (h : ∀ i, (hi : i < text.length) → a i = text[i]) (hend : a text.length = 0#8) : Spells a text := by
  induction text generalizing a with
  | nil => exact hend
  | cons c cs ih =>
    simp only [List.mem_cons, not_or] at h0
    refine ⟨h 0 (by simp), Ne.symm h0.1, ih h0.2 ?_ hend⟩
    intro i hi
    exact h (i+1) (by simpa using hi)

theorem shift_succ (a : Nat → Byte) (i : Nat) : (fun j => a (i + (j + 1))) = fun j => a (i + 1 + j) := by
  funext j
  congr 1
  omega

/-- The rest of a string that starts at `pos`. -/
theorem Spells.next {a : Nat → Byte} {pos : Nat} {c : Byte} {cs : List Byte}
    (h : Spells (fun j => a (pos + j)) (c :: cs)) :
    a pos = c ∧ c ≠ 0#8 ∧ Spells (fun j => a (pos + 1 + j)) cs := by
  refine ⟨h.1, h.2.1, ?_⟩
  rw [← shift_succ]
  exact h.2.2

theorem Spells.drop {a : Nat → Byte} {pos : Nat} {text : List Byte} (h : Spells (fun j => a (pos + j)) text)
    {n : Nat} (hn : n ≤ text.length) : Spells (fun j => a (pos + n + j)) (text.drop n) := by
  induction n generalizing pos text with
  | zero => exact h
  | succ n ih =>
    cases text with
    | nil => simp at hn
    | cons c cs =>
      rw [List.drop_succ_cons, Nat.add_comm n 1, ← Nat.add_assoc]
      exact ih h.next.2.2 (by simpa using hn)

/-- The text as an array, with terminators behind it. -/
def cstring (text : List Byte) (i : Nat) : Byte := text.getD i 0#8

theorem cstring_spells {text : List Byte} (h0 : 0#8 ∉ text) : Spells (cstring text) text := by
  refine Spells.of_get h0 ?_ ?_
  · intro i hi
    rw [cstring, List.getD_eq_getElem?_getD, List.getElem?_eq_getElem hi, Option.getD_some]
  · rw [cstring, List.getD_eq_getElem?_getD, List.getElem?_eq_none (Nat.le_refl _), Option.getD_none]

/-- A comparison that ends with the terminator holds exactly for the text itself. -/
theorem Spells.startsWith_iff {a : Nat → Byte} {text kw : List Byte} (h : Spells a text)
    (hkw : 0#8 ∉ kw) : startsWith a (kw ++ [0#8]) = true ↔ text = kw := by
  induction kw generalizing a text with
  | nil =>
    cases text with
    | nil => simpa [startsWith, Spells] using h
    | cons c cs =>
      have hc : a 0 ≠ 0#8 := by
        rw [h.1]
        exact h.2.1
      simp [startsWith, hc]
  | cons k kw ih =>
    simp only [List.mem_cons, not_or] at hkw
    cases text with
    | nil =>
      have hk : a 0 ≠ k := by
        rw [h]
        exact hkw.1
      simp [startsWith, hk]
    | cons c cs => simp [startsWith, h.1, ih h.2.2 hkw.2]

/-- The text in the first `n` bytes, up to the first terminator. -/
def text : Nat → (Nat → Byte) → List Byte
  | 0, _ => []
  | n+1, a => if a 0 = 0#8 then [] else a 0 :: text n fun i => a (i+1)

theorem Spells.text_eq {a : Nat → Byte} {cs : List Byte} (h : Spells a cs) {n : Nat}
    (hn : cs.length < n) : text n a = cs := by
  induction cs generalizing a n with
  | nil =>
    cases n with
    | zero => simp at hn
    | succ n => exact if_pos h
  | cons c cs ih =>
    cases n with
    | zero => simp at hn
    | succ n =>
      have hc : a 0 ≠ 0#8 := by
        rw [h.1]
        exact h.2.1
      rw [text, if_neg hc, h.1, ih h.2.2 (by simpa using hn)]

/-- The comparison of two arrays byte by byte, up to a terminator in both or `n` bytes. -/
def sameName : Nat → (Nat → Byte) → (Nat → Byte) → Bool
  | 0, _, _ => true
  | n+1, a, b =>
    if a 0 ≠ b 0 then false
    else if b 0 = 0#8 then true
    else sameName n (fun i => a (i+1)) fun i => b (i+1)

theorem Spells.sameName_iff {a b : Nat → Byte} {s t : List Byte} (ha : Spells a s) (hb : Spells b t)
    {n : Nat} (hn : s.length < n) : sameName n a b = true ↔ s = t := by
  induction s generalizing a b t n with
  | nil =>
    obtain ⟨n, rfl⟩ : ∃ m, n = m + 1 := ⟨n - 1, by simp at hn; omega⟩
    have ha : a 0 = 0#8 := ha
    cases t with
    | nil =>
      have hb : b 0 = 0#8 := hb
      simp [sameName, ha, hb]
    | cons d ds =>
      have hd : 0#8 ≠ b 0 := by
        rw [hb.1]
        exact hb.2.1.symm
      simp [sameName, ha, hd]
  | cons c cs ih =>
    obtain ⟨n, rfl⟩ : ∃ m, n = m + 1 := ⟨n - 1, by simp at hn; omega⟩
    cases t with
    | nil =>
      have hb : b 0 = 0#8 := hb
      simp [sameName, ha.1, hb, ha.2.1]
    | cons d ds =>
      have hrec := ih ha.2.2 hb.2.2 (n := n) (by simpa using hn)
      by_cases hcd : c = d
      · simp [sameName, ha.1, hb.1, hcd, hb.2.1, hrec]
      · simp [sameName, ha.1, hb.1, hcd]

/-- The copy of `src` into `dst` from index `j` on, at most `n` bytes and a terminator. -/
def copyName (src : Nat → Byte) : Nat → Nat → (Nat → Byte) → Nat → Byte
  | 0, j, dst => Function.update dst j 0#8
  | n+1, j, dst =>
    if src j = 0#8 then Function.update dst j 0#8
    else copyName src n (j+1) (Function.update dst j (src j))

/-- Bytes before the copy are not touched. -/
theorem copyName_before {src dst : Nat → Byte} {n j i : Nat} (hi : i < j) :
    copyName src n j dst i = dst i := by
  induction n generalizing j dst with
  | zero => exact Function.update_of_ne (by omega) ..
  | succ n ih =>
    rw [copyName]
    split
    · exact Function.update_of_ne (by omega) ..
    · rw [ih (by omega), Function.update_of_ne (by omega)]

/-- The copy holds the text, cut off after `n` bytes. -/
theorem copyName_spells (src dst : Nat → Byte) {cs : List Byte} {j : Nat} (n : Nat)
    (h : Spells (fun i => src (j + i)) cs) :
    Spells (fun i => copyName src n j dst (j + i)) (cs.take n) := by
  induction n generalizing cs j dst with
  | zero => exact Function.update_self ..
  | succ n ih =>
    cases cs with
    | nil =>
      have hz : src j = 0#8 := h
      show copyName src (n+1) j dst j = 0#8
      rw [copyName, if_pos hz, Function.update_self]
    | cons c cs =>
      have hc : src j = c := h.1
      have hne : src j ≠ 0#8 := hc ▸ h.2.1
      have hrec := ih (Function.update dst j (src j)) h.next.2.2
      simp only [copyName, if_neg hne]
      refine ⟨?_, h.2.1, ?_⟩
      · show copyName src n (j+1) (Function.update dst j (src j)) j = c
        rw [copyName_before (by omega), Function.update_self, hc]
      · exact shift_succ (copyName src n (j+1) (Function.update dst j (src j))) j ▸ hrec

end RiscvOs.CStrings
