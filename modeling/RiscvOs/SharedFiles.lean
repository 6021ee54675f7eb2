import Mathlib.Logic.Function.Basic
import Mathlib.Order.MinMax
set_option autoImplicit false

/-!
A string that any number of handles share, each with a cursor of its own. The string has at
most `cap` elements and is written and read at the cursors.
-/

namespace RiscvOs.SharedFiles

structure SharedFile (β η : Type) where
  data : List β
  cursor : η → Option Nat

variable {β η : Type}

/-- Handle `h` is at `o`, whether it was open before or not. -/
def SharedFile.moveTo [DecidableEq η] (f : SharedFile β η) (h : η) (o : Nat) : SharedFile β η :=
  { f with cursor := Function.update f.cursor h (some o) }

/-- At most `n` elements from `o` on. -/
def SharedFile.slice (f : SharedFile β η) (o n : Nat) : List β := (f.data.drop o).take n

/-- `xs` over what stands from `o` on. -/
def SharedFile.put (f : SharedFile β η) (o : Nat) (xs : List β) : SharedFile β η :=
  { f with data := f.data.take o ++ xs ++ f.data.drop (o + xs.length) }

def SharedFile.read [DecidableEq η] (f : SharedFile β η) (h : η) (o n : Nat) : List β × SharedFile β η :=
  (f.slice o n, f.moveTo h (o + (f.slice o n).length))

/-- As much of `xs` as there is room for. -/
def SharedFile.write [DecidableEq η] (cap : Nat) (f : SharedFile β η) (h : η) (o : Nat) (xs : List β) :
    Nat × SharedFile β η :=
  let ys := xs.take (cap - o)
  (ys.length, (f.put o ys).moveTo h (o + ys.length))

section Lemmas

variable {f : SharedFile β η} {o : Nat} {xs : List β}

theorem put_length (h : o ≤ f.data.length) : (f.put o xs).data.length = max f.data.length (o + xs.length) := by
  simp only [SharedFile.put, List.length_append, List.length_take, List.length_drop]
  omega

theorem put_getElem? (h : o ≤ f.data.length) (i : Nat) : (f.put o xs).data[i]? =
    if o ≤ i ∧ i < o + xs.length then xs[i - o]? else f.data[i]? := by
  have hlen : (f.data.take o).length = o := by
    rw [List.length_take]
    omega
  simp only [SharedFile.put, List.append_assoc]
  by_cases hlow : i < o
  · rw [List.getElem?_append_left (by omega), List.getElem?_take_of_lt hlow, if_neg (by omega)]
  · rw [List.getElem?_append_right (by omega), hlen]
    by_cases hin : i - o < xs.length
    · rw [List.getElem?_append_left hin, if_pos (by omega)]
    · rw [List.getElem?_append_right (by omega), List.getElem?_drop, if_neg (by omega)]
      congr 1
      omega

/-- What was written is read back, also when there was no room for all of it. -/
theorem slice_put (cap : Nat) (xs : List β) (ho : o ≤ f.data.length) (hcap : f.data.length ≤ cap) :
    (f.put o (xs.take (cap - o))).slice o xs.length = xs.take (cap - o) := by
  have hlen : (f.data.take o).length = o := by
    rw [List.length_take]
    omega
  rw [SharedFile.slice, SharedFile.put, List.append_assoc, List.drop_append_of_le_length (by omega),
    List.drop_of_length_le (by omega), List.nil_append]
  by_cases hroom : xs.length ≤ cap - o
  · rw [List.take_of_length_le hroom, List.take_append_of_le_length (le_refl _), List.take_length]
  · have hys : (xs.take (cap - o)).length = cap - o := by
      rw [List.length_take]
      omega
    have hrest : f.data.drop (o + (xs.take (cap - o)).length) = [] := List.drop_of_length_le (by omega)
    rw [hrest, List.append_nil, List.take_take, min_eq_right (by omega)]

end Lemmas

end RiscvOs.SharedFiles
