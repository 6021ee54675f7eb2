import Mathlib.Data.Set.Insert
set_option autoImplicit false

/-!
A cache in front of a partial function that changes over time: it holds key and value pairs,
and nothing but a flush takes a pair out of it again.
-/

namespace RiscvOs.Caches

variable {κ ν : Type} {f g : κ → Option ν} {c : Set (κ × ν)} {k : κ} {v : ν}

/-- Every pair in the cache is what a lookup finds now. -/
def Coherent (f : κ → Option ν) (c : Set (κ × ν)) : Prop := ∀ k v, (k, v) ∈ c → f k = some v

theorem Coherent.flushed : Coherent f ∅ := by
  intro k v hm
  cases hm

theorem Coherent.fill (h : Coherent f c) (hk : f k = some v) : Coherent f (insert (k, v) c) := by
  intro j w hm
  cases Set.mem_insert_iff.mp hm with
  | inl he =>
    cases he
    exact hk
  | inr hm => exact h j w hm

/-- What has no value now is not in the cache. -/
theorem Coherent.not_mem (h : Coherent f c) (hk : f k = none) : ∀ v, (k, v) ∉ c := by
  intro v hm
  rw [h k v hm] at hk
  cases hk

/-- A write to a key that is not in the cache. -/
theorem Coherent.write (h : Coherent f c) (hk : ∀ v, (k, v) ∉ c) (hg : ∀ j, j ≠ k → g j = f j) : Coherent g c := by
  intro j w hm
  have hj : j ≠ k := by
    intro he
    subst he
    exact hk w hm
  rw [hg j hj]
  exact h j w hm

end RiscvOs.Caches
