import Mathlib.Data.Finset.Card
import Mathlib.Data.Fintype.Card
set_option autoImplicit false

/-!
Finite maps kept in the slots of a fixed table: each slot is empty or holds one key with
its value, and no key is in two slots.
-/

namespace RiscvOs.SlotMaps

variable {k : Nat} {α β : Type}

/-- A finite map; `value` counts for the keys only. -/
structure FinMap (α β : Type) where
  keys : Finset α
  value : α → β

namespace FinMap

def empty (v : α → β) : FinMap α β := ⟨∅, v⟩

variable [DecidableEq α]

def insert (m : FinMap α β) (a : α) (b : β) : FinMap α β :=
  ⟨Insert.insert a m.keys, Function.update m.value a b⟩

def erase (m : FinMap α β) (a : α) : FinMap α β := ⟨m.keys.erase a, m.value⟩

/-- Another value for a key. -/
def set (m : FinMap α β) (a : α) (b : β) : FinMap α β := ⟨m.keys, Function.update m.value a b⟩

end FinMap

/-- The filled slots are the entries of the map, each once. -/
structure Lists (slots : Fin k → Option (α × β)) (m : FinMap α β) : Prop where
  keys : ∀ a, a ∈ m.keys ↔ ∃ i b, slots i = some (a, b)
  value : ∀ i a b, slots i = some (a, b) → m.value a = b
  distinct : ∀ i j a b c, slots i = some (a, b) → slots j = some (a, c) → i = j

section Lists

variable {slots : Fin k → Option (α × β)} {m : FinMap α β} {i : Fin k} {a : α} {b c : β}

theorem update_slot {x : Option (α × β)} {j : Fin k} {y : α × β}
    (h : Function.update slots i x j = some y) : j = i ∧ x = some y ∨ j ≠ i ∧ slots j = some y := by
  by_cases hj : j = i
  · subst hj
    rw [Function.update_self] at h
    exact .inl ⟨rfl, h⟩
  · rw [Function.update_of_ne hj] at h
    exact .inr ⟨hj, h⟩

theorem Lists.empty (v : α → β) : Lists (fun _ : Fin k => none) (FinMap.empty v) := by
  refine ⟨?_, ?_, ?_⟩ <;> simp [FinMap.empty]

/-- Each filled slot is one key. -/
theorem Lists.card_keys (h : Lists slots m) :
    m.keys.card = (Finset.univ.filter fun i => (slots i).isSome).card := by
  symm
  refine Finset.card_bij (fun i hi => ((slots i).get (Finset.mem_filter.mp hi).2).1) ?_ ?_ ?_
  · intro i hi
    exact (h.keys _).mpr ⟨i, _, (Option.some_get _).symm⟩
  · intro i hi j hj he
    obtain ⟨x, hx⟩ := Option.isSome_iff_exists.mp (Finset.mem_filter.mp hi).2
    obtain ⟨y, hy⟩ := Option.isSome_iff_exists.mp (Finset.mem_filter.mp hj).2
    simp only [hx, hy, Option.get_some] at he
    exact h.distinct i j x.1 x.2 y.2 hx (by rw [hy, he])
  · intro x hx
    obtain ⟨i, v, hi⟩ := (h.keys x).mp hx
    refine ⟨i, ?_, ?_⟩
    · simp [hi]
    · simp [hi]

theorem Lists.card_le (h : Lists slots m) : m.keys.card ≤ k := by
  rw [h.card_keys]
  exact (Finset.card_le_univ _).trans_eq (Fintype.card_fin k)

/-- The table is full when the map has as many keys as there are slots. -/
theorem Lists.full_iff (h : Lists slots m) : m.keys.card = k ↔ ∀ i, (slots i).isSome = true := by
  rw [h.card_keys]
  constructor
  · intro hcard i
    have hall := Finset.eq_univ_of_card _ (hcard.trans (Fintype.card_fin k).symm)
    exact (Finset.mem_filter.mp ((Finset.ext_iff.mp hall i).mpr (Finset.mem_univ i))).2
  · intro hall
    rw [Finset.filter_true_of_mem fun i _ => hall i, Finset.card_univ, Fintype.card_fin]

variable [DecidableEq α]

theorem Lists.insert (h : Lists slots m) (hi : slots i = none) (ha : a ∉ m.keys) (b : β) :
    Lists (Function.update slots i (some (a, b))) (m.insert a b) := by
  have hnew (j : Fin k) (c : β) : slots j ≠ some (a, c) := fun hj => ha ((h.keys a).mpr ⟨j, c, hj⟩)
  refine ⟨?_, ?_, ?_⟩
  · intro x
    simp only [FinMap.insert, Finset.mem_insert, h.keys]
    constructor
    · rintro (rfl | ⟨j, c, hj⟩)
      · exact ⟨i, b, Function.update_self ..⟩
      · have hji : j ≠ i := by
          rintro rfl
          rw [hi] at hj
          cases hj
        exact ⟨j, c, (Function.update_of_ne hji ..).trans hj⟩
    · rintro ⟨j, c, hj⟩
      rcases update_slot hj with ⟨_, he⟩ | ⟨_, hj⟩
      · cases he
        exact .inl rfl
      · exact .inr ⟨j, c, hj⟩
  · intro j x c hj
    rcases update_slot hj with ⟨_, he⟩ | ⟨_, hold⟩
    · cases he
      exact Function.update_self ..
    · have hxa : x ≠ a := by
        rintro rfl
        exact hnew j c hold
      exact (Function.update_of_ne hxa ..).trans (h.value j x c hold)
  · intro j j' x c c' hj hj'
    rcases update_slot hj with ⟨hji, he⟩ | ⟨_, hold⟩
    · cases he
      rcases update_slot hj' with ⟨hji', _⟩ | ⟨_, hold'⟩
      · rw [hji, hji']
      · exact absurd hold' (hnew j' c')
    · rcases update_slot hj' with ⟨_, he⟩ | ⟨_, hold'⟩
      · cases he
        exact absurd hold (hnew j c)
      · exact h.distinct j j' x c c' hold hold'

theorem Lists.erase (h : Lists slots m) (hi : slots i = some (a, b)) :
    Lists (Function.update slots i none) (m.erase a) := by
  have hrest {j : Fin k} {y : α × β} (hj : Function.update slots i none j = some y) :
      j ≠ i ∧ slots j = some y := by
    rcases update_slot hj with ⟨_, he⟩ | hj
    · cases he
    · exact hj
  refine ⟨?_, ?_, ?_⟩
  · intro x
    simp only [FinMap.erase, Finset.mem_erase, h.keys]
    constructor
    · rintro ⟨hne, j, c, hj⟩
      have hji : j ≠ i := by
        rintro rfl
        rw [hi] at hj
        cases hj
        exact hne rfl
      exact ⟨j, c, (Function.update_of_ne hji ..).trans hj⟩
    · rintro ⟨j, c, hj⟩
      obtain ⟨hji, hj⟩ := hrest hj
      refine ⟨?_, j, c, hj⟩
      rintro rfl
      exact hji (h.distinct j i x c b hj hi)
  · intro j x c hj
    exact h.value j x c (hrest hj).2
  · intro j j' x c c' hj hj'
    exact h.distinct j j' x c c' (hrest hj).2 (hrest hj').2

theorem Lists.set (h : Lists slots m) (hi : slots i = some (a, b)) (c : β) :
    Lists (Function.update slots i (some (a, c))) (m.set a c) := by
  -- The keys of the slots are those they had.
  have hold {j : Fin k} {x : α} {v : β} (hj : Function.update slots i (some (a, c)) j = some (x, v)) :
      ∃ w, slots j = some (x, w) ∧ (j = i ∧ x = a ∧ v = c ∨ j ≠ i ∧ w = v) := by
    rcases update_slot hj with ⟨rfl, he⟩ | ⟨hji, hj⟩
    · cases he
      exact ⟨b, hi, .inl ⟨rfl, rfl, rfl⟩⟩
    · exact ⟨v, hj, .inr ⟨hji, rfl⟩⟩
  refine ⟨?_, ?_, ?_⟩
  · intro x
    simp only [FinMap.set, h.keys]
    constructor
    · rintro ⟨j, v, hj⟩
      by_cases hji : j = i
      · subst hji
        rw [hi] at hj
        cases hj
        exact ⟨j, c, Function.update_self ..⟩
      · exact ⟨j, v, (Function.update_of_ne hji ..).trans hj⟩
    · rintro ⟨j, v, hj⟩
      obtain ⟨w, hw, _⟩ := hold hj
      exact ⟨j, w, hw⟩
  · intro j x v hj
    obtain ⟨w, hw, ⟨rfl, rfl, rfl⟩ | ⟨hji, rfl⟩⟩ := hold hj
    · exact Function.update_self ..
    · have hxa : x ≠ a := by
        rintro rfl
        exact hji (h.distinct j i x w b hw hi)
      exact (Function.update_of_ne hxa ..).trans (h.value j x w hw)
  · intro j j' x v v' hj hj'
    obtain ⟨w, hw, _⟩ := hold hj
    obtain ⟨w', hw', _⟩ := hold hj'
    exact h.distinct j j' x w w' hw hw'

end Lists

end RiscvOs.SlotMaps
