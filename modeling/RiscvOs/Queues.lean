import Mathlib.Data.List.DropRight
import Mathlib.Logic.Function.Basic
import Mathlib.Order.Lattice
set_option autoImplicit false

/-!
Queues kept in arrays: a ring with a head, a tail and a size, and an array whose
first cells are the queue, with insertion by shifting up and removal by shifting
down. Each operation is given by what it does to the list of the queued elements.
-/

namespace RiscvOs.Queues

variable {α : Type}

/-- The first `n` cells of an array. -/
def listing (q : Nat → α) (n : Nat) : List α := (List.range n).map q

@[simp] theorem listing_zero (q : Nat → α) : listing q 0 = [] := rfl

theorem listing_succ (q : Nat → α) (n : Nat) : listing q (n+1) = listing q n ++ [q n] := by
  simp [listing, List.range_succ]

theorem listing_succ_cons (q : Nat → α) (n : Nat) :
    listing q (n+1) = q 0 :: listing (fun k => q (k+1)) n := by
  simp [listing, List.range_succ_eq_map, Function.comp_def]

@[simp] theorem listing_length (q : Nat → α) (n : Nat) : (listing q n).length = n := by
  simp [listing]

theorem listing_congr {q q' : Nat → α} {n : Nat} (h : ∀ k < n, q k = q' k) :
    listing q n = listing q' n := by
  apply List.map_congr_left
  intro k hk
  exact h k (List.mem_range.mp hk)

theorem listing_pairwise {q : Nat → α} {n : Nat} {R : α → α → Prop} :
    (listing q n).Pairwise R ↔ ∀ i j, i < j → j < n → R (q i) (q j) := by
  rw [List.pairwise_iff_getElem]
  simp only [listing, List.getElem_map, List.getElem_range, List.length_map, List.length_range]
  constructor
  · intro h i j hij hj
    exact h i j (by omega) hj hij
  · intro h i j _ hj hij
    exact h i j hij hj

section Rings

structure RingBuffer (α : Type) where
  queue : Nat → α
  head : Nat
  tail : Nat
  size : Nat

def RingBuffer.push (cap : Nat) (r : RingBuffer α) (a : α) : RingBuffer α :=
  { r with
    queue := Function.update r.queue r.tail a
    tail := (r.tail + 1) % cap
    size := r.size + 1 }

def RingBuffer.pop (cap : Nat) (r : RingBuffer α) : α × RingBuffer α :=
  (r.queue r.head, { r with head := (r.head + 1) % cap, size := r.size - 1 })

/-- The queued elements, the oldest first. -/
def RingBuffer.contents (cap : Nat) (r : RingBuffer α) : List α :=
  listing (fun k => r.queue ((r.head + k) % cap)) r.size

structure RingBuffer.Valid (cap : Nat) (r : RingBuffer α) : Prop where
  head_lt : r.head < cap
  size_le : r.size ≤ cap
  tail_eq : r.tail = (r.head + r.size) % cap

variable {cap : Nat} {r : RingBuffer α}

@[simp] theorem RingBuffer.contents_length : (r.contents cap).length = r.size :=
  listing_length _ _

theorem mod_ne_mod {h k n c : Nat} (hk : k < n) (hn : n < c) : (h + k) % c ≠ (h + n) % c := by
  intro he
  have hz := Nat.sub_mod_eq_zero_of_mod_eq he.symm
  have hd : h + n - (h + k) = n - k := by omega
  rw [hd, Nat.mod_eq_of_lt (by omega)] at hz
  omega

theorem RingBuffer.Valid.push (h : r.Valid cap) (hs : r.size < cap) (a : α) : (r.push cap a).Valid cap := by
  refine ⟨h.head_lt, hs, ?_⟩
  simp only [RingBuffer.push]
  rw [h.tail_eq, Nat.mod_add_mod, Nat.add_assoc]

theorem RingBuffer.Valid.push_contents (h : r.Valid cap) (hs : r.size < cap) (a : α) :
    (r.push cap a).contents cap = r.contents cap ++ [a] := by
  simp only [RingBuffer.contents, RingBuffer.push, listing_succ, ← h.tail_eq, Function.update_self]
  congr 1
  apply listing_congr
  intro k hk
  rw [Function.update_of_ne]
  rw [h.tail_eq]
  exact mod_ne_mod hk hs

theorem RingBuffer.Valid.pop (h : r.Valid cap) (hs : r.size ≠ 0) : (r.pop cap).2.Valid cap := by
  have hlt := h.head_lt
  have hle := h.size_le
  refine ⟨Nat.mod_lt _ (by omega), ?_, ?_⟩
  · simp only [RingBuffer.pop]
    omega
  · simp only [RingBuffer.pop]
    rw [h.tail_eq, Nat.mod_add_mod]
    congr 1
    omega

theorem RingBuffer.Valid.pop_contents (h : r.Valid cap) (hs : r.size ≠ 0) :
    r.contents cap = (r.pop cap).1 :: (r.pop cap).2.contents cap := by
  obtain ⟨n, hn⟩ := Nat.exists_eq_succ_of_ne_zero hs
  simp only [RingBuffer.contents, RingBuffer.pop, hn, listing_succ_cons, Nat.add_zero,
    Nat.mod_eq_of_lt h.head_lt, Nat.succ_sub_one]
  congr 1
  apply listing_congr
  intro k _
  rw [Nat.mod_add_mod, Nat.add_assoc, Nat.add_comm 1 k]

end Rings

section Arrays

/-- Scan from the end for a cell that passes `stop`, moving the others up by one. -/
def shiftUp (stop : α → Bool) : Nat → (Nat → α) → Nat × (Nat → α)
  | 0, q => (0, q)
  | i+1, q => if stop (q i) then (i+1, q) else shiftUp stop i (Function.update q (i+1) (q i))

/-- Move the `n` cells after cell `i` down by one. -/
def shiftDown : Nat → Nat → (Nat → α) → Nat → α
  | 0, _, q => q
  | n+1, i, q => shiftDown n (i+1) (Function.update q i (q (i+1)))

/-- `x` behind the last element that passes `stop`. -/
def insertAfter (stop : α → Bool) (x : α) (l : List α) : List α :=
  l.rdropWhile (fun a => !stop a) ++ x :: l.rtakeWhile (fun a => !stop a)

theorem shiftUp_le (stop : α → Bool) (n : Nat) (q : Nat → α) : (shiftUp stop n q).1 ≤ n := by
  induction n generalizing q with
  | zero => simp [shiftUp]
  | succ n ih =>
    unfold shiftUp
    split
    · simp
    · exact Nat.le_succ_of_le (ih _)

theorem shiftUp_of_lt (stop : α → Bool) {n k : Nat} (q : Nat → α) (hk : n < k) :
    (shiftUp stop n q).2 k = q k := by
  induction n generalizing q with
  | zero => simp [shiftUp]
  | succ n ih =>
    unfold shiftUp
    split
    · rfl
    · rw [ih _ (by omega), Function.update_of_ne (by omega)]

theorem listing_shiftUp (stop : α → Bool) (n : Nat) (q : Nat → α) (x : α) :
    listing (Function.update (shiftUp stop n q).2 (shiftUp stop n q).1 x) (n+1) =
      insertAfter stop x (listing q n) := by
  induction n generalizing q with
  | zero => simp [shiftUp, listing_succ, insertAfter]
  | succ n ih =>
    unfold shiftUp insertAfter
    rw [listing_succ q n]
    by_cases hs : stop (q n)
    · rw [if_pos hs, List.rdropWhile_concat_neg _ _ _ (by simp [hs]),
        List.rtakeWhile_concat_neg _ _ _ (by simp [hs]), listing_succ _ (n+1),
        Function.update_self, ← listing_succ]
      congr 1
      apply listing_congr
      intro k hk
      exact Function.update_of_ne (by omega) _ _
    · rw [if_neg hs, List.rdropWhile_concat_pos _ _ _ (by simp [hs]),
        List.rtakeWhile_concat_pos _ _ _ (by simp [hs]), listing_succ _ (n+1), ih]
      have hle := shiftUp_le stop n (Function.update q (n+1) (q n))
      have hsame : listing (Function.update q (n+1) (q n)) n = listing q n := by
        apply listing_congr
        intro k hk
        exact Function.update_of_ne (by omega) _ _
      rw [Function.update_of_ne (by omega), shiftUp_of_lt _ _ (Nat.lt_succ_self n),
        Function.update_self, hsame, insertAfter]
      simp

theorem shiftDown_apply (n i k : Nat) (q : Nat → α) :
    shiftDown n i q k = if i ≤ k ∧ k < i + n then q (k+1) else q k := by
  induction n generalizing i q with
  | zero => simp [shiftDown, show ¬ (i ≤ k ∧ k < i) by omega]
  | succ n ih =>
    unfold shiftDown
    rw [ih]
    by_cases hk : k = i
    · subst hk
      simp
    · by_cases hr : i ≤ k ∧ k < i + (n+1)
      · rw [if_pos hr, if_pos (by omega), Function.update_of_ne (by omega)]
      · rw [if_neg hr, if_neg (by omega), Function.update_of_ne hk]

theorem listing_shiftDown (n : Nat) (q : Nat → α) :
    listing q (n+1) = q 0 :: listing (shiftDown n 0 q) n := by
  rw [listing_succ_cons]
  congr 1
  apply listing_congr
  intro k hk
  simp [shiftDown_apply, hk]

theorem insertAfter_perm (stop : α → Bool) (x : α) (l : List α) :
    (insertAfter stop x l).Perm (x :: l) := by
  unfold insertAfter
  refine List.perm_middle.trans ?_
  rw [List.rdropWhile_append_rtakeWhile]

section Sorted

variable {β : Type} [LinearOrder β] {key : α → β} {x : α} {l : List α}

theorem le_of_mem_rdropWhile (hl : l.Pairwise fun a b => key a ≤ key b) {y : α}
    (hy : y ∈ l.rdropWhile fun a => !decide (key a ≤ key x)) : key y ≤ key x := by
  rw [← List.rdropWhile_append_rtakeWhile (p := fun a => !decide (key a ≤ key x)) (l := l)] at hl
  have hys := (List.pairwise_append.mp hl).1
  have hne := List.ne_nil_of_mem hy
  have hlast := List.rdropWhile_last_not _ _ hne
  simp only [Bool.not_eq_true', decide_eq_false_iff_not, not_not] at hlast
  rw [← List.dropLast_append_getLast hne] at hys hy
  cases List.mem_append.mp hy with
  | inl hd => exact ((List.pairwise_append.mp hys).2.2 y hd _ (by simp)).trans hlast
  | inr hl =>
    rw [List.mem_singleton.mp hl]
    exact hlast

theorem lt_of_mem_rtakeWhile {z : α} (hz : z ∈ l.rtakeWhile fun a => !decide (key a ≤ key x)) :
    key x < key z := by
  have hp := List.mem_rtakeWhile_imp hz
  simpa using hp

theorem insertAfter_sorted (key : α → β) (x : α) (hl : l.Pairwise fun a b => key a ≤ key b) :
    (insertAfter (fun a => decide (key a ≤ key x)) x l).Pairwise fun a b => key a ≤ key b := by
  have hle {y : α} (hy : y ∈ l.rdropWhile fun a => !decide (key a ≤ key x)) : key y ≤ key x :=
    le_of_mem_rdropWhile hl hy
  rw [← List.rdropWhile_append_rtakeWhile (p := fun a => !decide (key a ≤ key x)) (l := l)] at hl
  unfold insertAfter
  obtain ⟨hys, hzs, hcross⟩ := List.pairwise_append.mp hl
  refine List.pairwise_append.mpr ⟨hys, List.pairwise_cons.mpr ⟨?_, hzs⟩, ?_⟩
  · intro z hz
    exact (lt_of_mem_rtakeWhile hz).le
  · intro y hy z hz
    cases List.mem_cons.mp hz with
    | inl he => exact he ▸ hle hy
    | inr hz => exact hcross y hy z hz

/-- A sorted list is its elements up to a key and those beyond it. -/
theorem sorted_split (hl : l.Pairwise fun a b => key a ≤ key b) (x : α) :
    l.rdropWhile (fun a => !decide (key a ≤ key x)) = l.filter (fun a => decide (key a ≤ key x)) ∧
    l.rtakeWhile (fun a => !decide (key a ≤ key x)) = l.filter (fun a => decide (key x < key a)) := by
  have hsplit := List.rdropWhile_append_rtakeWhile (p := fun a => !decide (key a ≤ key x)) (l := l)
  have hlow (a : α) (ha : a ∈ l.rdropWhile fun a => !decide (key a ≤ key x)) : key a ≤ key x :=
    le_of_mem_rdropWhile hl ha
  have hhigh (a : α) (ha : a ∈ l.rtakeWhile fun a => !decide (key a ≤ key x)) : key x < key a :=
    lt_of_mem_rtakeWhile ha
  generalize l.rdropWhile (fun a => !decide (key a ≤ key x)) = ys at hsplit hlow ⊢
  generalize l.rtakeWhile (fun a => !decide (key a ≤ key x)) = zs at hsplit hhigh ⊢
  subst hsplit
  constructor
  · rw [List.filter_append, List.filter_eq_self.mpr (by simpa using hlow),
      List.filter_eq_nil_iff.mpr (by simpa using hhigh), List.append_nil]
  · rw [List.filter_append, List.filter_eq_nil_iff.mpr (by simpa using hlow),
      List.filter_eq_self.mpr (by simpa using hhigh), List.nil_append]

theorem insertAfter_eq_filter (hl : l.Pairwise fun a b => key a ≤ key b) (x : α) :
    insertAfter (fun a => decide (key a ≤ key x)) x l =
      l.filter (fun a => decide (key a ≤ key x)) ++ x :: l.filter (fun a => decide (key x < key a)) := by
  rw [insertAfter, (sorted_split hl x).1, (sorted_split hl x).2]

end Sorted

end Arrays

section Stable

variable {β : Type} [LinearOrder β]

/-- The earliest of the elements with the smallest key, in a list in the order of insertion. -/
def firstSmallest (key : α → β) (l : List α) : Option α :=
  (l.filter fun y => l.all fun z => decide (key y ≤ key z)).head?

/-- `c` is `l` sorted by the keys, with equal keys in the order they have in `l`. -/
structure StableSort (key : α → β) (l c : List α) : Prop where
  sorted : c.Pairwise fun a b => key a ≤ key b
  ties : ∀ v, c.filter (fun a => decide (key a = v)) = l.filter (fun a => decide (key a = v))

variable {key : α → β} {l c : List α} {x : α}

theorem StableSort.nil (key : α → β) : StableSort key [] [] := ⟨List.Pairwise.nil, fun _ => rfl⟩

theorem StableSort.mem_iff (h : StableSort key l c) : x ∈ c ↔ x ∈ l := by
  have hx := congrArg (x ∈ ·) (h.ties (key x))
  simpa using hx

theorem StableSort.perm [BEq α] [LawfulBEq α] (h : StableSort key l c) : c.Perm l := by
  rw [List.perm_iff_count]
  intro a
  have hcount := congrArg (List.count a) (h.ties (key a))
  rw [List.count_filter (by simp), List.count_filter (by simp)] at hcount
  exact hcount

theorem StableSort.congr {key' : α → β} (h : StableSort key l c) (heq : ∀ a ∈ c, key' a = key a) :
    StableSort key' l c := by
  refine ⟨?_, ?_⟩
  · refine h.sorted.imp_of_mem ?_
    intro a b ha hb hab
    rw [heq a ha, heq b hb]
    exact hab
  · intro v
    have hc : c.filter (fun a => decide (key' a = v)) = c.filter (fun a => decide (key a = v)) :=
      List.filter_congr fun a ha => by rw [heq a ha]
    have hl : l.filter (fun a => decide (key' a = v)) = l.filter (fun a => decide (key a = v)) :=
      List.filter_congr fun a ha => by rw [heq a (h.mem_iff.mpr ha)]
    rw [hc, hl, h.ties]

theorem StableSort.insert (h : StableSort key l c) (x : α) :
    StableSort key (l ++ [x]) (insertAfter (fun a => decide (key a ≤ key x)) x c) := by
  refine ⟨insertAfter_sorted key x h.sorted, ?_⟩
  intro v
  rw [insertAfter_eq_filter h.sorted, List.filter_append, List.filter_cons, List.filter_filter,
    List.filter_filter, List.filter_append, ← h.ties, List.filter_cons, List.filter_nil]
  -- The elements with the key `v` are all on one side of the new one.
  rcases le_or_gt v (key x) with hv | hv
  · have hlow : c.filter (fun a => decide (key a = v) && decide (key a ≤ key x)) =
        c.filter fun a => decide (key a = v) := by
      refine List.filter_congr fun a _ => ?_
      by_cases ha : key a = v
      · simp [ha, hv]
      · simp [ha]
    have hhigh : c.filter (fun a => decide (key a = v) && decide (key x < key a)) = [] := by
      rw [List.filter_eq_nil_iff]
      intro a _ ha
      simp only [Bool.and_eq_true, decide_eq_true_eq] at ha
      exact absurd (ha.1 ▸ ha.2) (not_lt.mpr hv)
    rw [hlow, hhigh]
  · have hne : key x ≠ v := hv.ne
    have hlow : c.filter (fun a => decide (key a = v) && decide (key a ≤ key x)) = [] := by
      rw [List.filter_eq_nil_iff]
      intro a _ ha
      simp only [Bool.and_eq_true, decide_eq_true_eq] at ha
      exact absurd (ha.1 ▸ ha.2) (not_le.mpr hv)
    have hhigh : c.filter (fun a => decide (key a = v) && decide (key x < key a)) =
        c.filter fun a => decide (key a = v) := by
      refine List.filter_congr fun a _ => ?_
      by_cases ha : key a = v
      · simp [ha, hv]
      · simp [ha]
    rw [hlow, hhigh]
    simp [hne]

theorem StableSort.firstSmallest_nil (h : StableSort key l []) : firstSmallest key l = none := by
  have hl : l = [] := by
    rw [List.eq_nil_iff_forall_not_mem]
    intro a ha
    exact absurd (h.mem_iff.mpr ha) List.not_mem_nil
  rw [hl]
  rfl

theorem StableSort.firstSmallest_cons (h : StableSort key l (x :: c)) : firstSmallest key l = some x := by
  have hx := List.pairwise_cons.mp h.sorted
  have hsame : (l.filter fun y => l.all fun z => decide (key y ≤ key z)) =
      l.filter fun y => decide (key y = key x) := by
    refine List.filter_congr fun y hy => ?_
    have hle (z : α) (hz : z ∈ l) : key x ≤ key z := by
      rcases List.mem_cons.mp (h.mem_iff.mpr hz) with rfl | hz
      · exact le_refl _
      · exact hx.1 z hz
    by_cases hy' : key y = key x
    · simpa [hy'] using hle
    · have hlt : ¬ key y ≤ key x := fun hyx => hy' (le_antisymm hyx (hle y hy))
      have hxl : x ∈ l := h.mem_iff.mp List.mem_cons_self
      simpa [hy'] using ⟨x, hxl, not_le.mp hlt⟩
  rw [firstSmallest, hsame, ← h.ties, List.filter_cons_of_pos (by simp), List.head?_cons]

theorem StableSort.tail [BEq α] [LawfulBEq α] (h : StableSort key l (x :: c)) :
    StableSort key (l.erase x) c := by
  refine ⟨(List.pairwise_cons.mp h.sorted).2, ?_⟩
  intro v
  rw [← List.erase_filter, ← h.ties]
  by_cases hv : key x = v
  · rw [List.filter_cons_of_pos (by simpa using hv), List.erase_cons_head]
  · rw [List.filter_cons_of_neg (by simpa using hv), List.erase_of_not_mem]
    simp [hv]

end Stable

end RiscvOs.Queues
