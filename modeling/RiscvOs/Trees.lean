import Mathlib.Data.List.Nodup
import Mathlib.Data.List.Pairwise
set_option autoImplicit false

/-!
Trees that are given by a partial child function with a fixed number of child
positions: the node at the end of a path, and the listing of a tree of bounded
height in which every node comes after its descendants.
-/

namespace RiscvOs.Trees

variable {ι : Type}

/-- The node reached from `p` by the child positions of a path. -/
def descend (child : ι → Nat → Option ι) : ι → List Nat → Option ι
  | p, [] => some p
  | p, i :: is => (child p i).bind fun q => descend child q is

def postorder (child : ι → Nat → Option ι) (width : Nat) : Nat → ι → List ι
  | 0, p => [p]
  | n+1, p =>
    (List.range width).flatMap (fun i => (child p i).elim [] (postorder child width n)) ++ [p]

/-- No path from `p` is longer than `n`. -/
def HeightLe (child : ι → Nat → Option ι) (width : Nat) : Nat → ι → Prop
  | 0, p => ∀ i < width, child p i = none
  | n+1, p => ∀ i < width, ∀ q, child p i = some q → HeightLe child width n q

/-- A path of at most `n` steps through child positions below `width`. -/
def Path (width n : Nat) (is : List Nat) : Prop := is.length ≤ n ∧ ∀ i ∈ is, i < width

theorem path_cons {width n i : Nat} {is : List Nat} :
    Path width (n+1) (i :: is) ↔ i < width ∧ Path width n is := by
  simp only [Path, List.length_cons, Nat.add_le_add_iff_right, List.mem_cons, forall_eq_or_imp]
  exact and_left_comm

/-- Different paths of a tree lead to different nodes. -/
def PathsInj (child : ι → Nat → Option ι) (width n : Nat) (p : ι) : Prop :=
  ∀ is js q, Path width n is → Path width n js →
    descend child p is = some q → descend child p js = some q → is = js

section Postorder

variable {child : ι → Nat → Option ι} {width n : Nat} {p q : ι}

theorem descend_append (is js : List Nat) :
    descend child p (is ++ js) = (descend child p is).bind fun q => descend child q js := by
  induction is generalizing p with
  | nil => rfl
  | cons i is ih =>
    cases hc : child p i with
    | none => simp [descend, hc]
    | some c => simp [descend, hc, ih]

theorem mem_postorder_iff : q ∈ postorder child width n p ↔
    ∃ is, Path width n is ∧ descend child p is = some q := by
  induction n generalizing p with
  | zero =>
    simp only [postorder, List.mem_singleton]
    constructor
    · intro hq
      exact ⟨[], by simp [Path], by simp [descend, hq]⟩
    · rintro ⟨is, hpath, hd⟩
      cases is with
      | nil => simpa [descend, eq_comm] using hd
      | cons i is => simp [Path] at hpath
  | succ n ih =>
    simp only [postorder, List.mem_append, List.mem_flatMap, List.mem_range, List.mem_singleton]
    constructor
    · rintro (⟨i, hi, hq⟩ | rfl)
      · cases hc : child p i with
        | none => simp [hc] at hq
        | some c =>
          obtain ⟨is, hpath, hd⟩ := ih.mp (by simpa [hc] using hq)
          exact ⟨i :: is, path_cons.mpr ⟨hi, hpath⟩, by simp [descend, hc, hd]⟩
      · exact ⟨[], by simp [Path], rfl⟩
    · rintro ⟨is, hpath, hd⟩
      cases is with
      | nil => exact .inr (by simpa [descend, eq_comm] using hd)
      | cons i is =>
        obtain ⟨hi, hpath⟩ := path_cons.mp hpath
        cases hc : child p i with
        | none => simp [descend, hc] at hd
        | some c =>
          refine .inl ⟨i, hi, ?_⟩
          simp only [hc, Option.elim_some]
          exact ih.mpr ⟨is, hpath, by simpa [descend, hc] using hd⟩

/-- What is listed for the child position `i` is reached by the paths that start with `i`. -/
theorem mem_below_iff {i : Nat} : q ∈ (child p i).elim [] (postorder child width n) ↔
    ∃ is, Path width n is ∧ descend child p (i :: is) = some q := by
  cases hc : child p i with
  | none => simp [descend, hc]
  | some c =>
    rw [Option.elim_some, mem_postorder_iff]
    simp [descend, hc]

theorem postorder_nodup (h : PathsInj child width n p) : (postorder child width n p).Nodup := by
  induction n generalizing p with
  | zero => simp [postorder]
  | succ n ih =>
    have hsub (i : Nat) (hi : i ∈ List.range width) :
        ((child p i).elim [] (postorder child width n)).Nodup := by
      have hi := List.mem_range.mp hi
      cases hc : child p i with
      | none => simp
      | some c =>
        refine ih fun is js x his hjs hx hy => ?_
        have he := h (i :: is) (i :: js) x (path_cons.mpr ⟨hi, his⟩) (path_cons.mpr ⟨hi, hjs⟩)
          (by simp [descend, hc, hx]) (by simp [descend, hc, hy])
        simpa using he
    have hdisj (i j : Nat) (hi : i ∈ List.range width) (hj : j ∈ List.range width) (hij : i ≠ j) :
        List.Disjoint ((child p i).elim [] (postorder child width n))
          ((child p j).elim [] (postorder child width n)) := by
      intro x hx hy
      obtain ⟨is, his, hd⟩ := mem_below_iff.mp hx
      obtain ⟨js, hjs, hd'⟩ := mem_below_iff.mp hy
      have he := h _ _ x (path_cons.mpr ⟨List.mem_range.mp hi, his⟩) (path_cons.mpr ⟨List.mem_range.mp hj, hjs⟩) hd hd'
      simp only [List.cons.injEq] at he
      exact hij he.1
    rw [postorder, List.nodup_append']
    refine ⟨List.nodup_flatMap.mpr ⟨hsub, ?_⟩, List.nodup_singleton p, ?_⟩
    · exact List.nodup_range.pairwise_of_forall_ne fun i hi j hj hij => hdisj i j hi hj hij
    · intro x hx hp
      obtain ⟨i, hi, hx⟩ := List.mem_flatMap.mp hx
      obtain ⟨is, his, hd⟩ := mem_below_iff.mp hx
      have he := h (i :: is) [] x (path_cons.mpr ⟨List.mem_range.mp hi, his⟩) (by simp [Path]) hd
        (by simpa [descend, eq_comm] using hp)
      cases he

/-- A listing without repetitions has every path to a node once. -/
theorem pathsInj_of_nodup (h : (postorder child width n p).Nodup) : PathsInj child width n p := by
  induction n generalizing p with
  | zero =>
    intro is js q his hjs _ _
    rw [List.length_eq_zero_iff.mp (Nat.le_zero.mp his.1), List.length_eq_zero_iff.mp (Nat.le_zero.mp hjs.1)]
  | succ n ih =>
    rw [postorder, List.nodup_append', List.nodup_flatMap] at h
    obtain ⟨⟨hsub, hpair⟩, _, hroot⟩ := h
    -- A path that is not empty leads to what is listed for its first position.
    have hbelow {i : Nat} {is : List Nat} {q : ι} (hpath : Path width (n+1) (i :: is))
        (hd : descend child p (i :: is) = some q) :
        i ∈ List.range width ∧ q ∈ (child p i).elim [] (postorder child width n) := by
      obtain ⟨hi, hpath⟩ := path_cons.mp hpath
      exact ⟨List.mem_range.mpr hi, mem_below_iff.mpr ⟨is, hpath, hd⟩⟩
    have hnotRoot {i : Nat} {is : List Nat} (hpath : Path width (n+1) (i :: is))
        (hd : descend child p (i :: is) = some p) : False := by
      obtain ⟨hi, hp⟩ := hbelow hpath hd
      exact hroot (List.mem_flatMap.mpr ⟨i, hi, hp⟩) (List.mem_singleton_self p)
    intro is js q his hjs hi hj
    cases is with
    | nil =>
      cases hi
      cases js with
      | nil => rfl
      | cons j js => exact (hnotRoot hjs hj).elim
    | cons i is =>
      cases js with
      | nil =>
        cases hj
        exact (hnotRoot his hi).elim
      | cons j js =>
        obtain ⟨hir, hiq⟩ := hbelow his hi
        obtain ⟨hjr, hjq⟩ := hbelow hjs hj
        by_cases hij : i = j
        · subst hij
          cases hc : child p i with
          | none => simp [hc] at hiq
          | some c =>
            have hnd := hsub i hir
            rw [hc] at hnd
            simp only [descend, hc, Option.bind_some] at hi hj
            rw [ih hnd is js q (path_cons.mp his).2 (path_cons.mp hjs).2 hi hj]
        · have hsymm : Std.Symm (Function.onFun List.Disjoint
              fun i => (child p i).elim [] (postorder child width n)) := ⟨fun _ _ hd _ hx hy => hd hy hx⟩
          exact (hpair.forall hir hjr hij hiq hjq).elim

theorem HeightLe.length_le (h : HeightLe child width n p) {is : List Nat} (his : ∀ i ∈ is, i < width)
    (hd : descend child p is = some q) : is.length ≤ n := by
  induction is generalizing n p with
  | nil => simp
  | cons i is ih =>
    have hi := his i (by simp)
    cases hc : child p i with
    | none => simp [descend, hc] at hd
    | some c =>
      cases n with
      | zero =>
        rw [h i hi] at hc
        cases hc
      | succ n =>
        simp only [descend, hc, Option.bind_some] at hd
        have hle := ih (h i hi c hc) (fun j hj => his j (by simp [hj])) hd
        simp only [List.length_cons]
        omega

end Postorder

end RiscvOs.Trees
