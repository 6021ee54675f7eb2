import RiscvOs.PageTableTree
set_option autoImplicit false

/-!
Page tables refine finite maps: `mappages` and `unmappages` change the abstract map
of their table by a range of pages and leave every other map alone, in every run of
the page tables together with the other clients of the page allocator.
-/

namespace RiscvOs.Vm
open WordMemory PageAlloc Runs

def entryOf (ppn : Nat) (perm : BitVec 32) : Entry :=
  ⟨BitVec.ofNat 52 ppn, BitVec.ofNat 10 perm.toNat ||| 1#10, by simp⟩

/-- `n` pages from `v` mapped to the physical pages from `ppn`, modulo `2^52`. -/
def PageMap.mapRange (m : PageMap) (v n ppn : Nat) (perm : BitVec 32) : PageMap :=
  fun w => if v ≤ w ∧ w < v + n then some (entryOf (ppn + (w - v)) perm) else m w

def PageMap.unmapRange (m : PageMap) (v n : Nat) : PageMap :=
  fun w => if v ≤ w ∧ w < v + n then none else m w

theorem PageMap.mapRange_one (m : PageMap) (v ppn : Nat) (perm : BitVec 32) :
    m.mapRange v 1 ppn perm = Function.update m v (some (entryOf ppn perm)) := by
  funext w
  by_cases hw : w = v
  · subst hw
    simp [mapRange]
  · rw [Function.update_of_ne hw, mapRange, if_neg]
    omega

theorem entryOf_wrap (ppn : Nat) (perm : BitVec 32) :
    entryOf (ppn % 2^52) perm = entryOf ppn perm := by
  simp only [entryOf, Entry.mk.injEq, and_true]
  apply BitVec.eq_of_toNat_eq
  simp only [BitVec.toNat_ofNat, Nat.mod_mod]

theorem entryOf_congr {a b : Nat} (perm : BitVec 32) (h : a % 2^52 = b % 2^52) :
    entryOf a perm = entryOf b perm := by
  rw [← entryOf_wrap a, ← entryOf_wrap b, h]

/-- The first page, then the others with the next physical page. -/
theorem PageMap.mapRange_succ (m : PageMap) (v n ppn : Nat) (perm : BitVec 32) :
    PageMap.mapRange (Function.update m v (some (entryOf ppn perm))) (v+1) n ((ppn+1) % 2^52) perm =
      m.mapRange v (n+1) ppn perm := by
  funext w
  simp only [mapRange]
  by_cases hw : w = v
  · subst hw
    rw [if_neg (by omega), Function.update_self, if_pos (by omega)]
    simp
  · by_cases hr : v + 1 ≤ w ∧ w < v + 1 + n
    · rw [if_pos hr, if_pos (by omega)]
      exact congrArg some (entryOf_congr perm (by omega))
    · rw [if_neg hr, Function.update_of_ne hw, if_neg (by omega)]

/-- The word `mappages` stores for a page is the entry's word. -/
theorem mappages_pte (pa : Word) {perm : BitVec 32} (hperm : perm.toNat < 1024) :
    pa2pte pa ||| perm.signExtend 64 ||| pteV = (entryOf (pa.toNat / 4096) perm).pte := by
  have hpa := pa.isLt
  have hppn : (BitVec.ofNat 52 (pa.toNat / 4096)).setWidth 64 = pa >>> 12 := by
    apply BitVec.eq_of_toNat_eq
    rw [BitVec.toNat_setWidth, BitVec.toNat_ofNat, BitVec.toNat_ushiftRight,
      Nat.shiftRight_eq_div_pow]
    omega
  have hmsb : perm.msb = false := by
    rw [BitVec.msb_eq_decide]
    simp
    omega
  have hflags : (BitVec.ofNat 10 perm.toNat ||| 1#10).setWidth 64 = perm.signExtend 64 ||| pteV := by
    rw [BitVec.signExtend_eq_setWidth_of_msb_false hmsb, BitVec.setWidth_or]
    congr 1
    apply BitVec.eq_of_toNat_eq
    simp only [BitVec.toNat_setWidth, BitVec.toNat_ofNat]
    omega
  rw [Entry.pte, entryOf, hppn, hflags, pa2pte, BitVec.or_assoc]

section Loops

variable {lo : Nat} {s : Mm} {roots : Word → Prop} {maps : Word → Option PageMap} {others : List Word}
  {node : Nodes} {chain held : List Word} {r a last : Word} {m : PageMap}

theorem lt_maxVa {va : Word} (h : va.toNat < 2^38) : ¬ va ≥ maxVa := by
  rw [ge_iff_le, BitVec.le_def, maxVa_toNat]
  omega

theorem VmInv.node_root (h : VmInv lo s maps others node chain held) (hm : maps r = some m) :
    node (r, []) = some r := h.forest.root r (by simp [hm])

theorem Tables.walk_lookup (h : Tables lo s roots node chain held) (hr : roots r)
    (va : Word) (hva : va.toNat < 2^38) :
    walk s r va false = (match node (r, leafPath (va.toNat / 4096)) with
      | some p => slot p (va.toNat / 4096 % 512)
      | none => 0#64, s) := by
  have hw := h.walkFrom_lookup va (h.forest.root r hr) (show ([] : List Nat).length + 2 = 2 from rfl)
  rw [List.nil_append, walkPath_two hva, px_zero] at hw
  rw [walk, if_neg (lt_maxVa hva)]
  exact hw

theorem Tables.walk_alloc (h : Tables lo s roots node chain held) (hr : roots r)
    (va : Word) (hva : va.toNat < 2^38) {P : Word × List Nat → Prop}
    (hP : ∀ js, js <+: leafPath (va.toNat / 4096) → P (r, js)) :
    ∃ node' chain' held', Tables lo (walk s r va true).2 roots node' chain' held' ∧
      Grows P node chain held node' chain' held' ∧
      (∀ r' v, leafAt (walk s r va true).2.mem node' r' v = leafAt s.mem node r' v) ∧
      ((∃ p, node' (r, leafPath (va.toNat / 4096)) = some p ∧
          (walk s r va true).1 = slot p (va.toNat / 4096 % 512)) ∨
        (walk s r va true).1 = 0#64 ∧ chain' = [] ∧ ∃ k, P k ∧ node' k = none) := by
  have hw := h.walkFrom_alloc va (P := P) (h.forest.root r hr) (show ([] : List Nat).length + 2 = 2 from rfl)
  rw [List.nil_append, walkPath_two hva, px_zero] at hw
  rw [walk, if_neg (lt_maxVa hva)]
  exact hw hP

theorem VmInv.walk_alloc (h : VmInv lo s maps others node chain held) (hm : maps r = some m)
    (va : Word) (hva : va.toNat < 2^38) {P : Word × List Nat → Prop}
    (hP : ∀ js, js <+: leafPath (va.toNat / 4096) → P (r, js)) :
    ∃ node' chain' held', VmInv lo (walk s r va true).2 maps others node' chain' held' ∧
      Grows P node chain held node' chain' held' ∧
      ((∃ p, node' (r, leafPath (va.toNat / 4096)) = some p ∧
          (walk s r va true).1 = slot p (va.toNat / 4096 % 512)) ∨
        (walk s r va true).1 = 0#64 ∧ chain' = [] ∧ ∃ k, P k ∧ node' k = none) := by
  obtain ⟨node', chain', held', ht, hgrow, hleaves, hres⟩ := h.tables.walk_alloc (r := r) (by simp [hm]) va hva hP
  refine ⟨node', chain', held', h.rebuild ht hgrow ?_ h.bounded, hgrow, hres⟩
  intro r' m' hm' v hv
  rw [hleaves, leaves_iff.mp h.leaves r' m' hm' v hv]

theorem page_succ {a : Word} (ha : Aligned a) (h : a.toNat < 2^38) :
    Aligned (a + pgSize) ∧ (a + pgSize).toNat = a.toNat + 4096 := by
  simp only [Aligned, pgSize, BitVec.toNat_add, BitVec.toNat_ofNat] at *
  omega

theorem ppn_succ (pa : Word) : (pa + pgSize).toNat / 4096 = (pa.toNat / 4096 + 1) % 2^52 := by
  have hlt := pa.isLt
  simp only [pgSize, BitVec.toNat_add, BitVec.toNat_ofNat]
  omega

/-- The keys of the tables that `walk` can reach from the root `r`. -/
def TableKey (r : Word) (k : Word × List Nat) : Prop := k.1 = r ∧ ∃ v < 2^26, k.2 <+: leafPath v

theorem walk_null {va : Word} (hva : ¬ va.toNat < 2^38) (alloc : Bool) :
    walk s r va alloc = (0#64, s) := by
  rw [walk, if_pos]
  rw [ge_iff_le, BitVec.le_def, maxVa_toNat]
  omega

/-- The word that `mappages` stores for page `i` of its range. -/
def mapWord (pa : Word) (perm : BitVec 32) (i : Nat) : Word :=
  pa2pte (pa + BitVec.ofNat 64 (4096 * i)) ||| perm.signExtend 64 ||| pteV

theorem mapWord_zero (pa : Word) (perm : BitVec 32) :
    mapWord pa perm 0 = pa2pte pa ||| perm.signExtend 64 ||| pteV := by simp [mapWord]

theorem mapWord_succ (pa : Word) (perm : BitVec 32) (i : Nat) : mapWord (pa + pgSize) perm i = mapWord pa perm (i+1) := by
  have hnext : pa + pgSize + BitVec.ofNat 64 (4096 * i) = pa + BitVec.ofNat 64 (4096 * (i + 1)) := by
    rw [Nat.mul_succ, Nat.add_comm (4096 * i), BitVec.ofNat_add, BitVec.add_assoc]
    rfl
  rw [mapWord, mapWord, hnext]

theorem pteValid_mapWord (pa : Word) (perm : BitVec 32) (i : Nat) : pteValid (mapWord pa perm i) = true :=
  pteValid_or _

/-- The leaves of `r` for the `k` pages from `v` on get the words `w`. -/
def setLeaves (f : Word → Nat → Word) (r : Word) (v k : Nat) (w : Nat → Word) (r' : Word) (u : Nat) : Word :=
  if r' = r ∧ v ≤ u ∧ u < v + k then w (u - v) else f r' u

theorem setLeaves_zero (f : Word → Nat → Word) (r : Word) (v : Nat) (w : Nat → Word) : setLeaves f r v 0 w = f := by
  funext r' u
  exact if_neg fun hin => absurd hin.2 (by omega)

/-- The first page, then the others. -/
theorem setLeaves_succ {f g : Word → Nat → Word} {r : Word} {v : Nat} {w : Nat → Word}
    (hg : ∀ r' u, g r' u = if r' = r ∧ u = v then w 0 else f r' u) (k : Nat) :
    setLeaves g r (v+1) k (fun i => w (i+1)) = setLeaves f r v (k+1) w := by
  funext r' u
  simp only [setLeaves, hg]
  by_cases hr : r' = r
  · simp only [hr, true_and]
    by_cases hu : u = v
    · rw [if_neg (by omega), if_pos hu, if_pos (by omega), hu, Nat.sub_self]
    · by_cases hin : v + 1 ≤ u ∧ u < v + 1 + k
      · rw [if_pos hin, if_pos (by omega)]
        congr 1
        omega
      · rw [if_neg hin, if_neg hu, if_neg (by omega)]
  · simp only [hr, false_and, if_false]

/-- What holds of the first page and of the others holds of all of them, the first being written
after the check. -/
theorem pages_succ {f g : Word → Nat → Word} {w : Word} {v k : Nat} {b : Bool}
    (hg : ∀ r' u, g r' u = if r' = r ∧ u = v then w else f r' u) (hv : v < 2^26 ∧ pteValid (f r v) = b)
    (h : ∀ i < k, v + 1 + i < 2^26 ∧ pteValid (g r (v + 1 + i)) = b) :
    ∀ i < k + 1, v + i < 2^26 ∧ pteValid (f r (v + i)) = b := by
  intro i hi
  cases i with
  | zero => exact hv
  | succ i =>
    have hpage := h i (by omega)
    rw [hg, if_neg (by omega), Nat.add_assoc, Nat.add_comm 1] at hpage
    exact hpage

/-- `walk` finds no memory for the tables of a page, and has changed no leaf. -/
theorem Tables.walk_fails (h : Tables lo s roots node chain held) (hr : roots r) (hva : a.toNat < 2^38)
    (hnull : (walk s r a true).1 = 0#64) :
    ∃ node' chain' held', Tables lo (walk s r a true).2 roots node' chain' held' ∧
      Grows (TableKey r) node chain held node' chain' held' ∧
      leafAt (walk s r a true).2.mem node' = leafAt s.mem node ∧ (0 < lo → chain' = []) := by
  obtain ⟨node', chain', held', h', hgrow, hsame, hslot⟩ := h.walk_alloc hr a hva (P := TableKey r)
    fun js hjs => ⟨rfl, _, by omega, hjs⟩
  refine ⟨node', chain', held', h', hgrow, funext₂ hsame, ?_⟩
  intro hlo
  rcases hslot with ⟨p, hp, haddr⟩ | hz
  · rw [hnull] at haddr
    exact absurd haddr.symm (h'.slot_ne_zero hlo hp (Nat.mod_lt _ (by decide)))
  · exact hz.2.1

/-- One round of the loop of `mappages`: a page that was not mapped gets the word `w`. -/
theorem Tables.mapPage (h : Tables lo s roots node chain held) (hr : roots r) (hva : a.toNat < 2^38)
    (hnull : (walk s r a true).1 ≠ 0#64) (hvalid : ¬ pteValid ((walk s r a true).2.mem (walk s r a true).1) = true)
    (w : Word) :
    ∃ node' chain' held', Tables lo ((walk s r a true).2.store (walk s r a true).1 w) roots node' chain' held' ∧
      Grows (TableKey r) node chain held node' chain' held' ∧
      pteValid (leafAt s.mem node r (a.toNat / 4096)) = false ∧
      ∀ r' u, leafAt ((walk s r a true).2.store (walk s r a true).1 w).mem node' r' u =
        if r' = r ∧ u = a.toNat / 4096 then w else leafAt s.mem node r' u := by
  obtain ⟨node', chain', held', h', hgrow, hsame, hslot⟩ := h.walk_alloc hr a hva (P := TableKey r)
    fun js hjs => ⟨rfl, _, by omega, hjs⟩
  obtain ⟨p, hp, haddr⟩ := hslot.resolve_right fun hz => hnull hz.1
  obtain ⟨hset, hleaf⟩ := h'.setLeaf hp w
  rw [← haddr] at hset hleaf
  refine ⟨node', chain', held', hset, hgrow, ?_, ?_⟩
  · rw [← hsame, leafAt_some hp, ← haddr]
    simpa using hvalid
  · intro r' u
    rw [hleaf, hsame]

/-- However the loop returns, it has mapped the first `k` pages from `a` on, which were not
mapped before. It returns success when `last` is the last of them, and otherwise failure at a
page that is not below `MAXVA` or has no memory left for its tables. -/
theorem Tables.mappagesLoop_spec {n : Nat} {perm : BitVec 32} {pa : Word} {s' : Mm} {c : Int}
    (h : Tables lo s roots node chain held) (hr : roots r) (ha : Aligned a)
    (hret : mappagesLoop r last perm n a pa s = .ret (c, s')) :
    ∃ k node' chain' held', Tables lo s' roots node' chain' held' ∧
      Grows (TableKey r) node chain held node' chain' held' ∧
      (∀ i < k, a.toNat / 4096 + i < 2^26 ∧ pteValid (leafAt s.mem node r (a.toNat / 4096 + i)) = false) ∧
      leafAt s'.mem node' = setLeaves (leafAt s.mem node) r (a.toNat / 4096) k (mapWord pa perm) ∧
      ((c = 0 ∧ 0 < k ∧ last.toNat + 4096 = a.toNat + 4096 * k) ∨
        (c = -1 ∧ (0 < lo → 2^38 ≤ a.toNat + 4096 * k ∨ chain' = []) ∧
          ∀ i < k, last.toNat ≠ a.toNat + 4096 * i)) := by
  induction n generalizing s node chain held a pa with
  | zero => simp [mappagesLoop] at hret
  | succ n ih =>
    rw [mappagesLoop] at hret
    by_cases hva : a.toNat < 2^38
    swap
    · simp only [walk_null hva, if_true, Outcome.ret.injEq, Prod.mk.injEq] at hret
      obtain ⟨rfl, rfl⟩ := hret
      exact ⟨0, node, chain, held, h, .refl, by simp, (setLeaves_zero ..).symm,
        .inr ⟨rfl, fun _ => .inl (by omega), by simp⟩⟩
    by_cases hnull : (walk s r a true).1 = 0#64
    · simp only [hnull, if_true, Outcome.ret.injEq, Prod.mk.injEq] at hret
      obtain ⟨rfl, rfl⟩ := hret
      obtain ⟨node₁, chain₁, held₁, h₁, hgrow, hsame, hempty⟩ := h.walk_fails hr hva hnull
      refine ⟨0, node₁, chain₁, held₁, h₁, hgrow, by simp, ?_, .inr ⟨rfl, fun hlo => .inr (hempty hlo), by simp⟩⟩
      rw [setLeaves_zero, hsame]
    by_cases hvalid : pteValid ((walk s r a true).2.mem (walk s r a true).1) = true
    · simp [hnull, hvalid] at hret
    obtain ⟨node₁, chain₁, held₁, h₁, hgrow, hfree, hleaf⟩ := h.mapPage hr hva hnull hvalid (mapWord pa perm 0)
    have hfirst : a.toNat / 4096 < 2^26 ∧ pteValid (leafAt s.mem node r (a.toNat / 4096)) = false :=
      ⟨by omega, hfree⟩
    simp only [hnull, hvalid, Bool.false_eq_true, if_false, ← mapWord_zero] at hret
    by_cases hend : a = last
    · subst hend
      simp only [if_true, Outcome.ret.injEq, Prod.mk.injEq] at hret
      obtain ⟨rfl, rfl⟩ := hret
      refine ⟨1, node₁, chain₁, held₁, h₁, hgrow, pages_succ hleaf hfirst (by simp), ?_,
        .inl ⟨rfl, by omega, by omega⟩⟩
      rw [← setLeaves_succ hleaf 0, setLeaves_zero]
    · simp only [hend, if_false] at hret
      obtain ⟨ha', hnat⟩ := page_succ ha hva
      obtain ⟨k, node₂, chain₂, held₂, h₂, hgrow₂, hpages, hleaves, hdone⟩ := ih h₁ ha' hret
      have hpage : (a.toNat + 4096) / 4096 = a.toNat / 4096 + 1 := by omega
      have hwords : mapWord (pa + pgSize) perm = fun i => mapWord pa perm (i+1) := funext (mapWord_succ pa perm)
      rw [hnat, hpage, hwords, setLeaves_succ hleaf] at hleaves
      rw [hnat, hpage] at hpages
      rw [hnat] at hdone
      refine ⟨k+1, node₂, chain₂, held₂, h₂, hgrow.trans hgrow₂, pages_succ hleaf hfirst hpages, hleaves, ?_⟩
      have hne : last.toNat ≠ a.toNat := fun he => hend (BitVec.eq_of_toNat_eq he).symm
      rcases hdone with ⟨rfl, hk, hlast⟩ | ⟨rfl, hstop, hlast⟩
      · exact .inl ⟨rfl, by omega, by omega⟩
      · refine .inr ⟨rfl, fun hlo => (hstop hlo).imp (by omega) id, ?_⟩
        intro i hi
        cases i with
        | zero => exact hne
        | succ i =>
          have hi' := hlast i (by omega)
          omega

/-- The words that `mappages` stores are those of the entries of its range. -/
theorem mapRange_word {perm : BitVec 32} (hperm : perm.toNat < 1024) (m : PageMap) (v k u : Nat) (pa : Word) :
    leafWord (m.mapRange v k (pa.toNat / 4096) perm u) =
      if v ≤ u ∧ u < v + k then mapWord pa perm (u - v) else leafWord (m u) := by
  rw [PageMap.mapRange]
  split
  · have hpa := pa.isLt
    rw [mapWord, mappages_pte _ hperm, leafWord]
    congr 1
    apply entryOf_congr
    simp only [BitVec.toNat_add, BitVec.toNat_ofNat]
    omega
  · rfl

/-- Leaves of one table are replaced, and the map of the table with them. -/
theorem VmInv.replaceLeaves {P : Word × List Nat → Prop} {s' : Mm} {node' : Nodes} {chain' held' : List Word}
    {v k : Nat} {w : Nat → Word} {m' : PageMap} (h : VmInv lo s maps others node chain held) (hm : maps r = some m)
    (ht : Tables lo s' (fun r => (maps r).isSome) node' chain' held') (hgrow : Grows P node chain held node' chain' held')
    (hleaf : leafAt s'.mem node' = setLeaves (leafAt s.mem node) r v k w)
    (hword : ∀ u, leafWord (m' u) = if v ≤ u ∧ u < v + k then w (u - v) else leafWord (m u))
    (hnone : ∀ u, 2^26 ≤ u → m' u = none) :
    VmInv lo s' (Function.update maps r (some m')) others node' chain' held' := by
  refine h.rebuild ?_ hgrow ?_ ?_
  · simp only [VmInv.setMap_isSome hm]
    exact ht
  · intro r' m₁ hm₁ u hu
    rw [hleaf, setLeaves]
    by_cases he : r' = r
    · subst he
      rw [Function.update_self] at hm₁
      cases hm₁
      simp only [true_and, hword, leaves_iff.mp h.leaves r' m hm u hu]
    · rw [Function.update_of_ne he] at hm₁
      rw [if_neg (fun hin => he hin.1), leaves_iff.mp h.leaves r' m₁ hm₁ u hu]
  · intro r' m₁ u hm₁ hu
    by_cases he : r' = r
    · subst he
      rw [Function.update_self] at hm₁
      cases hm₁
      exact hnone u hu
    · rw [Function.update_of_ne he] at hm₁
      exact h.bounded r' m₁ u hm₁ hu

/-- However the loop returns, it has mapped the first `k` pages from `a` on; when it returns
success these are the pages up to `last`. -/
theorem mappagesLoop_maps {n : Nat} {perm : BitVec 32} {pa : Word} {s' : Mm} {c : Int}
    (h : VmInv lo s maps others node chain held) (hm : maps r = some m)
    (ha : Aligned a) (hperm : perm.toNat < 1024)
    (hret : mappagesLoop r last perm n a pa s = .ret (c, s')) :
    ∃ k node' chain' held', VmInv lo s' (Function.update maps r (some (m.mapRange (a.toNat / 4096) k
        (pa.toNat / 4096) perm))) others node' chain' held' ∧
      Grows (TableKey r) node chain held node' chain' held' ∧
      (∀ w, a.toNat / 4096 ≤ w → w < a.toNat / 4096 + k → m w = none) ∧
      (c = 0 → a.toNat ≤ last.toNat ∧ k = last.toNat / 4096 - a.toNat / 4096 + 1) := by
  obtain ⟨k, node', chain', held', ht, hgrow, hpages, hleaves, hdone⟩ :=
    h.tables.mappagesLoop_spec (r := r) (by simp [hm]) ha hret
  refine ⟨k, node', chain', held', h.replaceLeaves hm ht hgrow hleaves ?_ ?_, hgrow, ?_, ?_⟩
  · intro u
    exact mapRange_word hperm m (a.toNat / 4096) k u pa
  · intro u hu
    rw [PageMap.mapRange, if_neg, h.bounded r m u hm hu]
    intro hin
    have hlt := (hpages (u - a.toNat / 4096) (by omega)).1
    omega
  · intro w hge hlt
    obtain ⟨hlow, hvalid⟩ := hpages (w - a.toNat / 4096) (by omega)
    rw [Nat.add_sub_of_le hge] at hlow hvalid
    rw [leaves_iff.mp h.leaves r m hm w (by omega), pteValid_leafWord] at hvalid
    simpa using hvalid
  · intro hc
    rcases hdone with ⟨_, hk, hlast⟩ | ⟨hfail, _⟩
    · simp only [Aligned] at ha
      omega
    · rw [hc] at hfail
      cases hfail

/-- The loop unmaps the pages from `a` to `last`, all of which were mapped. -/
theorem Tables.unmappagesLoop_spec {n : Nat} {s' : Mm} (h : Tables lo s roots node chain held) (hr : roots r)
    (ha : Aligned a) (hret : unmappagesLoop r last n a s = .ret s') :
    ∃ k, 0 < k ∧ last.toNat + 4096 = a.toNat + 4096 * k ∧ Tables lo s' roots node chain held ∧
      (∀ i < k, a.toNat / 4096 + i < 2^26 ∧ pteValid (leafAt s.mem node r (a.toNat / 4096 + i)) = true) ∧
      leafAt s'.mem node = setLeaves (leafAt s.mem node) r (a.toNat / 4096) k fun _ => 0#64 := by
  induction n generalizing s a with
  | zero => simp [unmappagesLoop] at hret
  | succ n ih =>
    by_cases hva : a.toNat < 2^38
    · rw [unmappagesLoop, h.walk_lookup hr a hva] at hret
      cases hn : node (r, leafPath (a.toNat / 4096)) with
      | none => simp [hn] at hret
      | some p =>
        simp only [hn] at hret
        by_cases hbad : slot p (a.toNat / 4096 % 512) = 0#64 ∨
            (!pteValid (s.mem (slot p (a.toNat / 4096 % 512)))) = true
        · rw [if_pos hbad] at hret
          cases hret
        obtain ⟨hset, hleaf⟩ := h.setLeaf hn 0#64
        have hvalid : pteValid (leafAt s.mem node r (a.toNat / 4096)) = true := by
          rw [leafAt_some hn]
          simpa using (not_or.mp hbad).2
        have hfirst : a.toNat / 4096 < 2^26 ∧ pteValid (leafAt s.mem node r (a.toNat / 4096)) = true :=
          ⟨by omega, hvalid⟩
        rw [if_neg hbad] at hret
        by_cases hend : a = last
        · subst hend
          simp only [if_true, Outcome.ret.injEq] at hret
          subst hret
          refine ⟨1, by omega, by omega, hset, pages_succ hleaf hfirst (by simp), ?_⟩
          rw [← setLeaves_succ (w := fun _ => 0#64) hleaf 0, setLeaves_zero]
        · simp only [hend, if_false] at hret
          obtain ⟨ha', hnat⟩ := page_succ ha hva
          obtain ⟨k, hk, hlast, h₂, hpages, hleaves⟩ := ih hset ha' hret
          have hpage : (a.toNat + 4096) / 4096 = a.toNat / 4096 + 1 := by omega
          rw [hnat, hpage, setLeaves_succ (w := fun _ => 0#64) hleaf] at hleaves
          rw [hnat, hpage] at hpages
          exact ⟨k+1, by omega, by omega, h₂, pages_succ hleaf hfirst hpages, hleaves⟩
    · simp [unmappagesLoop, walk_null hva] at hret

theorem unmappagesLoop_maps {n : Nat} {s' : Mm}
    (h : VmInv lo s maps others node chain held) (hm : maps r = some m)
    (ha : Aligned a) (hret : unmappagesLoop r last n a s = .ret s') :
    a.toNat ≤ last.toNat ∧ VmInv lo s' (Function.update maps r (some (m.unmapRange (a.toNat / 4096)
      (last.toNat / 4096 - a.toNat / 4096 + 1)))) others node chain held := by
  obtain ⟨k, hk, hlast, ht, hpages, hleaves⟩ := h.tables.unmappagesLoop_spec (r := r) (by simp [hm]) ha hret
  have hcount : last.toNat / 4096 - a.toNat / 4096 + 1 = k := by
    simp only [Aligned] at ha
    omega
  rw [hcount]
  refine ⟨by omega, h.replaceLeaves (P := fun _ => True) hm ht .refl hleaves ?_ ?_⟩
  · intro u
    rw [PageMap.unmapRange]
    split <;> rfl
  · intro u hu
    rw [PageMap.unmapRange, h.bounded r m u hm hu, ite_self]

theorem round_toNat (x : Word) : (x / pgSize * pgSize).toNat = x.toNat / 4096 * 4096 := by
  have hlt := x.isLt
  simp only [pgSize, BitVec.toNat_mul, BitVec.toNat_udiv, BitVec.toNat_ofNat, Nat.reducePow,
    Nat.reduceMod]
  omega

theorem round_aligned (x : Word) : Aligned (x / pgSize * pgSize) := by
  simp only [Aligned, round_toNat]
  omega

/-- The last page of a range that does not wrap around. -/
theorem last_toNat {va size : Word} (hsize : size ≠ 0#64) (h : va.toNat + size.toNat ≤ 2^38) :
    ((va + size - 1#64) / pgSize * pgSize).toNat = (va.toNat + size.toNat - 1) / 4096 * 4096 := by
  have hpos : size.toNat ≠ 0 := fun hz => hsize (BitVec.eq_of_toNat_eq hz)
  rw [round_toNat]
  simp only [BitVec.toNat_sub, BitVec.toNat_add, BitVec.toNat_ofNat]
  omega

end Loops

/-- The leaf entry `walk(pt, va, 0)` finds; 0 when it finds none. -/
def leafPte (s : Mm) (pt va : Word) : Word :=
  let pte := (walk s pt va false).1
  if pte = 0#64 then 0#64 else s.mem pte

/-- The tables of `pt` and the reads through them agree with the map `m`. -/
structure Refines (s : Mm) (pt : Word) (m : PageMap) : Prop where
  valid : ∀ va, pteValid (leafPte s pt va) = (m (va.toNat / 4096)).isSome
  mapped : ∀ va e, m (va.toNat / 4096) = some e → leafPte s pt va = e.pte ∧
    va2pa s pt va = e.base + (va &&& 4095#64) ∧ walkaddr s pt va = e.base
  unmapped : ∀ va, m (va.toNat / 4096) = none → va2pa s pt va = 0#64 ∧ walkaddr s pt va = 0#64

section Reads

variable {lo : Nat} {s : Mm} {roots : Word → Prop} {maps : Word → Option PageMap} {others : List Word}
  {node : Nodes} {chain held : List Word} {r : Word} {m : PageMap}

/-- The leaf that `walk` finds is the one of the tree. -/
theorem Tables.leafPte_eq (h : Tables lo s roots node chain held) (hlo : 0 < lo) (hr : roots r) (va : Word) :
    leafPte s r va = if va.toNat < 2^38 then leafAt s.mem node r (va.toNat / 4096) else 0#64 := by
  by_cases hva : va.toNat < 2^38
  · simp only [leafPte, h.walk_lookup hr va hva, if_pos hva]
    cases hn : node (r, leafPath (va.toNat / 4096)) with
    | none => rw [leafAt_none hn, if_pos rfl]
    | some p => rw [leafAt_some hn, if_neg (h.slot_ne_zero hlo hn (Nat.mod_lt _ (by decide)))]
  · rw [leafPte, walk_null hva, if_neg hva, if_pos rfl]

theorem VmInv.leafPte_eq (h : VmInv lo s maps others node chain held) (hlo : 0 < lo)
    (hm : maps r = some m) (va : Word) : leafPte s r va = leafWord (m (va.toNat / 4096)) := by
  rw [h.tables.leafPte_eq hlo (r := r) (by simp [hm]) va]
  split
  · next hva => exact leaves_iff.mp h.leaves r m hm _ (by omega)
  · next hva => rw [h.bounded r m _ hm (show 2^26 ≤ va.toNat / 4096 by omega), leafWord]

theorem va2pa_eq (s : Mm) (pt va : Word) : va2pa s pt va =
    if pteValid (leafPte s pt va) then pte2pa (leafPte s pt va) + (va &&& 4095#64) else 0#64 := by
  have hmask : pgSize - 1#64 = 4095#64 := by decide
  simp only [va2pa, leafPte, hmask]
  by_cases hz : (walk s pt va false).1 = 0#64
  · simp [hz, pteValid_zero]
  · cases hv : pteValid (s.mem (walk s pt va false).1) <;> simp [hz, hv]

theorem walkaddr_eq (s : Mm) (pt va : Word) : walkaddr s pt va =
    if pteValid (leafPte s pt va) then pte2pa (leafPte s pt va) else 0#64 := by
  simp only [walkaddr, leafPte]
  by_cases hva : va ≥ maxVa
  · simp [walk, hva, pteValid_zero]
  · by_cases hz : (walk s pt va false).1 = 0#64
    · simp [hva, hz, pteValid_zero]
    · cases hv : pteValid (s.mem (walk s pt va false).1) <;> simp [hva, hz, hv]

theorem VmInv.refines (h : VmInv lo s maps others node chain held) (hlo : 0 < lo)
    (hm : maps r = some m) : Refines s r m := by
  refine ⟨?_, ?_, ?_⟩
  · intro va
    rw [h.leafPte_eq hlo hm, pteValid_leafWord]
  · intro va e he
    have hl : leafPte s r va = e.pte := by rw [h.leafPte_eq hlo hm, he, leafWord]
    rw [va2pa_eq, walkaddr_eq, hl, e.pteValid_pte, e.pte2pa_pte]
    exact ⟨rfl, rfl, rfl⟩
  · intro va hnone
    have hl : leafPte s r va = 0#64 := by rw [h.leafPte_eq hlo hm, hnone, leafWord]
    rw [va2pa_eq, walkaddr_eq, hl, pteValid_zero]
    exact ⟨rfl, rfl⟩

end Reads

end RiscvOs.Vm
