import RiscvOs.AddressSpaces
import RiscvOs.Trees
set_option autoImplicit false

/-!
Giving back a page table. `vm_free` walks the tree of tables in memory and pushes each
of them on the free list after the ones below it; it tells the entries that point to
tables from the leaves by their access rights.
-/

namespace RiscvOs.Vm
open WordMemory PageAlloc Runs Trees

section Entries

theorem shiftLeft_and_low (x : Word) {g : Word} (hg : g.toNat < 2^10) : x <<< 10 &&& g = 0#64 := by
  apply BitVec.eq_of_getLsbD_eq
  intro i hi
  by_cases hlow : i < 10
  · simp [hlow]
  · have hbit : g.getLsbD i = false :=
      Nat.testBit_lt_two_pow (Nat.lt_of_lt_of_le hg (Nat.pow_le_pow_right (by decide) (by omega)))
    simp [hbit]

theorem pteTable_low (x : Word) {f : Word} : pteTable (x <<< 10 ||| f) = pteTable f := by
  have h (g : Word) (hg : g.toNat < 2^10) : (x <<< 10 ||| f) &&& g = f &&& g := by
    rw [BitVec.and_comm, BitVec.and_or_distrib_left, BitVec.and_comm g (x <<< 10), shiftLeft_and_low x hg,
      BitVec.zero_or, BitVec.and_comm]
  simp only [pteTable, pteValid, h pteV (by decide), h (pteR ||| pteW ||| pteX) (by decide)]

theorem pteTable_link (q : Word) : pteTable (pa2pte q ||| pteV) = true := by
  rw [pa2pte, pteTable_low]
  decide

theorem pteTable_flags : ∀ f : BitVec 10,
    pteTable ((f ||| 1#10).setWidth 64) = true ↔ f &&& 14#10 = 0#10 := by
  decide +kernel

theorem pteTable_entryOf (ppn : Nat) (perm : BitVec 32) :
    pteTable (entryOf ppn perm).pte = true ↔ perm &&& 14#32 = 0#32 := by
  have hle : perm.toNat &&& 14 ≤ 14 := Nat.and_le_right
  rw [Entry.pte, pteTable_low, entryOf, pteTable_flags]
  simp only [← BitVec.toNat_inj, BitVec.toNat_and, BitVec.toNat_ofNat, Nat.reducePow, Nat.reduceMod]
  have hmod : perm.toNat % 1024 &&& 14 = perm.toNat &&& 14 := by
    have h := Nat.and_mod_two_pow (a := perm.toNat) (b := 14) (n := 10)
    rw [Nat.mod_eq_of_lt (show perm.toNat &&& 14 < 2^10 by omega)] at h
    exact h.symm
  rw [hmod]

end Entries

section Freeing

/-- The table that an entry of the table `p` points to, as `vm_free` reads it. -/
def tableChild (mem : Mem) (p : Word) (i : Nat) : Option Word :=
  if pteTable (mem (slot p i)) then some (pte2pa (mem (slot p i))) else none

/-- `free_page` on each of the pages in turn. -/
def Freeing.freeAll (s : Freeing) (pages : List Word) : Freeing :=
  pages.foldl (fun s page => s.freePage page) s

theorem freeAll_append (s : Freeing) (ps qs : List Word) :
    s.freeAll (ps ++ qs) = (s.freeAll ps).freeAll qs := List.foldl_append

theorem freeAll_freed (s : Freeing) (ps : List Word) : (s.freeAll ps).freed = s.freed ++ ps := by
  induction ps generalizing s with
  | nil => simp [Freeing.freeAll]
  | cons p ps ih =>
    have hrec := ih (s.freePage p)
    simpa [Freeing.freeAll, Freeing.freePage] using hrec

/-- Pages that are not freed keep their words. -/
theorem freeAll_mem {s : Freeing} {ps : List Word} {q : Word} {j : Nat} (hq : Aligned q)
    (hps : ∀ p ∈ ps, Aligned p) (hn : q ∉ ps) (hj : j < 512) :
    (s.freeAll ps).mm.mem (slot q j) = s.mm.mem (slot q j) := by
  induction ps generalizing s with
  | nil => rfl
  | cons p ps ih =>
    have hstep : (s.freePage p).mm.mem (slot q j) = s.mm.mem (slot q j) := by
      have hne : p ≠ slot q j := ne_slot_of_ne hq (hps p (by simp)) hj fun he => hn (by simp [he])
      simp only [Freeing.freePage, PageAlloc.freePage]
      split
      · rfl
      · exact Function.update_of_ne hne.symm _ _
    have hrec := ih (s := s.freePage p) (fun x hx => hps x (by simp [hx])) (fun hm => hn (by simp [hm]))
    exact hrec.trans hstep

/-- The tables below the entries `is` of the table `p`, when the tables below it have height `n`. -/
def tablesBelow (mem : Mem) (n : Nat) (p : Word) (is : List Nat) : List Word :=
  is.flatMap fun i => (tableChild mem p i).elim [] (postorder (tableChild mem) 512 n)

/-- The words of the pages are those of `mem`. -/
def Agrees (mem : Mem) (s : Freeing) (pages : List Word) : Prop :=
  ∀ x ∈ pages, ∀ j < 512, s.mm.mem (slot x j) = mem (slot x j)

theorem Agrees.freeAll {mem : Mem} {s : Freeing} {ps qs : List Word} (h : Agrees mem s qs)
    (hps : ∀ x ∈ ps, Aligned x) (hqs : ∀ x ∈ qs, Aligned x) (hd : ps.Disjoint qs) :
    Agrees mem (s.freeAll ps) qs := by
  intro x hx j hj
  rw [freeAll_mem (hqs x hx) hps (fun hm => hd hm hx) hj]
  exact h x hx j hj

/-- The trees below the entries of `p` are freed one after the other: freeing one of them does
not touch the words of `p` or of the trees that are still to be freed. -/
theorem vmFreeLoop_eq {mem : Mem} {free : Word → Freeing → Outcome Freeing} {n : Nat} {p : Word}
    {is : List Nat} {s : Freeing}
    (hfree : ∀ i ∈ is, ∀ q, tableChild mem p i = some q → ∀ s,
      Agrees mem s (postorder (tableChild mem) 512 n q) →
      free q s = .ret (s.freeAll (postorder (tableChild mem) 512 n q)))
    (his : ∀ i ∈ is, i < 512) (hnd : (tablesBelow mem n p is ++ [p]).Nodup)
    (hal : ∀ x ∈ tablesBelow mem n p is ++ [p], Aligned x)
    (hmem : Agrees mem s (tablesBelow mem n p is ++ [p])) :
    vmFreeLoop free p is s = .ret (s.freeAll (tablesBelow mem n p is)) := by
  induction is generalizing s with
  | nil => rfl
  | cons i is ih =>
    have hword := hmem p (by simp) i (his i (by simp))
    have hfree' (j : Nat) (hj : j ∈ is) := hfree j (List.mem_cons_of_mem i hj)
    have his' (j : Nat) (hj : j ∈ is) := his j (List.mem_cons_of_mem i hj)
    cases hc : tableChild mem p i with
    | none =>
      have hno : pteTable (mem (slot p i)) = false := by simpa [tableChild] using hc
      have hbelow : tablesBelow mem n p (i :: is) = tablesBelow mem n p is := by
        simp [tablesBelow, hc]
      rw [hbelow] at hnd hal hmem ⊢
      rw [vmFreeLoop, hword, hno]
      exact ih hfree' his' hnd hal hmem
    | some q =>
      have hyes : pteTable (mem (slot p i)) = true ∧ pte2pa (mem (slot p i)) = q := by
        simpa [tableChild] using hc
      have hbelow : tablesBelow mem n p (i :: is) =
          postorder (tableChild mem) 512 n q ++ tablesBelow mem n p is := by
        simp [tablesBelow, hc]
      rw [hbelow, List.append_assoc] at hnd hal hmem
      obtain ⟨_, hnd', hdis⟩ := List.nodup_append'.mp hnd
      have hal' (x : Word) (hx : x ∈ tablesBelow mem n p is ++ [p]) : Aligned x :=
        hal x (List.mem_append_right _ hx)
      have hq := hfree i (by simp) q hc s fun x hx => hmem x (List.mem_append_left _ hx)
      rw [vmFreeLoop, hword, hyes.1, hyes.2, if_pos rfl, hq, Outcome.bind, hbelow, freeAll_append]
      refine ih hfree' his' hnd' hal' (Agrees.freeAll ?_ ?_ hal' hdis)
      · exact fun x hx => hmem x (List.mem_append_right _ hx)
      · exact fun x hx => hal x (List.mem_append_left _ hx)

/-- `vm_free` of a tree of tables is `free_page` of its tables, each after the ones below it. -/
theorem vmFree_eq {mem : Mem} {n k : Nat} {p : Word} {s : Freeing} (hk : n < k)
    (hh : HeightLe (tableChild mem) 512 n p) (hnd : (postorder (tableChild mem) 512 n p).Nodup)
    (hal : ∀ x ∈ postorder (tableChild mem) 512 n p, Aligned x)
    (hmem : Agrees mem s (postorder (tableChild mem) 512 n p)) :
    vmFree k p s = .ret (s.freeAll (postorder (tableChild mem) 512 n p)) := by
  induction n generalizing k p s with
  | zero =>
    obtain ⟨k, rfl⟩ : ∃ k', k = k' + 1 := ⟨k - 1, by omega⟩
    have hnone (i : Nat) (hi : i < 512) : tableChild mem p i = none := hh i hi
    have hbelow : tablesBelow mem 0 p (List.range 512) = [] := by
      simp only [tablesBelow, List.flatMap_eq_nil_iff, List.mem_range]
      intro i hi
      simp [hnone i hi]
    have hloop : vmFreeLoop (vmFree k) p (List.range 512) s =
        .ret (s.freeAll (tablesBelow mem 0 p (List.range 512))) := by
      refine vmFreeLoop_eq ?_ (fun i hi => List.mem_range.mp hi) ?_ ?_ ?_
      · intro i hi q hq
        simp [hnone i (List.mem_range.mp hi)] at hq
      · simp [hbelow]
      · rw [hbelow]
        exact hal
      · rw [hbelow]
        exact hmem
    rw [vmFree, hloop, Outcome.bind, hbelow]
    rfl
  | succ n ih =>
    obtain ⟨k, rfl⟩ : ∃ k', k = k' + 1 := ⟨k - 1, by omega⟩
    have hpost : postorder (tableChild mem) 512 (n+1) p = tablesBelow mem n p (List.range 512) ++ [p] := rfl
    rw [hpost] at hnd hal hmem
    have hloop : vmFreeLoop (vmFree k) p (List.range 512) s =
        .ret (s.freeAll (tablesBelow mem n p (List.range 512))) := by
      refine vmFreeLoop_eq ?_ (fun i hi => List.mem_range.mp hi) hnd hal hmem
      intro i hi q hq t ht
      have hsub (x : Word) (hx : x ∈ postorder (tableChild mem) 512 n q) :
          x ∈ tablesBelow mem n p (List.range 512) :=
        List.mem_flatMap.mpr ⟨i, hi, by simpa [hq] using hx⟩
      have hsubs := (List.nodup_flatMap.mp (List.nodup_append'.mp hnd).1).1 i hi
      rw [hq] at hsubs
      exact ih (by omega) (hh i (List.mem_range.mp hi) q hq) hsubs
        (fun x hx => hal x (List.mem_append_left _ (hsub x hx))) ht
    rw [vmFree, hloop, Outcome.bind, hpost, freeAll_append]
    rfl

end Freeing

section Tables

variable {lo : Nat} {s : Mm} {maps : Word → Option PageMap} {others : List Word}
  {node : Nodes} {chain held : List Word} {r p : Word} {m : PageMap}

theorem VmInv.tableChild_node (h : VmInv lo s maps others node chain held) {is : List Nat} {i : Nat}
    (hp : node (r, is) = some p) (hlen : is.length < 2) (hi : i < 512) :
    tableChild s.mem p i = node (r, is ++ [i]) := by
  rw [tableChild, h.forest.entry r is p i hp hlen hi]
  cases hq : node (r, is ++ [i]) with
  | none => rfl
  | some q => simp [pteTable_link, pte2pa_pa2pte (h.aligned hq)]

/-- A map whose entries all have access rights, so that no leaf looks like a table. -/
def PageMap.Leafy (m : PageMap) : Prop := ∀ v e, m v = some e → pteTable e.pte = false

theorem VmInv.tableChild_leaf (h : VmInv lo s maps others node chain held) (hm : maps r = some m)
    (hleaf : m.Leafy) {is : List Nat} {i : Nat} (hp : node (r, is) = some p) (hlen : is.length = 2)
    (his : ∀ j ∈ is, j < 512) (hi : i < 512) : tableChild s.mem p i = none := by
  obtain ⟨a, b, rfl⟩ := List.length_eq_two.mp hlen
  simp only [List.mem_cons, List.not_mem_nil, or_false, forall_eq_or_imp, forall_eq] at his
  have hpath : leafPath (a * 2^18 + b * 2^9 + i) = [a, b] := by
    simp only [leafPath, List.cons.injEq, and_true]
    omega
  have hidx : (a * 2^18 + b * 2^9 + i) % 512 = i := by omega
  have hl := h.leaves r m hm (a * 2^18 + b * 2^9 + i) (by omega)
  simp only [hpath, hp, hidx] at hl
  rw [tableChild, hl]
  cases he : m (a * 2^18 + b * 2^9 + i) with
  | none => rfl
  | some e => simp [leafWord, hleaf _ e he]

/-- The paths that `vm_free` takes through memory are those of the tree. -/
theorem VmInv.descend_node (h : VmInv lo s maps others node chain held) {is js : List Nat}
    (hp : node (r, is) = some p) (hjs : Path 512 (2 - is.length) js) :
    descend (tableChild s.mem) p js = node (r, is ++ js) := by
  induction js generalizing is p with
  | nil => simp [descend, hp]
  | cons j js ih =>
    obtain ⟨hlen, hidx⟩ := hjs
    simp only [List.length_cons, List.mem_cons, forall_eq_or_imp] at hlen hidx
    rw [descend, h.tableChild_node hp (by omega) hidx.1]
    cases hq : node (r, is ++ [j]) with
    | none =>
      have hnone := h.tables.children_none js hq
      simpa using hnone.symm
    | some q =>
      have hrec := ih hq ⟨by simp; omega, hidx.2⟩
      simpa using hrec

theorem VmInv.heightLe (h : VmInv lo s maps others node chain held) (hm : maps r = some m)
    (hleaf : m.Leafy) {is : List Nat} {n : Nat} (hp : node (r, is) = some p)
    (hlen : is.length + n = 2) (his : ∀ j ∈ is, j < 512) :
    HeightLe (tableChild s.mem) 512 n p := by
  induction n generalizing is p with
  | zero => exact fun i hi => h.tableChild_leaf hm hleaf hp hlen his hi
  | succ n ih =>
    intro i hi q hq
    rw [h.tableChild_node hp (by omega) hi] at hq
    refine ih hq (by simp; omega) ?_
    simp only [List.mem_append, List.mem_singleton]
    rintro j (hj | rfl)
    · exact his j hj
    · exact hi

theorem VmInv.pathsInj (h : VmInv lo s maps others node chain held) (hm : maps r = some m) :
    PathsInj (tableChild s.mem) 512 2 r := by
  intro is js q his hjs hi hj
  rw [h.descend_node (h.node_root hm) his] at hi
  rw [h.descend_node (h.node_root hm) hjs] at hj
  simpa using h.forest.inj _ _ _ hi hj

theorem VmInv.mem_postorder (h : VmInv lo s maps others node chain held) (hm : maps r = some m)
    (q : Word) : q ∈ postorder (tableChild s.mem) 512 2 r ↔
      ∃ js, Path 512 2 js ∧ node (r, js) = some q := by
  rw [mem_postorder_iff]
  constructor
  · rintro ⟨js, hjs, hd⟩
    rw [h.descend_node (h.node_root hm) hjs] at hd
    exact ⟨js, hjs, hd⟩
  · rintro ⟨js, hjs, hd⟩
    rw [← List.nil_append js, ← h.descend_node (h.node_root hm) hjs] at hd
    exact ⟨js, hjs, hd⟩

/-- `vm_free` of a root is `free_page` of its tables. -/
theorem VmInv.vmFree_tables (h : VmInv lo s maps others node chain held) (hm : maps r = some m)
    (hleaf : m.Leafy) {depth : Nat} (hd : 3 ≤ depth) :
    vmFree depth r ⟨s, []⟩ =
      .ret (Freeing.freeAll ⟨s, []⟩ (postorder (tableChild s.mem) 512 2 r)) := by
  refine vmFree_eq hd (h.heightLe hm hleaf (h.node_root hm) rfl (by simp))
    (postorder_nodup (h.pathsInj hm)) ?_ (fun x _ j _ => rfl)
  intro x hx
  obtain ⟨js, _, hx⟩ := (h.mem_postorder hm x).mp hx
  exact h.aligned hx

end Tables

section Runs

variable {lo : Nat} {chain held : List Word} {pt : Word}

theorem Freeing.freeAll_split {s : Freeing} {ps rest : List Word} (hlo : 0 < lo)
    (h : Split lo s.mm chain held) (hp : held.Perm (ps ++ rest)) :
    Split lo (s.freeAll ps).mm (ps.reverse ++ chain) rest := by
  induction ps generalizing s chain held with
  | nil => exact h.of_perm hp
  | cons p ps ih =>
    have hmem : p ∈ held := hp.mem_iff.mpr (by simp)
    have herase : (held.erase p).Perm (ps ++ rest) := by simpa using hp.erase p
    have hrec := ih (s := s.freePage p) (h.free hlo hmem) herase
    simpa [Freeing.freeAll] using hrec

/-- The pages that the growing tree has taken from the front of the free list. -/
structure Taken (chain₀ held₀ : List Word) (node : Nodes) (chain held new : List Word) : Prop where
  chain : chain₀ = new.reverse ++ chain
  held : held = new ++ held₀
  tables : ∀ p, p ∈ new ↔ ∃ k, node k = some p

theorem Grows.keys {P : Word × List Nat → Prop} {node node' : Nodes} {chain' held' : List Word}
    (h : Grows P node chain held node' chain' held') (hs : ∀ k p, node k = some p → P k) :
    ∀ k p, node' k = some p → P k := by
  refine h.invariant (I := fun node _ _ => ∀ k p, node k = some p → P k) ?_ hs
  intro node k q _ _ hk _ hall k' p hk'
  rcases update_node_cases hk' with hnew | hold
  · exact hnew.1 ▸ hk
  · exact hall k' p hold

theorem Grows.taken {P : Word × List Nat → Prop} {node : Nodes} {chain₀ held₀ : List Word}
    (h : Grows P (fun _ => none) chain₀ held₀ node chain held) : ∃ new, Taken chain₀ held₀ node chain held new := by
  refine h.invariant (I := fun node chain held => ∃ new, Taken chain₀ held₀ node chain held new) ?_
    ⟨[], by simp, by simp, by simp⟩
  rintro node k q qs held _ hnone ⟨new, ht⟩
  refine ⟨q :: new, by simpa using ht.chain, by simp [ht.held], ?_⟩
  intro p
  rw [List.mem_cons, ht.tables]
  constructor
  · rintro (rfl | ⟨k', hk'⟩)
    · exact ⟨k, Function.update_self ..⟩
    · exact ⟨k', update_node_of_some hnone hk'⟩
  · rintro ⟨k', hk'⟩
    rcases update_node_cases hk' with hnew | hold
    · exact .inl hnew.2
    · exact .inr ⟨k', hold⟩

inductive TableCall where
  | mappages (va size pa : Word) (perm : BitVec 32)
  | unmappages (va size : Word)

/-- A call on the table `pt` that returns, with success or with failure. -/
inductive TableStep (pt : Word) (s : Mm) : TableCall → Mm → Prop
  | mappages {va size pa : Word} {perm : BitVec 32} {c : Int} {mm : Mm} (hperm : perm.toNat < 1024)
      (hrights : perm &&& (pteR ||| pteW ||| pteX).setWidth 32 ≠ 0#32)
      (hret : mappages s pt va size pa perm = .ret (c, mm)) :
      TableStep pt s (.mappages va size pa perm) mm
  | unmappages {va size : Word} {mm : Mm} (hret : unmappages s pt va size = .ret mm) :
      TableStep pt s (.unmappages va size) mm

/-- The table `pt` has grown from an allocator with the free list `chain₀`. -/
def TableInv (lo : Nat) (chain₀ held₀ : List Word) (pt : Word) (s : Mm) : Prop :=
  ∃ m node chain held, VmInv lo s (Function.update (fun _ => none) pt (some m)) held₀ node chain held ∧
    m.Leafy ∧ Grows (TableKey pt) (fun _ => none) chain₀ held₀ node chain held

theorem TableInv.create {s : Mm} {held₀ chain₀ : List Word} {mm : Mm} (h : Split lo s chain₀ held₀)
    (hc : vmCreateUserPagetable s = (pt, mm)) (hpt : pt ≠ 0#64) : TableInv lo chain₀ held₀ pt mm := by
  cases chain₀ with
  | nil =>
    simp only [vmCreateUserPagetable, h.alloc_nil, Prod.mk.injEq] at hc
    exact absurd hc.1.symm hpt
  | cons q qs =>
    have hq : (allocPage s).1 = q := by rw [h.alloc_eq]
    have hcreate := (VmInv.empty h).create
    simp only [vmCreateUserPagetable] at hc
    rw [hc] at hcreate hq
    subst hq
    refine ⟨_, _, _, _, hcreate, ?_, .link ⟨rfl, 0, by decide, List.nil_prefix⟩ rfl .refl⟩
    intro v e he
    cases he

theorem PageMap.Leafy.mapRange {m : PageMap} (h : m.Leafy) (v n ppn : Nat) {perm : BitVec 32}
    (hperm : perm &&& 14#32 ≠ 0#32) : (m.mapRange v n ppn perm).Leafy := by
  intro w e he
  simp only [PageMap.mapRange] at he
  split at he
  · cases he
    rwa [Bool.eq_false_iff, ne_eq, pteTable_entryOf]
  · exact h w e he

theorem PageMap.Leafy.unmapRange {m : PageMap} (h : m.Leafy) (v n : Nat) : (m.unmapRange v n).Leafy := by
  intro w e he
  simp only [PageMap.unmapRange] at he
  split at he
  · cases he
  · exact h w e he

theorem TableInv.step {s t : Mm} {held₀ chain₀ : List Word} {c : TableCall}
    (h : TableInv lo chain₀ held₀ pt s) (hstep : TableStep pt s c t) : TableInv lo chain₀ held₀ pt t := by
  obtain ⟨m, node, chain, held, hinv, hleaf, hgrow⟩ := h
  have hm : Function.update (fun _ => none) pt (some m) pt = some m := Function.update_self ..
  cases hstep with
  | mappages hperm hrights hret =>
    obtain ⟨k, node', chain', held', hinv', hgrow', _⟩ := hinv.mappages_prefix hm hperm hret
    rw [Function.update_idem] at hinv'
    exact ⟨_, node', chain', held', hinv', hleaf.mapRange _ _ _ hrights, hgrow.trans hgrow'⟩
  | @unmappages va size _ hret =>
    by_cases hsize : size = 0#64
    · simp only [unmappages, hsize, if_true, Outcome.ret.injEq] at hret
      subst hret
      exact ⟨m, node, chain, held, hinv, hleaf, hgrow⟩
    · obtain ⟨k, hinv', _⟩ := hinv.unmappages_maps hm hsize hret
      rw [Function.update_idem] at hinv'
      exact ⟨_, node, chain, held, hinv', hleaf.unmapRange _ _, hgrow⟩

theorem path_of_tableKey {js : List Nat} (h : TableKey pt (pt, js)) : Path 512 2 js := by
  obtain ⟨_, v, hv, hpre⟩ := h
  refine ⟨hpre.length_le, ?_⟩
  intro i hi
  have hm := hpre.subset hi
  simp only [leafPath, List.mem_cons, List.not_mem_nil, or_false] at hm
  omega

/-- What `vm_free` does to the allocator that the table was built from. -/
theorem TableInv.vmFree {s : Mm} {held₀ chain₀ : List Word} (h : TableInv lo chain₀ held₀ pt s)
    (hlo : 0 < lo) {depth : Nat} (hd : 3 ≤ depth) :
    ∃ t chain, vmFree depth pt ⟨s, []⟩ = .ret t ∧ Chain s.mem 0#64 s.freePages chain ∧ t.freed.Nodup ∧
      (∀ p, p ∈ t.freed ↔ p ∈ chain₀ ∧ p ∉ chain) ∧
      (t.freed.reverse ++ chain).Perm chain₀ ∧ Split lo t.mm (t.freed.reverse ++ chain) held₀ := by
  obtain ⟨m, node, chain, held, hinv, hleaf, hgrow⟩ := h
  have hm : Function.update (fun _ => none) pt (some m) pt = some m := Function.update_self ..
  obtain ⟨new, htaken⟩ := hgrow.taken
  have hkeys := hgrow.keys (by simp)
  have hnd := hinv.split.nodup
  rw [htaken.held, ← List.append_assoc] at hnd
  have hnew := (List.nodup_append'.mp (List.nodup_append'.mp hnd).1)
  have hfreed := postorder_nodup (hinv.pathsInj hm)
  have hmem (p : Word) : p ∈ postorder (tableChild s.mem) 512 2 pt ↔ p ∈ new := by
    rw [hinv.mem_postorder hm, htaken.tables]
    constructor
    · rintro ⟨js, _, hjs⟩
      exact ⟨_, hjs⟩
    · rintro ⟨⟨r, js⟩, hjs⟩
      have hk := hkeys _ _ hjs
      obtain rfl : r = pt := hk.1
      exact ⟨js, path_of_tableKey hk, hjs⟩
  have hperm := (List.perm_ext_iff_of_nodup hfreed hnew.2.1).mpr hmem
  refine ⟨_, chain, hinv.vmFree_tables hm hleaf hd, hinv.split.linked, ?_⟩
  rw [freeAll_freed, List.nil_append]
  refine ⟨hfreed, ?_, ?_, ?_⟩
  · intro p
    rw [hmem, htaken.chain, List.mem_append, List.mem_reverse]
    constructor
    · intro hp
      exact ⟨.inl hp, fun hc => hnew.2.2 hc hp⟩
    · rintro ⟨hp | hp, hn⟩
      · exact hp
      · exact absurd hp hn
  · rw [htaken.chain]
    exact ((List.reverse_perm _).trans (hperm.trans (List.reverse_perm _).symm)).append_right chain
  · refine Freeing.freeAll_split hlo hinv.split ?_
    rw [htaken.held]
    exact hperm.symm.append_right held₀

end Runs

/-- A table is created in any reachable state of the allocator and its clients, and any calls are
made on it that return. Then `vm_free` ends, has freed the pages that left the free list since
the creation, each once and no others, and the free list has its old pages again. -/
theorem vm_free_returns_tables {l : Layout} {mem : Mem} {calls : List AllocCall} {s : AllocSys}
    (hl : l.InRam) (h : Run (guarded AllocSys.Ok AllocSys.exec) (AllocSys.start l mem) calls s)
    {pt : Word} {mm mm' : Mm} {tcalls : List TableCall}
    (hc : vmCreateUserPagetable s.mm = (pt, mm)) (hpt : pt ≠ 0#64)
    (hr : Run (TableStep pt) mm tcalls mm') {depth : Nat} (hd : 3 ≤ depth) :
    ∃ t chain₀ chain, vmFree depth pt ⟨mm', []⟩ = .ret t ∧
      Split (roundUp l.heapEnd.toNat) s.mm chain₀ s.held ∧
      Chain mm'.mem 0#64 mm'.freePages chain ∧ t.freed.Nodup ∧
      (∀ p, p ∈ t.freed ↔ p ∈ chain₀ ∧ p ∉ chain) ∧
      Split (roundUp l.heapEnd.toNat) t.mm (t.freed.reverse ++ chain) s.held ∧
      (t.freed.reverse ++ chain).Perm chain₀ ∧ t.mm.numFreePages = s.mm.numFreePages := by
  obtain ⟨chain₀, hs⟩ := AllocSys.run_split hl h
  have hinv := hr.invariant (TableInv (roundUp l.heapEnd.toNat) chain₀ s.held pt)
    (fun s c t hs hstep => hs.step hstep) (.create hs hc hpt)
  obtain ⟨t, chain, hfree, hchain, hnd, hmem, hperm, hsplit⟩ := hinv.vmFree hl.roundUp_pos hd
  refine ⟨t, chain₀, chain, hfree, hs, hchain, hnd, hmem, hsplit, hperm, ?_⟩
  apply BitVec.eq_of_toNat_eq
  rw [hsplit.count, hs.count, hperm.length_eq]

/-- All three free pages become tables, so that the second mapping fails halfway. -/
theorem vm_free_returns_tables_smallLayout : ∃ mm mm' t,
    vmCreateUserPagetable (mmInit smallLayout (fun _ => 7#64)) = (0x87FFD000#64, mm) ∧
    Run (TableStep 0x87FFD000#64) mm [.mappages 0x1000#64 4096#64 0x80100000#64 0x16#32,
      .mappages 0x40000000#64 4096#64 0x80100000#64 0x2#32] mm' ∧
    vmFree 3 0x87FFD000#64 ⟨mm', []⟩ = .ret t ∧
    t.mm.numFreePages = (mmInit smallLayout (fun _ => 7#64)).numFreePages := by
  have hl : smallLayout.InRam := by decide +kernel
  obtain ⟨mm, hmm⟩ : ∃ mm, vmCreateUserPagetable (mmInit smallLayout (fun _ => 7#64)) =
      (0x87FFD000#64, mm) :=
    ⟨_, Prod.ext (by decide +kernel) rfl⟩
  have hcode : ((mappages (vmCreateUserPagetable (mmInit smallLayout (fun _ => 7#64))).2
      0x87FFD000#64 0x1000#64 4096#64 0x80100000#64 0x16#32).bind fun r =>
        mappages r.2 0x87FFD000#64 0x40000000#64 4096#64 0x80100000#64 0x2#32).code = some (-1) := by
    decide +kernel
  rw [hmm] at hcode
  obtain ⟨mm', hmm'⟩ := Outcome.eq_ret_of_code hcode
  obtain ⟨r, hr, hmm'⟩ := Outcome.bind_eq_ret.mp hmm'
  have hrun : Run (TableStep 0x87FFD000#64) mm [.mappages 0x1000#64 4096#64 0x80100000#64 0x16#32,
      .mappages 0x40000000#64 4096#64 0x80100000#64 0x2#32] mm' :=
    ⟨_, .mappages (by decide) (by decide) hr, _, .mappages (by decide) (by decide) hmm', rfl⟩
  have hstart : Run (guarded AllocSys.Ok AllocSys.exec) (AllocSys.start smallLayout (fun _ => 7#64)) []
      (AllocSys.start smallLayout (fun _ => 7#64)) := rfl
  obtain ⟨t, _, _, hfree, _, _, _, _, _, _, hnum⟩ :=
    vm_free_returns_tables hl hstart hmm (by decide) hrun (Nat.le_refl 3)
  exact ⟨mm, mm', t, hmm, hrun, hfree, hnum⟩

end RiscvOs.Vm
