import RiscvOs.PageTableFree
import RiscvOs.PartialMaps
set_option autoImplicit false

/-!
What is a table. `walk` tells a table from a leaf by its level and `vm_free` by the access
rights of the entry, so that the two agree as long as every leaf has some access right.
-/

namespace RiscvOs.Vm
open WordMemory PageAlloc Runs Trees

section Returns

variable {mem : Mem} {free : Word → Freeing → Outcome Freeing} {p : Word} {s t : Freeing}

/-- The pages that have not been freed hold the words of `mem`. -/
def Untouched (mem : Mem) (s : Freeing) : Prop :=
  ∀ x, Aligned x → x ∉ s.freed → ∀ j < 512, s.mm.mem (slot x j) = mem (slot x j)

theorem Untouched.freeAll {ps : List Word} (h : Untouched mem s) (hps : ∀ x ∈ ps, Aligned x) :
    Untouched mem (s.freeAll ps) := by
  intro x hx hn j hj
  rw [freeAll_freed, List.mem_append, not_or] at hn
  rw [freeAll_mem hx hps hn.2 hj]
  exact h x hx hn.1 j hj

theorem pte2pa_aligned (pte : Word) : Aligned (pte2pa pte) := by
  rw [Aligned, pte2pa, BitVec.toNat_shiftLeft, Nat.shiftLeft_eq]
  omega

theorem tableChild_aligned {i : Nat} {q : Word} (h : tableChild mem p i = some q) : Aligned q := by
  unfold tableChild at h
  split at h
  · cases h
    exact pte2pa_aligned _
  · cases h

theorem postorder_aligned {n : Nat} (hp : Aligned p) : ∀ x ∈ postorder (tableChild mem) 512 n p, Aligned x := by
  induction n generalizing p with
  | zero =>
    intro x hx
    rw [List.mem_singleton.mp hx]
    exact hp
  | succ n ih =>
    intro x hx
    simp only [postorder, List.mem_append, List.mem_flatMap, List.mem_singleton] at hx
    rcases hx with ⟨i, _, hx⟩ | rfl
    · cases hc : tableChild mem p i with
      | none => simp [hc] at hx
      | some q =>
        rw [hc] at hx
        exact ih (tableChild_aligned hc) x hx
    · exact hp

theorem vmFreeLoop_freed {is : List Nat} (hfree : ∀ q s t, free q s = .ret t → s.freed <+: t.freed)
    (h : vmFreeLoop free p is s = .ret t) : s.freed <+: t.freed := by
  induction is generalizing s with
  | nil =>
    cases h
    exact List.prefix_rfl
  | cons i is ih =>
    rw [vmFreeLoop] at h
    split at h
    · obtain ⟨u, hu, h⟩ := Outcome.bind_eq_ret.mp h
      exact (hfree _ _ _ hu).trans (ih h)
    · exact ih h

theorem vmFree_freed {n : Nat} (h : vmFree n p s = .ret t) : s.freed <+: t.freed := by
  induction n generalizing p s t with
  | zero => cases h
  | succ n ih =>
    obtain ⟨u, hu, h⟩ := Outcome.bind_eq_ret.mp h
    cases h
    exact (vmFreeLoop_freed (fun q s t => ih) hu).trans (List.prefix_append _ _)

/-- While no page is freed twice, the loop reads the words that `mem` has for its table: what it
frees is what the recursive calls free for the tables among its entries. -/
theorem vmFreeLoop_ret (ok : Word → Prop) (below : Word → List Word) {is : List Nat}
    (hpre : ∀ q s t, free q s = .ret t → s.freed <+: t.freed)
    (hal : ∀ q, Aligned q → ∀ x ∈ below q, Aligned x)
    (hfree : ∀ q s t, Aligned q → Untouched mem s → free q s = .ret t → t.freed.Nodup →
      ok q ∧ t = s.freeAll (below q))
    (his : ∀ i ∈ is, i < 512) (hp : Aligned p) (hs : Untouched mem s)
    (h : vmFreeLoop free p is s = .ret t) (hnd : (t.freed ++ [p]).Nodup) :
    (∀ i ∈ is, ∀ q, tableChild mem p i = some q → ok q) ∧
      t = s.freeAll (is.flatMap fun i => (tableChild mem p i).elim [] below) := by
  induction is generalizing s with
  | nil =>
    cases h
    exact ⟨by simp, rfl⟩
  | cons i is ih =>
    have hkept := vmFreeLoop_freed hpre h
    have hpn : p ∉ s.freed := by
      intro hm
      exact (List.nodup_append'.mp hnd).2.2 (hkept.subset hm) (List.mem_singleton_self p)
    have hword := hs p hp hpn i (his i (by simp))
    have his' (j : Nat) (hj : j ∈ is) := his j (List.mem_cons_of_mem i hj)
    rw [vmFreeLoop, hword] at h
    cases hc : tableChild mem p i with
    | none =>
      have hno : pteTable (mem (slot p i)) = false := by simpa [tableChild] using hc
      simp only [hno, Bool.false_eq_true, if_false] at h
      obtain ⟨hok, ht⟩ := ih his' hs h
      refine ⟨?_, by simpa [hc] using ht⟩
      simpa [hc] using hok
    | some q =>
      have hyes : pteTable (mem (slot p i)) = true ∧ pte2pa (mem (slot p i)) = q := by
        simpa [tableChild] using hc
      simp only [hyes.1, hyes.2, if_true] at h
      obtain ⟨u, hu, h⟩ := Outcome.bind_eq_ret.mp h
      have hal' := tableChild_aligned hc
      have hsub := (vmFreeLoop_freed hpre h).sublist.nodup (List.nodup_append'.mp hnd).1
      obtain ⟨hokq, rfl⟩ := hfree q s u hal' hs hu hsub
      obtain ⟨hok, ht⟩ := ih his' (hs.freeAll (hal q hal')) h
      refine ⟨?_, by simpa [hc, freeAll_append] using ht⟩
      simpa [hc] using And.intro hokq hok

/-- A call of `vm_free` that returns and frees no page twice has freed the tree that it sees in
memory, and this tree is finite. -/
theorem vmFree_ret {n : Nat} (hp : Aligned p) (hs : Untouched mem s) (h : vmFree (n+1) p s = .ret t)
    (hnd : t.freed.Nodup) :
    HeightLe (tableChild mem) 512 n p ∧ t = s.freeAll (postorder (tableChild mem) 512 n p) := by
  induction n generalizing p s t with
  | zero =>
    obtain ⟨u, hu, h⟩ := Outcome.bind_eq_ret.mp h
    cases h
    obtain ⟨hok, hbelow⟩ := vmFreeLoop_ret (fun _ => False) (fun _ => [])
      (fun q s t => vmFree_freed) (by simp) (by simp [vmFree])
      (fun i hi => List.mem_range.mp hi) hp hs hu hnd
    have hnone (i : Nat) (hi : i < 512) : tableChild mem p i = none := by
      cases hc : tableChild mem p i with
      | none => rfl
      | some q => exact (hok i (List.mem_range.mpr hi) q hc).elim
    refine ⟨hnone, ?_⟩
    have hnil : (List.range 512).flatMap (fun i => (tableChild mem p i).elim [] fun _ => []) = ([] : List Word) := by
      simp only [List.flatMap_eq_nil_iff, List.mem_range]
      intro i hi
      simp [hnone i hi]
    rw [hbelow, hnil]
    rfl
  | succ n ih =>
    obtain ⟨u, hu, h⟩ := Outcome.bind_eq_ret.mp h
    cases h
    obtain ⟨hok, hbelow⟩ := vmFreeLoop_ret (HeightLe (tableChild mem) 512 n)
      (postorder (tableChild mem) 512 n) (fun q s t => vmFree_freed)
      (fun q hq => postorder_aligned hq) (fun q s t hq hs hr hn => ih hq hs hr hn)
      (fun i hi => List.mem_range.mp hi) hp hs hu hnd
    refine ⟨fun i hi q hq => hok i (List.mem_range.mpr hi) q hq, ?_⟩
    rw [hbelow, postorder, freeAll_append]
    rfl

end Returns

section Levels

variable {lo : Nat} {s : Mm} {roots : Word → Prop} {maps : Word → Option PageMap} {others : List Word}
  {node : Nodes} {chain held : List Word} {pt p : Word} {m : PageMap}

/-- The tables in which `walk(.., va, 0)` looks up an entry, from `level` down. -/
def walkTables (s : Mm) (va : Word) : Nat → Word → List Word
  | 0, pagetable => [pagetable]
  | level+1, pagetable =>
    let pte := slot pagetable (px (level+1) va).toNat
    pagetable :: if pteValid (s.mem pte) then walkTables s va level (pte2pa (s.mem pte)) else []

/-- `walk` uses the page `p` as a table under the root `pt`. -/
def IsTable (s : Mm) (pt p : Word) : Prop := ∃ va, va < maxVa ∧ p ∈ walkTables s va 2 pt

/-- `vm_free` returns, with some bound on its recursion, and the pages that it has freed are the
tables of `walk`, each once. Every call of it frees its own argument in the end, so that these
are also the pages that it has descended into. -/
def FreesTables (s : Mm) (pt : Word) : Prop :=
  ∃ depth t, vmFree depth pt ⟨s, []⟩ = .ret t ∧ t.freed.Nodup ∧ ∀ p, p ∈ t.freed ↔ IsTable s pt p

theorem Tables.mem_walkTables (h : Tables lo s roots node chain held) (va : Word) {r q : Word} {is : List Nat}
    {level : Nat} (hp : node (r, is) = some p) (hlen : is.length + level = 2) :
    q ∈ walkTables s va level p ↔ ∃ js, js <+: walkPath va level ∧ node (r, is ++ js) = some q := by
  induction level generalizing p is with
  | zero =>
    simp only [walkTables, List.mem_singleton, walkPath, List.prefix_nil, exists_eq_left, List.append_nil, hp,
      Option.some.injEq]
    exact eq_comm
  | succ level ih =>
    have hi := px_lt (level+1) va
    have hroot : q = p ↔ node (r, is ++ []) = some q := by
      rw [List.append_nil, hp, Option.some.injEq]
      exact eq_comm
    simp only [walkTables, walkPath, List.mem_cons, h.entry_valid hp (by omega) hi, hroot]
    constructor
    · rintro (hq | hq)
      · exact ⟨[], List.nil_prefix, hq⟩
      · cases hc : node (r, is ++ [(px (level+1) va).toNat]) with
        | none => simp [hc] at hq
        | some c =>
          simp only [hc, Option.isSome_some, if_true, h.entry_pa hp (by omega) hi hc] at hq
          obtain ⟨js, hjs, hnode⟩ := (ih hc (by simp; omega)).mp hq
          exact ⟨_ :: js, (List.prefix_cons_inj _).mpr hjs, by simpa using hnode⟩
    · rintro ⟨js, hjs, hq⟩
      cases js with
      | nil => exact .inl hq
      | cons j js =>
        obtain ⟨rfl, hrest⟩ := List.cons_prefix_cons.mp hjs
        refine .inr ?_
        cases hc : node (r, is ++ [(px (level+1) va).toNat]) with
        | none =>
          have hnone := h.children_none js hc
          simp only [List.append_assoc, List.singleton_append] at hnone
          rw [hnone] at hq
          cases hq
        | some c =>
          simp only [Option.isSome_some, if_true, h.entry_pa hp (by omega) hi hc]
          exact (ih hc (by simp; omega)).mpr ⟨js, hrest, by simpa using hq⟩

theorem Tables.isTable_iff (h : Tables lo s roots node chain held) (hr : roots pt)
    (hkeys : ∀ k q, node k = some q → TableKey pt k) :
    IsTable s pt p ↔ ∃ js, node (pt, js) = some p := by
  constructor
  · rintro ⟨va, _, hp⟩
    obtain ⟨js, _, hnode⟩ := (h.mem_walkTables va (h.forest.root pt hr) rfl).mp hp
    exact ⟨js, hnode⟩
  · rintro ⟨js, hnode⟩
    obtain ⟨_, v, hv, hjs⟩ := hkeys _ _ hnode
    have hnat : (BitVec.ofNat 64 (4096 * v)).toNat = 4096 * v := by
      rw [BitVec.toNat_ofNat]
      omega
    have hlow : (BitVec.ofNat 64 (4096 * v)).toNat < 2^38 := by omega
    have hpage : (BitVec.ofNat 64 (4096 * v)).toNat / 4096 = v := by omega
    refine ⟨BitVec.ofNat 64 (4096 * v), by rwa [BitVec.lt_def, maxVa_toNat], ?_⟩
    refine (h.mem_walkTables _ (h.forest.root pt hr) rfl).mpr ⟨js, ?_, hnode⟩
    rwa [walkPath_two hlow, hpage]

/-- The path through the leaf of page `v`, as `vm_free` sees it, when the leaf has no rights. -/
theorem VmInv.descend_leaf (h : VmInv lo s maps others node chain held) (hm : maps pt = some m) {v : Nat} {e : Entry}
    (he : m v = some e) (hbad : pteTable e.pte = true) : Path 512 3 (leafPath v ++ [v % 512]) ∧
      descend (tableChild s.mem) pt (leafPath v ++ [v % 512]) = some (pte2pa e.pte) := by
  have hv : v < 2^26 := by
    by_contra hge
    rw [h.bounded pt m v hm (by omega)] at he
    cases he
  have hkey : TableKey pt (pt, leafPath v) := ⟨rfl, v, hv, List.prefix_rfl⟩
  have hpath := path_of_tableKey hkey
  refine ⟨⟨by simp [leafPath], ?_⟩, ?_⟩
  · intro i hi
    rcases List.mem_append.mp hi with hi | hi
    · exact hpath.2 i hi
    · rw [List.mem_singleton.mp hi]
      exact Nat.mod_lt _ (by decide)
  have hleaf := h.leaves pt m hm v (by omega)
  have hdesc := h.descend_node (h.node_root hm) hpath
  rw [List.nil_append] at hdesc
  cases hn : node (pt, leafPath v) with
  | none =>
    simp only [hn, he] at hleaf
    cases hleaf
  | some q =>
    simp only [hn, he, leafWord] at hleaf
    have hchild : tableChild s.mem q (v % 512) = some (pte2pa e.pte) := by
      rw [tableChild, hleaf, if_pos hbad]
    rw [hn] at hdesc
    rw [descend_append, hdesc, Option.bind_some, descend, hchild]
    rfl

/-- `vm_free` agrees with `walk` exactly when no leaf looks like a table: a leaf that does is
descended into, and its target is then freed a second time or is no table. -/
theorem VmInv.freesTables_iff (h : VmInv lo s maps others node chain held) (hm : maps pt = some m)
    (hkeys : ∀ k q, node k = some q → TableKey pt k) : FreesTables s pt ↔ m.Leafy := by
  have htable (p : Word) : IsTable s pt p ↔ ∃ js, node (pt, js) = some p :=
    h.tables.isTable_iff (by simp [hm]) hkeys
  have hpath {js : List Nat} {q : Word} (hq : node (pt, js) = some q) : Path 512 2 js :=
    path_of_tableKey (hkeys _ _ hq)
  constructor
  · rintro ⟨depth, t, hret, hnd, hfreed⟩ v e he
    by_contra hbad
    obtain ⟨hleaf, hdesc⟩ := h.descend_leaf hm he (by simpa using hbad)
    cases depth with
    | zero => cases hret
    | succ n =>
      obtain ⟨hheight, rfl⟩ := vmFree_ret (h.aligned (h.node_root hm)) (fun x _ _ j _ => rfl) hret hnd
      rw [freeAll_freed, List.nil_append] at hnd hfreed
      have hlong : (leafPath v ++ [v % 512]).length = 3 := rfl
      have hleaf' : Path 512 n (leafPath v ++ [v % 512]) := ⟨hheight.length_le hleaf.2 hdesc, hleaf.2⟩
      obtain ⟨js, hjs⟩ := (htable _).mp ((hfreed _).mp (mem_postorder_iff.mpr ⟨_, hleaf', hdesc⟩))
      obtain ⟨hshort, hidx⟩ := hpath hjs
      have hdesc' := h.descend_node (h.node_root hm) (hpath hjs)
      rw [List.nil_append, hjs] at hdesc'
      have hn := hleaf'.1
      have hsame := pathsInj_of_nodup hnd js _ _ ⟨by omega, hidx⟩ hleaf' hdesc' hdesc
      rw [hsame] at hshort
      omega
  · intro hleafy
    refine ⟨3, _, h.vmFree_tables hm hleafy (Nat.le_refl 3), ?_⟩
    rw [freeAll_freed, List.nil_append]
    refine ⟨postorder_nodup (h.pathsInj hm), ?_⟩
    intro p
    rw [h.mem_postorder hm, htable]
    constructor
    · rintro ⟨js, _, hjs⟩
      exact ⟨js, hjs⟩
    · rintro ⟨js, hjs⟩
      exact ⟨js, hpath hjs, hjs⟩

end Levels

section Building

variable {lo : Nat} {pt : Word}

inductive BuildCall where
  | mappages (va size pa : Word) (perm : BitVec 32)
  | allocPage
  | freePage (page : Word)
  | store (page : Word) (i : Nat) (v : Word)

/-- A call that maps pages maps them with some access right. -/
def BuildCall.Rights : BuildCall → Prop
  | .mappages _ _ _ perm => perm &&& (pteR ||| pteW ||| pteX).setWidth 32 ≠ 0#32
  | _ => True

structure Building where
  mm : Mm
  /-- The pages that the other clients of the allocator hold. -/
  others : List Word

/-- A successful call of `mappages` on the table `pt`, or a call or a store of another client. -/
inductive BuildStep (pt : Word) (s : Building) : BuildCall → Building → Prop
  | mappages {va size pa : Word} {perm : BitVec 32} {mm : Mm} (hperm : perm.toNat < 1024)
      (hret : mappages s.mm pt va size pa perm = .ret (0, mm)) :
      BuildStep pt s (.mappages va size pa perm) ⟨mm, s.others⟩
  | allocPage : BuildStep pt s .allocPage ⟨(PageAlloc.allocPage s.mm).2,
      if (PageAlloc.allocPage s.mm).1 = 0#64 then s.others else (PageAlloc.allocPage s.mm).1 :: s.others⟩
  | freePage {page : Word} (hp : page ∈ s.others) :
      BuildStep pt s (.freePage page) ⟨PageAlloc.freePage page s.mm, s.others.erase page⟩
  | store {page : Word} {i : Nat} {v : Word} (hp : page ∈ s.others) (hi : i < 512) :
      BuildStep pt s (.store page i v) ⟨s.mm.store (slot page i) v, s.others⟩

/-- The state of a table after the calls `cs`: it has a leaf without rights exactly when one of
them has mapped one. -/
structure Built (lo : Nat) (pt : Word) (cs : List BuildCall) (s : Building) (m : PageMap) (node : Nodes)
    (chain held : List Word) : Prop where
  inv : VmInv lo s.mm (Function.update (fun _ => none) pt (some m)) s.others node chain held
  keys : ∀ k q, node k = some q → TableKey pt k
  leafy : m.Leafy ↔ ∀ c ∈ cs, c.Rights

/-- Pages that were not mapped are mapped with one set of rights. -/
theorem PageMap.leafy_mapRange {m : PageMap} {v k ppn : Nat} {perm : BitVec 32} (hk : 0 < k)
    (hfresh : ∀ w, v ≤ w → w < v + k → m w = none) :
    (m.mapRange v k ppn perm).Leafy ↔ m.Leafy ∧ perm &&& 14#32 ≠ 0#32 := by
  constructor
  · intro h
    constructor
    · intro w e he
      refine h w e ?_
      rw [PageMap.mapRange, if_neg, he]
      rintro ⟨hge, hlt⟩
      rw [hfresh w hge hlt] at he
      cases he
    · intro hz
      have hleaf := h v (entryOf ppn perm) (by simp [PageMap.mapRange, hk])
      rw [(pteTable_entryOf ppn perm).mpr hz] at hleaf
      cases hleaf
  · rintro ⟨h, hperm⟩
    exact h.mapRange v k ppn hperm

theorem Built.create {s mm : Mm} {held₀ chain₀ : List Word} (h : Split lo s chain₀ held₀)
    (hc : vmCreateUserPagetable s = (pt, mm)) (hpt : pt ≠ 0#64) :
    ∃ m node chain held, Built lo pt [] ⟨mm, held₀⟩ m node chain held := by
  obtain ⟨m, node, chain, held, hinv, hleaf, hgrow⟩ := TableInv.create h hc hpt
  exact ⟨m, node, chain, held, hinv, hgrow.keys (by simp), by simpa using hleaf⟩

theorem Built.step {cs : List BuildCall} {c : BuildCall} {s t : Building} {m : PageMap} {node : Nodes}
    {chain held : List Word} (hlo : 0 < lo) (h : Built lo pt cs s m node chain held) (hstep : BuildStep pt s c t) :
    ∃ m' node' chain' held', Built lo pt (cs ++ [c]) t m' node' chain' held' := by
  have hm : Function.update (fun _ => none) pt (some m) pt = some m := Function.update_self ..
  have hrights : (∀ d ∈ cs ++ [c], d.Rights) ↔ m.Leafy ∧ c.Rights := by
    simp [or_imp, forall_and, h.leafy]
  have hkept (hc : c.Rights) : m.Leafy ↔ ∀ d ∈ cs ++ [c], d.Rights := by rw [hrights, and_iff_left hc]
  cases hstep with
  | mappages hperm hret =>
    obtain ⟨k, node', chain', held', hinv, hgrow, hfresh, hk⟩ := h.inv.mappages_prefix hm hperm hret
    rw [Function.update_idem] at hinv
    refine ⟨_, node', chain', held', hinv, hgrow.keys h.keys, ?_⟩
    rw [hrights, PageMap.leafy_mapRange (hk rfl).1 hfresh]
    rfl
  | allocPage =>
    cases chain with
    | nil =>
      refine ⟨m, node, [], held, ?_, h.keys, hkept trivial⟩
      simpa [h.inv.split.alloc_nil] using h.inv
    | cons q qs =>
      have hq : (PageAlloc.allocPage s.mm).1 = q := by rw [h.inv.split.alloc_eq]
      refine ⟨m, node, qs, q :: held, ?_, h.keys, hkept trivial⟩
      simp only [hq, h.inv.split.linked.2.1, if_false]
      exact h.inv.allocOther
  | freePage hp => exact ⟨m, node, _, _, h.inv.freeOther hlo hp, h.keys, hkept trivial⟩
  | store hp hi => exact ⟨m, node, chain, held, h.inv.storeOther hp hi, h.keys, hkept trivial⟩

theorem Built.run {s mm : Mm} {held₀ chain₀ : List Word} (hlo : 0 < lo) (h : Split lo s chain₀ held₀)
    (hc : vmCreateUserPagetable s = (pt, mm)) (hpt : pt ≠ 0#64) {cs : List BuildCall} {t : Building}
    (hr : Run (BuildStep pt) ⟨mm, held₀⟩ cs t) : ∃ m node chain held, Built lo pt cs t m node chain held := by
  refine hr.history (fun cs s => ∃ m node chain held, Built lo pt cs s m node chain held) ?_ (Built.create h hc hpt)
  rintro cs s c t ⟨m, node, chain, held, hs⟩ hstep
  exact hs.step hlo hstep

theorem Built.freesTables {cs : List BuildCall} {s : Building} {m : PageMap} {node : Nodes} {chain held : List Word}
    (h : Built lo pt cs s m node chain held) : FreesTables s.mm pt ↔ ∀ c ∈ cs, c.Rights := by
  rw [← h.leafy]
  exact h.inv.freesTables_iff (Function.update_self ..) h.keys

theorem Built.isTable_ge {cs : List BuildCall} {s : Building} {m : PageMap} {node : Nodes} {chain held : List Word}
    (h : Built lo pt cs s m node chain held) {p : Word} (hp : IsTable s.mm pt p) : lo ≤ p.toNat := by
  obtain ⟨js, hjs⟩ := (h.inv.tables.isTable_iff (by simp) h.keys).mp hp
  exact (h.inv.split.isPage_held (h.inv.owned _ _ hjs).1).1

end Building

/-- A table is created in any reachable state of the allocator and mappings are made in it, while
the other clients go on. Then `vm_free` and `walk` agree on its tables exactly when each of the
calls has mapped its pages with some access right. -/
theorem vm_free_agrees_iff {l : Layout} {mem : Mem} {calls : List AllocCall} {s : AllocSys}
    (hl : l.InRam) (h : Run (guarded AllocSys.Ok AllocSys.exec) (AllocSys.start l mem) calls s)
    {pt : Word} {mm : Mm} {cs : List BuildCall} {t : Building}
    (hc : vmCreateUserPagetable s.mm = (pt, mm)) (hpt : pt ≠ 0#64)
    (hr : Run (BuildStep pt) ⟨mm, s.held⟩ cs t) : FreesTables t.mm pt ↔ ∀ c ∈ cs, c.Rights := by
  obtain ⟨chain₀, hs⟩ := AllocSys.run_split hl h
  obtain ⟨m, node, chain, held, hb⟩ := Built.run hl.roundUp_pos hs hc hpt hr
  exact hb.freesTables

theorem vm_free_agrees_iff_page : ∃ mm, Run (BuildStep 0x87FFD000#64) ⟨smallTable, []⟩
      [.mappages 0x1000#64 4096#64 0x80100000#64 0x12#32] ⟨mm, []⟩ ∧ FreesTables mm 0x87FFD000#64 := by
  have hl : smallLayout.InRam := by decide +kernel
  have hstart : Run (guarded AllocSys.Ok AllocSys.exec) (AllocSys.start smallLayout (fun _ => 7#64)) []
      (AllocSys.start smallLayout (fun _ => 7#64)) := rfl
  have hcreate : vmCreateUserPagetable (mmInit smallLayout (fun _ => 7#64)) = (0x87FFD000#64, smallTable) :=
    Prod.ext (by decide +kernel) rfl
  have hcode : (mappages smallTable 0x87FFD000#64 0x1000#64 4096#64 0x80100000#64 0x12#32).code = some 0 := by
    decide +kernel
  obtain ⟨mm, hmm⟩ := Outcome.eq_ret_of_code hcode
  have hrun : Run (BuildStep 0x87FFD000#64) ⟨smallTable, []⟩
      [.mappages 0x1000#64 4096#64 0x80100000#64 0x12#32] ⟨mm, []⟩ := ⟨_, .mappages (by decide) hmm, rfl⟩
  refine ⟨mm, hrun, (vm_free_agrees_iff hl hstart hcreate (by decide) hrun).mpr ?_⟩
  intro c hc
  rw [List.mem_singleton.mp hc]
  exact (by decide : 0x12#32 &&& (pteR ||| pteW ||| pteX).setWidth 32 ≠ 0#32)

/-- A page of the kernel is mapped with the user bit alone: its leaf is a table for `vm_free` and
not for `walk`. -/
theorem vm_free_disagrees_userBit : ∃ mm, Run (BuildStep 0x87FFD000#64) ⟨smallTable, []⟩
      [.mappages 0x1000#64 4096#64 0x80100000#64 0x10#32] ⟨mm, []⟩ ∧
    pteTable (leafPte mm 0x87FFD000#64 0x1000#64) = true ∧
    pte2pa (leafPte mm 0x87FFD000#64 0x1000#64) = 0x80100000#64 ∧
    ¬ IsTable mm 0x87FFD000#64 0x80100000#64 ∧ ¬ FreesTables mm 0x87FFD000#64 := by
  have hl : smallLayout.InRam := by decide +kernel
  have hcreate : vmCreateUserPagetable (mmInit smallLayout (fun _ => 7#64)) = (0x87FFD000#64, smallTable) :=
    Prod.ext (by decide +kernel) rfl
  have hcall : (mappages smallTable 0x87FFD000#64 0x1000#64 4096#64 0x80100000#64 0x10#32).toOption.map
      (fun r => (r.1, leafPte r.2 0x87FFD000#64 0x1000#64)) = some (0, 0x20040011#64) := by
    decide +kernel
  obtain ⟨⟨c, mm⟩, hmm, hleaf⟩ := Outcome.map_toOption hcall
  obtain ⟨rfl, hleaf⟩ := Prod.mk.inj hleaf
  have hrun : Run (BuildStep 0x87FFD000#64) ⟨smallTable, []⟩
      [.mappages 0x1000#64 4096#64 0x80100000#64 0x10#32] ⟨mm, []⟩ := ⟨_, .mappages (by decide) hmm, rfl⟩
  obtain ⟨m, node, chain, held, hb⟩ := Built.run hl.roundUp_pos (mmInit_split hl _) hcreate (by decide) hrun
  refine ⟨mm, hrun, ?_, ?_, ?_, ?_⟩
  · rw [hleaf]
    decide
  · rw [hleaf]
    decide
  · intro htable
    exact absurd (hb.isTable_ge htable) (by decide +kernel)
  · rw [hb.freesTables]
    intro hrights
    exact hrights _ (List.mem_singleton_self _) (by decide)

end RiscvOs.Vm
