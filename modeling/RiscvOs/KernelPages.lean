import RiscvOs.KernelMap
import RiscvOs.MapLoops
import RiscvOs.SpaceRuns
set_option autoImplicit false

/-!
The pages that `kvminit` takes: one for each table of the kernel's map and no more, so that it
returns exactly when the allocator starts with so many. No call on a page table touches the heap, and
a new address space gives all its pages back.
-/

namespace RiscvOs.Vm
open WordMemory PageAlloc Runs Trees Loops

section Tables

variable {lo : Nat} {s : Mm} {maps : Word → Option PageMap} {others : List Word} {node : Nodes}
  {chain held : List Word} {r : Word} {m : PageMap}

/-- The tables on the way to a mapped page are there. -/
theorem VmInv.table_of_mapped (h : VmInv lo s maps others node chain held) (hm : maps r = some m) {w : Nat}
    (hw : w < 2^27) (he : m w ≠ none) {js : List Nat} (hjs : js <+: leafPath w) : ∃ p, node (r, js) = some p := by
  obtain ⟨is, his⟩ := hjs
  cases hn : node (r, js) with
  | some p => exact ⟨p, rfl⟩
  | none =>
    have hleaf := h.leaves r m hm w hw
    rw [← his, h.tables.children_none is hn] at hleaf
    exact absurd hleaf he

/-- Every path of the kernel's tables leads to some mapped page. -/
theorem kernelPaths_mapped {js : List Nat} (hjs : js ∈ kernelPaths) :
    ∃ w < 2^27, kernelMap w ≠ none ∧ js <+: leafPath w := by
  have hram {w : Nat} (hw : RamPage w) : kernelMap w ≠ none := by simp [kernelMap_ram hw]
  have hdev {w : Nat} (hw : DevicePage w) : kernelMap w ≠ none := by simp [kernelMap_device hw]
  simp only [kernelPaths, List.mem_append, List.mem_cons, List.not_mem_nil, or_false, List.mem_map,
    List.mem_range] at hjs
  rcases hjs with ((rfl | rfl | rfl | rfl | rfl) | ⟨i, hi, rfl⟩) | ⟨i, hi, rfl⟩
  · exact ⟨0x80000, by decide, hram (by decide), List.nil_prefix⟩
  · exact ⟨0x2000, by decide, hdev (by decide), by decide⟩
  · exact ⟨0x80000, by decide, hram (by decide), by decide⟩
  · exact ⟨0x2000, by decide, hdev (by decide), by decide⟩
  · exact ⟨0x10000, by decide, hdev (by decide), by decide⟩
  · have hpath : leafPath (0xC000 + 512 * i) = [0, 96 + i] := by
      simp only [leafPath, List.cons.injEq, and_true]
      omega
    refine ⟨0xC000 + 512 * i, by omega, hdev ?_, hpath ▸ List.prefix_rfl⟩
    simp only [DevicePage]
    omega
  · have hpath : leafPath (0x80000 + 512 * i) = [2, i] := by
      simp only [leafPath, List.cons.injEq, and_true]
      omega
    refine ⟨0x80000 + 512 * i, by omega, hram ?_, hpath ▸ List.prefix_rfl⟩
    simp only [RamPage]
    omega

theorem kernelPaths_nodup : kernelPaths.Nodup := by decide

/-- The map of the kernel needs 101 tables, whatever else is in use. -/
theorem VmInv.kernel_tables_le (h : VmInv lo s maps others node chain held) (hm : maps r = some kernelMap) :
    101 ≤ held.length := by
  have hsome : ∀ k ∈ kernelPaths.map (r, ·), ∃ p, node k = some p := by
    intro k hk
    obtain ⟨js, hjs, rfl⟩ := List.mem_map.mp hk
    obtain ⟨w, hw, he, hpre⟩ := kernelPaths_mapped hjs
    exact h.table_of_mapped hm hw he hpre
  have hkeys : (kernelPaths.map (r, ·)).Nodup := kernelPaths_nodup.map fun _ _ he => (Prod.mk.inj he).2
  have hnd : ((kernelPaths.map (r, ·)).map fun k => (node k).getD 0#64).Nodup := by
    refine List.Nodup.map_on ?_ hkeys
    intro k hk k' hk' he
    obtain ⟨p, hp⟩ := hsome k hk
    obtain ⟨p', hp'⟩ := hsome k' hk'
    rw [hp, hp', Option.getD_some, Option.getD_some] at he
    exact h.forest.inj k k' p hp (he ▸ hp')
  have hsub : ((kernelPaths.map (r, ·)).map fun k => (node k).getD 0#64) ⊆ held := by
    intro p hp
    obtain ⟨k, hk, rfl⟩ := List.mem_map.mp hp
    obtain ⟨q, hq⟩ := hsome k hk
    rw [hq, Option.getD_some]
    exact (h.owned k q hq).1
  have hle := (List.subperm_of_subset hnd hsub).length_le
  rw [List.length_map, List.length_map] at hle
  exact hle

/-- A budget of 101 tables is kept to. -/
theorem Budget.held_le {K : List (Word × List Nat)} (hb : Budget K node chain held) (hnd : held.Nodup) :
    held.length ≤ K.length := by
  have hsub : held ⊆ K.filterMap node := by
    intro p hp
    obtain ⟨k, hk⟩ := hb.tables p hp
    exact List.mem_filterMap.mpr ⟨k, hb.keys k p hk, hk⟩
  exact Nat.le_trans (List.subperm_of_subset hnd hsub).length_le (List.length_filterMap_le node K)

end Tables

section Returns

variable {l : Layout} {mem : Mem} {s : Mm} {r : Word}

theorem mappages_ne_spin {va size pa : Word} {perm : BitVec 32} : mappages s r va size pa perm ≠ .spin := by
  rw [mappages]
  split
  · simp
  · obtain ⟨n, hn, out, h⟩ := ends_at_maxVa (mapRound r (pageDown (va + size - 1#64)) perm) Mapping.a
      (fun _ _ => mapRound_next) ⟨pageDown va, pa, s⟩
    have hrun := h.iterate (Nat.le_trans hn (show 2^26 + 1 ≤ loopBound by decide))
    have hout : mappagesLoop r (pageDown (va + size - 1#64)) perm loopBound (pageDown va) pa s = out := by
      rw [mappagesLoop_eq]
      exact congrArg (Option.getD · .spin) hrun
    show mappagesLoop r (pageDown (va + size - 1#64)) perm loopBound (pageDown va) pa s ≠ .spin
    rw [hout]
    exact h.out fun _ _ => mapRound_out

theorem Outcome.bind_ne_spin {α β : Type} {o : Outcome α} {f : α → Outcome β} (ho : o ≠ .spin)
    (hf : ∀ a, f a ≠ .spin) : o.bind f ≠ .spin := by
  cases o with
  | ret a => exact hf a
  | panic msg => nofun
  | spin => exact absurd rfl ho

theorem kvmmaps_ne_spin (xs : List KvmRange) : kvmmaps r xs s ≠ .spin := by
  induction xs generalizing s with
  | nil => nofun
  | cons x xs ih =>
    refine Outcome.bind_ne_spin (Outcome.bind_ne_spin mappages_ne_spin ?_) fun _ => ih
    intro a
    split <;> nofun

theorem kvminit_ne_spin : kvminit s ≠ .spin := by
  rw [kvminit_eq]
  split
  · nofun
  · exact Outcome.bind_ne_spin (kvmmaps_ne_spin kernelRanges) nofun

theorem kvmmap_eq_ret {va size pa perm : Word} {msg : String} {s' : Mm}
    (hret : kvmmap s r va size pa perm msg = .ret s') :
    ∃ c, mappages s r va size pa (perm.setWidth 32) = .ret (c, s') := by
  obtain ⟨⟨c, s₂⟩, hpages, hcode⟩ := Outcome.bind_eq_ret.mp hret
  have hs₂ : s₂ = s' := by
    split at hcode
    · cases hcode
    · exact Outcome.ret.inj hcode
  exact ⟨c, by rw [hpages, hs₂]⟩

/-- The calls of `kvminit` are calls on the new address space. -/
theorem kvmmaps_run {pt : Word} {s' : Mm} {others : List Word} (xs : List KvmRange)
    (hok : ∀ x ∈ xs, (x.perm.setWidth 32).toNat < 1024 ∧
      x.perm.setWidth 32 &&& (pteR ||| pteW ||| pteX).setWidth 32 ≠ 0#32)
    (hret : kvmmaps pt xs s = .ret s') :
    Run (SpacesStep l) ⟨s, [pt], others⟩
      (xs.map fun x => .mappages pt x.va x.size x.va (x.perm.setWidth 32)) ⟨s', [pt], others⟩ := by
  induction xs generalizing s with
  | nil =>
    cases hret
    rfl
  | cons x xs ih =>
    rw [List.forall_mem_cons] at hok
    obtain ⟨s₁, hmap, hrest⟩ := Outcome.bind_eq_ret.mp hret
    obtain ⟨c, hpages⟩ := kvmmap_eq_ret hmap
    exact ⟨_, .mappages List.mem_cons_self hok.1.1 hok.1.2 hpages, ih hok.2 hrest⟩

theorem kvminit_run {pt : Word} {mm : Mm} (hret : kvminit (mmInit l mem) = .ret (pt, mm)) :
    Run (SpacesStep l) (Spaces.start l mem)
      (.create :: kernelRanges.map fun x => .mappages pt x.va x.size x.va (x.perm.setWidth 32)) ⟨mm, [pt], []⟩ := by
  rw [kvminit_eq] at hret
  split at hret
  · cases hret
  · next hne =>
    obtain ⟨s', hs', he⟩ := Outcome.bind_eq_ret.mp hret
    obtain ⟨rfl, rfl⟩ := Prod.mk.inj (Outcome.ret.inj he)
    have hcreate := SpacesStep.create (l := l) (s := Spaces.start l mem)
    rw [Spaces.start, vmCreateUserPagetable, consPtr, if_neg hne] at hcreate
    exact ⟨_, hcreate, kvmmaps_run kernelRanges (by decide) hs'⟩

/-- An entry is read back from its word. -/
theorem Entry.pte_inj {e e' : Entry} (h : e.pte = e'.pte) : e = e' := by
  have hbit (x : Entry) (i : Nat) (hi : i < 64) :
      x.pte.getLsbD i = if i < 10 then x.flags.getLsbD i else x.ppn.getLsbD (i - 10) := by
    simp only [Entry.pte, BitVec.getLsbD_or, BitVec.getLsbD_shiftLeft, BitVec.getLsbD_setWidth]
    by_cases hlow : i < 10
    · simp [hlow, hi]
    · have hflag : x.flags.getLsbD i = false := BitVec.getLsbD_of_ge _ _ (by omega)
      simp [hlow, hi, hflag, show i - 10 < 64 by omega]
  have hppn : e.ppn = e'.ppn := by
    apply BitVec.eq_of_getLsbD_eq
    intro i hi
    have hb := hbit e (i+10) (by omega)
    rw [h, hbit e' (i+10) (by omega), if_neg (by omega), if_neg (by omega)] at hb
    simpa using hb.symm
  have hflags : e.flags = e'.flags := by
    apply BitVec.eq_of_getLsbD_eq
    intro i hi
    have hb := hbit e i (by omega)
    rw [h, hbit e' i (by omega), if_pos hi, if_pos hi] at hb
    exact hb.symm
  cases e
  cases e'
  simp_all

theorem leafWord_inj {x y : Option Entry} (h : leafWord x = leafWord y) : x = y := by
  cases x with
  | none => exact (leafWord_eq_zero.mp h.symm).symm
  | some e =>
    cases y with
    | none => exact leafWord_eq_zero.mp h
    | some e' => exact congrArg some (Entry.pte_inj h)

/-- The map of an address space is what can be read of it. -/
theorem VmInv.map_unique {lo : Nat} {maps maps' : Word → Option PageMap} {others others' : List Word}
    {node node' : Nodes} {chain chain' held held' : List Word} {m m' : PageMap} (hlo : 0 < lo)
    (h : VmInv lo s maps others node chain held) (h' : VmInv lo s maps' others' node' chain' held')
    (hm : maps r = some m) (hm' : maps' r = some m') : m = m' := by
  funext w
  by_cases hw : w < 2^26
  · have hva : (BitVec.ofNat 64 (w * 4096)).toNat / 4096 = w := by
      rw [BitVec.toNat_ofNat]
      omega
    have hl := h.leafPte_eq hlo hm (BitVec.ofNat 64 (w * 4096))
    rw [h'.leafPte_eq hlo hm', hva] at hl
    exact (leafWord_inj hl).symm
  · rw [h.bounded r m w hm (by omega), h'.bounded r m' w hm' (by omega)]

theorem split_length {chain held : List Word} (hl : l.InRam) (h : Split (roundUp l.heapEnd.toNat) s chain held) :
    chain.length + held.length = numPages l := by
  have hlen := (split_perm_allPages hl h).length_eq
  rwa [List.length_append, allPages, List.length_map, List.length_range] at hlen

/-- With enough pages `kvminit` returns, and has taken 101 of them. -/
theorem kvminit_done (hl : l.InRam) (mem : Mem) (hp : 101 ≤ numPages l) :
    ∃ pt mm node chain held, kvminit (mmInit l mem) = .ret (pt, mm) ∧
      VmInv (roundUp l.heapEnd.toNat) mm (Function.update (fun _ => none) pt (some kernelMap)) [] node chain held ∧
      held.length = 101 := by
  obtain ⟨chain, hne, hlen, h⟩ := VmInv.root hl mem
  obtain ⟨s', node', chain', held', hs', h', hb'⟩ := kvmmaps_spec hl.roundUp_pos h (Function.update_self ..)
    (.root (by omega)) (kernelRanges_ok _) kernelRanges_disjoint (fun _ _ _ _ => rfl)
  rw [Function.update_idem] at h'
  refine ⟨_, s', node', chain', held', by rw [kvminit_eq, if_neg hne, hs', Outcome.bind], h', ?_⟩
  have hle := hb'.held_le (List.nodup_append'.mp h'.split.nodup).2.1
  have hge := h'.kernel_tables_le (Function.update_self ..)
  rw [List.length_map] at hle
  exact Nat.le_antisymm hle hge

/-- Without 101 pages `kvminit` does not return, and it takes no more. -/
theorem kvminit_pages (hl : l.InRam) {pt : Word} {mm : Mm} (hret : kvminit (mmInit l mem) = .ret (pt, mm)) :
    101 ≤ numPages l ∧ mm.numFreePages.toNat + 101 = numPages l := by
  obtain ⟨node, chain, held, h⟩ := kvminit_inv hl hret
  have hmap : Function.update (fun _ => none) pt (some kernelMap) pt = some kernelMap := Function.update_self ..
  have hge := h.kernel_tables_le hmap
  have hlen := split_length hl h.split
  have hp : 101 ≤ numPages l := by omega
  obtain ⟨pt', mm', node', chain', held', hret', h', hheld⟩ := kvminit_done hl mem hp
  rw [hret] at hret'
  obtain ⟨rfl, rfl⟩ := Prod.mk.inj (Outcome.ret.inj hret')
  have hlen' := split_length hl h'.split
  exact ⟨hp, by rw [h'.split.count]; omega⟩

/-- The page table of `kvminit` is the only address space, and it has the map of the kernel. -/
theorem kvminit_space (hl : l.InRam) {pt : Word} {mm : Mm} (hret : kvminit (mmInit l mem) = .ret (pt, mm)) :
    ∃ maps, maps pt = some kernelMap ∧ Spaces.Inv (roundUp l.heapEnd.toNat) maps ⟨mm, [pt], []⟩ := by
  obtain ⟨node, chain, held, h⟩ := kvminit_inv hl hret
  obtain ⟨maps, node', chain', held', h', hw⟩ := Spaces.run_inv hl (kvminit_run hret)
  obtain ⟨m, hm⟩ := hw.map List.mem_cons_self
  have hkernel : Function.update (fun _ => none) pt (some kernelMap) pt = some kernelMap := Function.update_self ..
  refine ⟨maps, ?_, node', chain', held', h', hw⟩
  rw [hm, h'.map_unique hl.roundUp_pos h hm hkernel]

/-- `kvminit` returns when there are 101 free pages and panics when there are fewer. When it
returns it has taken exactly 101 of them, all for tables of the page table that it returns. -/
theorem kvminit_takes_101 (hl : l.InRam) (mem : Mem) :
    ((∃ pt mm, kvminit (mmInit l mem) = .ret (pt, mm)) ↔ 101 ≤ numPages l) ∧
    ((∃ msg, kvminit (mmInit l mem) = .panic msg) ↔ numPages l < 101) ∧
    ∀ pt mm, kvminit (mmInit l mem) = .ret (pt, mm) →
      mm.numFreePages.toNat + 101 = numPages l ∧ (tablesOf mm pt).length = 101 := by
  have hiff : (∃ pt mm, kvminit (mmInit l mem) = .ret (pt, mm)) ↔ 101 ≤ numPages l := by
    constructor
    · rintro ⟨pt, mm, hret⟩
      exact (kvminit_pages hl hret).1
    · intro hp
      obtain ⟨pt, mm, _, _, _, hret, _⟩ := kvminit_done hl mem hp
      exact ⟨pt, mm, hret⟩
  refine ⟨hiff, ?_, ?_⟩
  · rw [← Nat.not_le, ← hiff]
    cases hk : kvminit (mmInit l mem) with
    | ret r => simp [Prod.ext_iff]
    | panic msg => simp
    | spin => exact absurd hk kvminit_ne_spin
  · intro pt mm hret
    have hcount := (kvminit_pages hl hret).2
    obtain ⟨maps, node, chain, held, h, hw⟩ := Spaces.run_inv hl (kvminit_run hret)
    have hperm := (hw.held_perm h).length_eq
    have hlen := split_length hl h.split
    simp only [List.flatMap_cons, List.flatMap_nil, List.append_nil] at hperm
    refine ⟨hcount, ?_⟩
    rw [h.split.count] at hcount
    omega

/-- The layout of the linker script, and one that leaves three pages. -/
theorem kvminit_takes_101_layouts : (∃ pt mm, kvminit (mmInit bootLayout fun _ => 7#64) = .ret (pt, mm)) ∧
    ∃ msg, kvminit (mmInit smallLayout fun _ => 7#64) = .panic msg :=
  ⟨(kvminit_takes_101 (by decide) fun _ => 7#64).1.mpr (by decide),
    (kvminit_takes_101 (by decide) fun _ => 7#64).2.1.mpr (by decide)⟩

end Returns

section HeapPointer

variable {s : Mm}

theorem allocPage_heap (s : Mm) : (allocPage s).2.heapCurrent = s.heapCurrent := by
  unfold allocPage
  split <;> rfl

theorem freePage_heap (page : Word) (s : Mm) : (freePage page s).heapCurrent = s.heapCurrent := by
  unfold freePage
  split <;> rfl

theorem walkFrom_heap (va : Word) (alloc : Bool) (level : Nat) (pagetable : Word) :
    (walkFrom va alloc level pagetable s).2.heapCurrent = s.heapCurrent := by
  induction level generalizing pagetable s with
  | zero => rfl
  | succ level ih =>
    simp only [walkFrom]
    split
    · exact ih _
    · split
      · rfl
      · split
        · exact allocPage_heap s
        · exact (ih _).trans (allocPage_heap s)

theorem walk_heap (pagetable va : Word) (alloc : Bool) : (walk s pagetable va alloc).2.heapCurrent = s.heapCurrent := by
  unfold walk
  split
  · rfl
  · exact walkFrom_heap va alloc 2 pagetable

theorem mappagesLoop_heap {pagetable last : Word} {perm : BitVec 32} {n : Nat} {a pa : Word} {c : Int} {mm : Mm}
    (hret : mappagesLoop pagetable last perm n a pa s = .ret (c, mm)) : mm.heapCurrent = s.heapCurrent := by
  induction n generalizing a pa s with
  | zero => cases hret
  | succ n ih =>
    have hwalk := walk_heap (s := s) pagetable a true
    simp only [mappagesLoop] at hret
    split at hret
    · cases hret
      exact hwalk
    · split at hret
      · cases hret
      · split at hret
        · cases hret
          exact hwalk
        · exact (ih hret).trans hwalk

theorem mappages_heap {pagetable va size pa : Word} {perm : BitVec 32} {c : Int} {mm : Mm}
    (hret : mappages s pagetable va size pa perm = .ret (c, mm)) : mm.heapCurrent = s.heapCurrent := by
  unfold mappages at hret
  split at hret
  · cases hret
  · exact mappagesLoop_heap hret

theorem kvmmaps_heap {pt : Word} {mm : Mm} (xs : List KvmRange) (hret : kvmmaps pt xs s = .ret mm) :
    mm.heapCurrent = s.heapCurrent := by
  induction xs generalizing s with
  | nil =>
    cases hret
    rfl
  | cons x xs ih =>
    obtain ⟨s₁, hmap, hrest⟩ := Outcome.bind_eq_ret.mp hret
    obtain ⟨c, hpages⟩ := kvmmap_eq_ret hmap
    rw [ih hrest, mappages_heap hpages]

theorem kvminit_heap {pt : Word} {mm : Mm} (hret : kvminit s = .ret (pt, mm)) : mm.heapCurrent = s.heapCurrent := by
  rw [kvminit_eq] at hret
  split at hret
  · cases hret
  · obtain ⟨s', hs', he⟩ := Outcome.bind_eq_ret.mp hret
    obtain ⟨_, rfl⟩ := Prod.mk.inj (Outcome.ret.inj he)
    rw [kvmmaps_heap _ hs', allocPage_heap]

theorem freeAll_heap (s : Freeing) (ps : List Word) : (s.freeAll ps).mm.heapCurrent = s.mm.heapCurrent := by
  induction ps generalizing s with
  | nil => rfl
  | cons p ps ih => exact (ih (s.freePage p)).trans (freePage_heap p s.mm)

end HeapPointer

section NewSpace

variable {lo : Nat} {s : Mm} {chain held : List Word}

/-- The keys of the tables on the way to a page. -/
def pathKeys (r : Word) (w : Nat) : List (Word × List Nat) :=
  [(r, []), (r, [w / 2^18]), (r, [w / 2^18, w / 2^9 % 512])]

theorem mem_pathKeys {r : Word} {w : Nat} {js : List Nat} (h : js <+: leafPath w) : (r, js) ∈ pathKeys r w := by
  rcases prefix_leafPath h with rfl | rfl | rfl <;> simp [pathKeys]

/-- A single page is mapped with a single walk. -/
theorem mappages_page (r pa : Word) (perm : BitVec 32) {va : Word} (hva : Aligned va)
    (hmax : va.toNat + 4096 ≤ 2^38) : mappages s r va pgSize pa perm =
      if (walk s r va true).1 = 0#64 then .ret (-1, (walk s r va true).2)
      else if pteValid ((walk s r va true).2.mem (walk s r va true).1) then .panic "mappages: remap"
      else .ret (0, (walk s r va true).2.store (walk s r va true).1 (pa2pte pa ||| perm.signExtend 64 ||| pteV)) := by
  have hlast : (va + pgSize - 1#64) / pgSize * pgSize = va := by
    apply BitVec.eq_of_toNat_eq
    rw [last_toNat (by decide) (by simpa [pgSize] using hmax)]
    simp only [Aligned, pgSize, BitVec.toNat_ofNat] at *
    omega
  have hfirst : va / pgSize * pgSize = va := by
    apply BitVec.eq_of_toNat_eq
    rw [round_toNat]
    simp only [Aligned] at hva
    omega
  obtain ⟨n, hn⟩ : ∃ n, loopBound = n + 1 := ⟨2^52 - 1, by decide⟩
  rw [mappages, if_neg (by decide), hlast, hfirst, hn, mappagesLoop]
  simp only [if_true]

/-- The pages run out before there is a table for each key only if there were fewer pages than keys. -/
theorem Grows.length_lt {keys : List (Word × List Nat)} {node : Nodes} {held' : List Word}
    (h : Grows (· ∈ keys) (fun _ => none) chain held node [] held') (hnd : held'.Nodup) {k : Word × List Nat}
    (hk : k ∈ keys) (hnone : node k = none) : chain.length < keys.length := by
  obtain ⟨new, htaken⟩ := h.taken
  have hnew : new.Nodup := by
    rw [htaken.held] at hnd
    exact (List.nodup_append'.mp hnd).1
  have hsub : new ⊆ (keys.erase k).filterMap node := by
    intro p hp
    obtain ⟨k', hk'⟩ := (htaken.tables p).mp hp
    refine List.mem_filterMap.mpr ⟨k', (List.mem_erase_of_ne ?_).mpr (h.keys (by simp) k' p hk'), hk'⟩
    rintro rfl
    rw [hnone] at hk'
    cases hk'
  have hle := (List.subperm_of_subset hnew hsub).length_le
  have hfilter := List.length_filterMap_le node (keys.erase k)
  have herase := List.length_erase_of_mem hk
  have hpos := List.length_pos_of_mem hk
  have hchain := congrArg List.length htaken.chain
  rw [List.append_nil, List.length_reverse] at hchain
  omega

/-- The first page of a new address space is mapped, unless there were at most two free pages. -/
theorem new_space_maps (va pa : Word) (perm : BitVec 32) (hlo : 0 < lo) (h : Split lo s chain held)
    (hne : (allocPage s).1 ≠ 0#64) (hva : Aligned va) (hmax : va.toNat + 4096 ≤ 2^38) (hperm : perm.toNat < 1024) :
    ∃ c mm, mappages (allocPage s).2 (allocPage s).1 va pgSize pa perm = .ret (c, mm) ∧
      ((c = -1 ∧ chain.length ≤ 2) ∨ (c = 0 ∧
        walkaddr mm (allocPage s).1 va = (entryOf (pa.toNat / 4096) perm).base)) := by
  cases chain with
  | nil => exact absurd (by rw [h.alloc_nil]) hne
  | cons q qs =>
    have hq : (allocPage s).1 = q := by rw [h.alloc_eq]
    have hinv := (VmInv.empty h).create
    have hm : Function.update (fun _ => none) q (some fun _ => none) q = (some fun _ => none : Option PageMap) :=
      Function.update_self ..
    obtain ⟨node', chain', held', h', hgrow, hres⟩ := hinv.walk_alloc hm va (by omega)
      (P := (· ∈ pathKeys q (va.toNat / 4096))) fun js => mem_pathKeys
    rw [hq]
    have hpage := mappages_page (s := (allocPage s).2) q pa perm hva hmax
    rcases hres with ⟨p, hp, haddr⟩ | ⟨hnull, rfl, k, hk, hnone⟩
    · -- the walk has got to a slot, which is empty in a new address space
      have hidx : va.toNat / 4096 % 512 < 512 := Nat.mod_lt _ (by decide)
      have hword := h'.leaves q _ hm (va.toNat / 4096) (by omega)
      simp only [hp] at hword
      have hinvalid : pteValid ((walk (allocPage s).2 q va true).2.mem (walk (allocPage s).2 q va true).1) = false := by
        rw [haddr, hword]
        exact pteValid_zero
      have hslot : (walk (allocPage s).2 q va true).1 ≠ 0#64 := by
        rw [haddr]
        exact h'.tables.slot_ne_zero hlo hp hidx
      rw [if_neg hslot, hinvalid, if_neg Bool.false_ne_true] at hpage
      refine ⟨0, _, hpage, .inr ⟨rfl, ?_⟩⟩
      obtain ⟨node₂, chain₂, held₂, h₂⟩ := hinv.mappages_maps hm (by rw [maxVa_toNat]; simpa [pgSize] using hmax) hperm
        hpage
      have hread := h₂.refines hlo (Function.update_self ..)
      refine (hread.mapped va (entryOf (pa.toNat / 4096) perm) ?_).2.2
      have hin : firstPage va ≤ va.toNat / 4096 ∧ va.toNat / 4096 < firstPage va + pageCount va pgSize := by
        simp only [firstPage, pageCount]
        omega
      rw [PageMap.mapRange, if_pos hin]
      simp only [firstPage, Nat.sub_self, Nat.add_zero]
    · -- the pages have run out
      rw [if_pos hnull] at hpage
      have hall : Grows (· ∈ pathKeys q (va.toNat / 4096)) (fun _ => none) (q :: qs) held node' [] held' :=
        .link (by simp [pathKeys]) rfl hgrow
      have hlt := hall.length_lt (List.nodup_append'.mp h'.split.nodup).2.1 hk hnone
      exact ⟨-1, _, hpage, .inl ⟨rfl, Nat.le_of_lt_succ hlt⟩⟩

/-- What is mapped in a new address space is given back by `vm_free`, down to the last page. -/
theorem new_space_freed (hlo : 0 < lo) (h : Split lo s chain held) (hne : (allocPage s).1 ≠ 0#64)
    {va pa size : Word} {perm : BitVec 32} {c : Int} {mm : Mm} (hperm : perm.toNat < 1024)
    (hrights : perm &&& (pteR ||| pteW ||| pteX).setWidth 32 ≠ 0#32)
    (hret : mappages (allocPage s).2 (allocPage s).1 va size pa perm = .ret (c, mm)) :
    ∃ t, vmFree 3 (allocPage s).1 ⟨mm, []⟩ = .ret t ∧ t.mm.numFreePages = s.numFreePages ∧
      t.mm.heapCurrent = s.heapCurrent := by
  have hinv := (TableInv.create h rfl hne).step (.mappages hperm hrights hret)
  obtain ⟨t, chain', ht, _, _, _, hperm, hsplit⟩ := hinv.vmFree hlo (Nat.le_refl 3)
  have hheap : t.mm.heapCurrent = mm.heapCurrent := by
    obtain ⟨m, node, chain, held', hinv, hleaf, _⟩ := hinv
    have hall := hinv.vmFree_tables (Function.update_self ..) hleaf (Nat.le_refl 3)
    have hlist : t = Freeing.freeAll ⟨mm, []⟩ (tablesOf mm (allocPage s).1) := Outcome.ret.inj (ht.symm.trans hall)
    rw [hlist]
    exact freeAll_heap _ _
  refine ⟨t, ht, ?_, ?_⟩
  · apply BitVec.eq_of_toNat_eq
    rw [hsplit.count, h.count, hperm.length_eq]
  · rw [hheap, mappages_heap hret, allocPage_heap]

end NewSpace

end RiscvOs.Vm
