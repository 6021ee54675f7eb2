import RiscvOs.PageTableFree
import RiscvOs.Heap
set_option autoImplicit false

/-!
Address spaces over their whole lives: they are created, mapped, unmapped and given back with
`vm_free`, over an allocator with other clients. No page is lost or used twice on the way, and what
is done to one address space does not show in another.
-/

namespace RiscvOs.Vm
open WordMemory PageAlloc Runs Trees

/-- `roots` are the address spaces that were not given back, `others` the pages of other clients. -/
structure Spaces where
  mm : Mm
  roots : List Word
  others : List Word

inductive SpacesCall where
  | create
  | mappages (pt va size pa : Word) (perm : BitVec 32)
  | unmappages (pt va size : Word)
  | vmFree (pt : Word)
  | allocPage
  | freePage (page : Word)
  | store (page : Word) (i : Nat) (v : Word)
  | kmalloc (size : Word)

/-- The address space that a call is about. -/
def SpacesCall.root : SpacesCall → Option Word
  | .mappages pt _ _ _ _ | .unmappages pt _ _ | .vmFree pt => some pt
  | .create | .allocPage | .freePage _ | .store _ _ _ | .kmalloc _ => none

/-- The list with a new pointer in front, unless it is `NULL`. -/
def consPtr (p : Word) (ps : List Word) : List Word := if p = 0#64 then ps else p :: ps

/-- The calls that return, with success or with failure. Pages are mapped with some right to
access them, as `vm_free` takes an entry without one for a table. -/
inductive SpacesStep (l : Layout) (s : Spaces) : SpacesCall → Spaces → Prop
  | create : SpacesStep l s .create ⟨(vmCreateUserPagetable s.mm).2,
      consPtr (vmCreateUserPagetable s.mm).1 s.roots, s.others⟩
  | mappages {pt va size pa : Word} {perm : BitVec 32} {c : Int} {mm : Mm} (hpt : pt ∈ s.roots)
      (hperm : perm.toNat < 1024) (hrights : perm &&& (pteR ||| pteW ||| pteX).setWidth 32 ≠ 0#32)
      (hret : mappages s.mm pt va size pa perm = .ret (c, mm)) :
      SpacesStep l s (.mappages pt va size pa perm) ⟨mm, s.roots, s.others⟩
  | unmappages {pt va size : Word} {mm : Mm} (hpt : pt ∈ s.roots)
      (hret : unmappages s.mm pt va size = .ret mm) :
      SpacesStep l s (.unmappages pt va size) ⟨mm, s.roots, s.others⟩
  | vmFree {pt : Word} {t : Freeing} (hpt : pt ∈ s.roots) (hret : vmFree 3 pt ⟨s.mm, []⟩ = .ret t) :
      SpacesStep l s (.vmFree pt) ⟨t.mm, s.roots.erase pt, s.others⟩
  | allocPage : SpacesStep l s .allocPage ⟨(PageAlloc.allocPage s.mm).2, s.roots,
      consPtr (PageAlloc.allocPage s.mm).1 s.others⟩
  | freePage {page : Word} (hp : page ∈ s.others) :
      SpacesStep l s (.freePage page) ⟨PageAlloc.freePage page s.mm, s.roots, s.others.erase page⟩
  | store {page : Word} {i : Nat} {v : Word} (hp : page ∈ s.others) (hi : i < 512) :
      SpacesStep l s (.store page i v) ⟨s.mm.store (slot page i) v, s.roots, s.others⟩
  | kmalloc {size : Word} :
      SpacesStep l s (.kmalloc size) ⟨(PageAlloc.kmalloc l size s.mm).2, s.roots, s.others⟩

def Spaces.start (l : Layout) (mem : Mem) : Spaces := ⟨mmInit l mem, [], []⟩

/-- The tables of an address space, in the order in which `vm_free` gives them back. -/
def tablesOf (mm : Mm) (pt : Word) : List Word := postorder (tableChild mm.mem) 512 2 pt

/-- All pages of the free memory. -/
def allPages (l : Layout) : List Word := (List.range (numPages l)).map (pageAt l)

section Forget

variable {lo : Nat} {s : Mm} {maps : Word → Option PageMap} {others : List Word} {node : Nodes}
  {chain held : List Word} {r : Word} {m : PageMap}

/-- The tables of all roots but `r`. -/
def Nodes.without (node : Nodes) (r : Word) : Nodes := fun k => if k.1 = r then none else node k

theorem without_some {k : Word × List Nat} {p : Word} (h : node.without r k = some p) : k.1 ≠ r ∧ node k = some p := by
  simp only [Nodes.without] at h
  split at h
  · cases h
  · next hk => exact ⟨hk, h⟩

theorem without_ne {k : Word × List Nat} (hk : k.1 ≠ r) : node.without r k = node k := if_neg hk

theorem update_none_some {r' : Word} {m' : PageMap} (h : Function.update maps r none r' = some m') :
    r' ≠ r ∧ maps r' = some m' := by
  by_cases hr : r' = r
  · rw [hr, Function.update_self] at h
    cases h
  · rw [Function.update_of_ne hr] at h
    exact ⟨hr, h⟩

/-- Without one of its address spaces, whose tables stay where they are, the invariant still holds. -/
theorem VmInv.forget (h : VmInv lo s maps others node chain held) (r : Word) :
    VmInv lo s (Function.update maps r none) others (node.without r) chain held := by
  have hroot {r' : Word} (hr : r' ≠ r) : Function.update maps r none r' = maps r' := Function.update_of_ne hr _ _
  refine ⟨h.split, ⟨?_, ?_, ?_, ?_, ?_⟩, ?_, h.clients, ?_, ?_⟩
  · intro r' hr'
    obtain ⟨m', hm'⟩ := Option.isSome_iff_exists.mp hr'
    obtain ⟨hne, hm⟩ := update_none_some hm'
    rw [without_ne hne]
    exact h.forest.root r' (by simp [hm])
  · intro r' is p hk
    obtain ⟨hne, hp⟩ := without_some hk
    rw [hroot hne]
    exact h.forest.dom r' is p hp
  · intro r' is i q hk
    obtain ⟨hne, hq⟩ := without_some hk
    rw [without_ne (k := (r', is)) hne]
    exact h.forest.parent r' is i q hq
  · intro r' is p i hk hlen hi
    obtain ⟨hne, hp⟩ := without_some hk
    rw [without_ne (k := (r', is ++ [i])) hne]
    exact h.forest.entry r' is p i hp hlen hi
  · intro k k' p hk hk'
    exact h.forest.inj k k' p (without_some hk).2 (without_some hk').2
  · intro k p hk
    exact h.owned k p (without_some hk).2
  · intro r' m' hm' v hv
    obtain ⟨hne, hm⟩ := update_none_some hm'
    rw [without_ne hne]
    exact h.leaves r' m' hm v hv
  · intro r' m' v hm' hv
    exact h.bounded r' m' v (update_none_some hm').2 hv

/-- The tables of `r` are those that `vm_free` finds. -/
theorem VmInv.mem_tables (h : VmInv lo s maps others node chain held) (hm : maps r = some m)
    (hkeys : ∀ js p, node (r, js) = some p → TableKey r (r, js)) (q : Word) :
    q ∈ tablesOf s r ↔ ∃ js, node (r, js) = some q := by
  rw [tablesOf, h.mem_postorder hm]
  constructor
  · rintro ⟨js, _, hq⟩
    exact ⟨js, hq⟩
  · rintro ⟨js, hq⟩
    exact ⟨js, path_of_tableKey (hkeys js q hq), hq⟩

/-- `vm_free` gives the tables of `r` back and leaves all others alone. -/
theorem VmInv.vmFree (h : VmInv lo s maps others node chain held) (hlo : 0 < lo) (hm : maps r = some m)
    (hleaf : m.Leafy) (hkeys : ∀ js p, node (r, js) = some p → TableKey r (r, js)) :
    ∃ t, vmFree 3 r ⟨s, []⟩ = .ret t ∧ VmInv lo t.mm (Function.update maps r none) others (node.without r)
      ((tablesOf s r).reverse ++ chain) (held.filter (· ∉ tablesOf s r)) := by
  have hmem := h.mem_tables hm hkeys
  have hnd : (tablesOf s r).Nodup := postorder_nodup (h.pathsInj hm)
  have hheld : held.Nodup := (List.nodup_append'.mp h.split.nodup).2.1
  have hperm : held.Perm (tablesOf s r ++ held.filter (· ∉ tablesOf s r)) := by
    refine (List.perm_ext_iff_of_nodup hheld ?_).mpr ?_
    · refine List.nodup_append'.mpr ⟨hnd, hheld.filter _, ?_⟩
      intro p hp hf
      simp only [List.mem_filter, decide_eq_true_eq] at hf
      exact hf.2 hp
    · intro p
      simp only [List.mem_append, List.mem_filter, decide_eq_true_eq]
      constructor
      · intro hp
        by_cases ht : p ∈ tablesOf s r
        · exact .inl ht
        · exact .inr ⟨hp, ht⟩
      · rintro (ht | hp)
        · obtain ⟨js, hq⟩ := (hmem p).mp ht
          exact (h.owned _ _ hq).1
        · exact hp.1
  have hother {k : Word × List Nat} {p : Word} (hk : node.without r k = some p) : p ∉ tablesOf s r := by
    obtain ⟨hne, hp⟩ := without_some hk
    intro ht
    obtain ⟨js, hq⟩ := (hmem p).mp ht
    exact hne (congrArg Prod.fst (h.forest.inj _ _ _ hp hq))
  refine ⟨_, h.vmFree_tables hm hleaf (Nat.le_refl 3), (h.forget r).frame ?_ ?_ ?_ ?_⟩
  · exact Freeing.freeAll_split hlo h.split hperm
  · intro k p i hk hi
    refine freeAll_mem (s := ⟨s, []⟩) (h.aligned (without_some hk).2) ?_ (hother hk) hi
    intro q hq
    obtain ⟨js, hq⟩ := (hmem q).mp hq
    exact h.aligned hq
  · intro k p hk
    have ho := h.owned k p (without_some hk).2
    exact ⟨by simpa using ⟨ho.1, hother hk⟩, ho.2⟩
  · refine ⟨h.clients.1, ?_⟩
    intro p hp
    have hno : p ∉ tablesOf s r := by
      intro ht
      obtain ⟨js, hq⟩ := (hmem p).mp ht
      exact (h.owned _ _ hq).2 hp
    simpa using ⟨h.clients.2 p hp, hno⟩

/-- The page allocator and the pages themselves are the same. -/
structure SamePages (s t : Mm) : Prop where
  mem : t.mem = s.mem
  freePages : t.freePages = s.freePages
  numFreePages : t.numFreePages = s.numFreePages

theorem SamePages.refl (s : Mm) : SamePages s s := ⟨rfl, rfl, rfl⟩

theorem SamePages.trans {t u : Mm} (h : SamePages s t) (h' : SamePages t u) : SamePages s u :=
  ⟨h'.mem.trans h.mem, h'.freePages.trans h.freePages, h'.numFreePages.trans h.numFreePages⟩

theorem kmalloc_samePages (l : Layout) (size : Word) (s : Mm) : SamePages s (PageAlloc.kmalloc l size s).2 := by
  simp only [PageAlloc.kmalloc]
  repeat' split
  all_goals exact ⟨rfl, rfl, rfl⟩

/-- The tables do not depend on the heap. -/
theorem VmInv.samePages {t : Mm} (h : VmInv lo s maps others node chain held) (hs : SamePages s t) :
    VmInv lo t maps others node chain held := by
  refine h.frame ⟨?_, ?_, h.split.nodup, h.split.cover⟩ (fun _ _ _ _ _ => by rw [hs.mem]) h.owned h.clients
  · rw [hs.mem, hs.freePages]
    exact h.split.linked
  · rw [hs.numFreePages]
    exact h.split.count

end Forget

section Lives

variable {l : Layout} {lo : Nat} {s t : Spaces} {maps : Word → Option PageMap} {others roots : List Word}
  {node node' : Nodes} {chain held chain' held' : List Word} {c : SpacesCall} {r : Word}

/-- Every page in use is a table of a root, at a key that `walk` can reach, or it has a client. -/
structure Whole (roots others : List Word) (maps : Word → Option PageMap) (node : Nodes)
    (held : List Word) : Prop where
  mapped : ∀ r, (maps r).isSome = true ↔ r ∈ roots
  nodup : roots.Nodup
  leafy : ∀ r m, maps r = some m → m.Leafy
  keys : ∀ k p, node k = some p → TableKey k.1 k
  used : ∀ p ∈ held, p ∈ others ∨ ∃ k, node k = some p

/-- The invariant of the runs, with the maps of the roots. -/
def Spaces.Inv (lo : Nat) (maps : Word → Option PageMap) (s : Spaces) : Prop :=
  ∃ node chain held, VmInv lo s.mm maps s.others node chain held ∧ Whole s.roots s.others maps node held

theorem Whole.map (h : Whole roots others maps node held) (hr : r ∈ roots) : ∃ m, maps r = some m :=
  Option.isSome_iff_exists.mp ((h.mapped r).mpr hr)

theorem Whole.setMap (h : Whole roots others maps node held) (hr : r ∈ roots) {m : PageMap} (hleaf : m.Leafy) :
    Whole roots others (Function.update maps r (some m)) node held := by
  obtain ⟨m₀, hm₀⟩ := h.map hr
  refine ⟨fun r' => ?_, h.nodup, ?_, h.keys, h.used⟩
  · rw [VmInv.setMap_isSome hm₀]
    exact h.mapped r'
  · intro r' m' hm'
    by_cases he : r' = r
    · rw [he, Function.update_self] at hm'
      cases hm'
      exact hleaf
    · rw [Function.update_of_ne he] at hm'
      exact h.leafy r' m' hm'

/-- The tables that `walk` links in are in use, at keys of their root. -/
theorem Whole.grows (h : Whole roots others maps node held)
    (hg : Grows (TableKey r) node chain held node' chain' held') : Whole roots others maps node' held' := by
  have hall := hg.invariant (I := fun node _ held => (∀ k p, node k = some p → TableKey k.1 k) ∧
    ∀ p ∈ held, p ∈ others ∨ ∃ k, node k = some p) ?_ ⟨h.keys, h.used⟩
  · exact ⟨h.mapped, h.nodup, h.leafy, hall.1, hall.2⟩
  · rintro node k q _ held hk hnone ⟨hkeys, hused⟩
    refine ⟨?_, ?_⟩
    · intro k' p hk'
      rcases update_node_cases hk' with ⟨rfl, _⟩ | hold
      · rwa [hk.1]
      · exact hkeys k' p hold
    · rw [List.forall_mem_cons]
      refine ⟨.inr ⟨k, Function.update_self ..⟩, ?_⟩
      intro p hp
      rcases hused p hp with ho | ⟨k', hk'⟩
      · exact .inl ho
      · exact .inr ⟨k', update_node_of_some hnone hk'⟩

theorem Spaces.Inv.start (hl : l.InRam) (mem : Mem) :
    Spaces.Inv (roundUp l.heapEnd.toNat) (fun _ => none) (Spaces.start l mem) :=
  ⟨_, _, _, VmInv.start hl mem, ⟨by simp [Spaces.start], List.nodup_nil, by simp, by simp, by simp⟩⟩

theorem Spaces.Inv.create (h : s.Inv lo maps) :
    ∃ maps', Spaces.Inv lo maps' ⟨(vmCreateUserPagetable s.mm).2, consPtr (vmCreateUserPagetable s.mm).1 s.roots,
      s.others⟩ ∧ ∀ r ∈ s.roots, maps' r = maps r := by
  obtain ⟨node, chain, held, h, hw⟩ := h
  cases chain with
  | nil =>
    refine ⟨maps, ?_, fun _ _ => rfl⟩
    rw [vmCreateUserPagetable, h.split.alloc_nil, consPtr, if_pos rfl]
    exact ⟨node, [], held, h, hw⟩
  | cons q qs =>
    have hq : (allocPage s.mm).1 = q := by rw [h.split.alloc_eq]
    have hnew : q ∉ s.roots := by
      intro hr
      obtain ⟨m, hm⟩ := hw.map hr
      rw [h.maps_fresh] at hm
      cases hm
    have hnone : node (q, []) = none := h.node_of_unmapped h.maps_fresh []
    rw [vmCreateUserPagetable, hq, consPtr, if_neg h.split.linked.2.1]
    refine ⟨Function.update maps q (some fun _ => none), ⟨_, _, _, h.create, ?_⟩, ?_⟩
    · refine ⟨?_, List.nodup_cons.mpr ⟨hnew, hw.nodup⟩, ?_, ?_, ?_⟩
      · intro r
        rw [List.mem_cons, ← hw.mapped r]
        by_cases hr : r = q
        · rw [hr, Function.update_self]
          simp
        · rw [Function.update_of_ne hr]
          simp [hr]
      · intro r m hm
        by_cases hr : r = q
        · rw [hr, Function.update_self] at hm
          cases hm
          intro v e he
          cases he
        · rw [Function.update_of_ne hr] at hm
          exact hw.leafy r m hm
      · intro k p hk
        rcases update_node_cases hk with ⟨rfl, _⟩ | hold
        · exact ⟨rfl, 0, by decide, List.nil_prefix⟩
        · exact hw.keys k p hold
      · rw [List.forall_mem_cons]
        refine ⟨.inr ⟨_, Function.update_self ..⟩, ?_⟩
        intro p hp
        rcases hw.used p hp with ho | ⟨k, hk⟩
        · exact .inl ho
        · exact .inr ⟨k, update_node_of_some hnone hk⟩
    · intro r hr
      rw [Function.update_of_ne]
      rintro rfl
      exact hnew hr

theorem Spaces.Inv.vmFree (hlo : 0 < lo) (h : s.Inv lo maps) (hr : r ∈ s.roots) :
    ∃ t, vmFree 3 r ⟨s.mm, []⟩ = .ret t ∧
      Spaces.Inv lo (Function.update maps r none) ⟨t.mm, s.roots.erase r, s.others⟩ := by
  obtain ⟨node, chain, held, h, hw⟩ := h
  obtain ⟨m, hm⟩ := hw.map hr
  have hkeys (js : List Nat) (p : Word) (hp : node (r, js) = some p) : TableKey r (r, js) := hw.keys _ p hp
  obtain ⟨t, ht, hinv⟩ := h.vmFree hlo hm (hw.leafy r m hm) hkeys
  refine ⟨t, ht, _, _, _, hinv, ⟨?_, hw.nodup.erase r, ?_, ?_, ?_⟩⟩
  · intro r'
    rw [hw.nodup.mem_erase_iff, ← hw.mapped r']
    by_cases he : r' = r
    · rw [he, Function.update_self]
      simp
    · rw [Function.update_of_ne he]
      simp [he]
  · intro r' m' hm'
    exact hw.leafy r' m' (update_none_some hm').2
  · intro k p hk
    exact hw.keys k p (without_some hk).2
  · intro p hp
    simp only [List.mem_filter, decide_eq_true_eq] at hp
    rcases hw.used p hp.1 with ho | ⟨k, hk⟩
    · exact .inl ho
    · refine .inr ⟨k, ?_⟩
      rw [without_ne, hk]
      intro he
      obtain ⟨r', js⟩ := k
      obtain rfl : r' = r := he
      exact hp.2 ((h.mem_tables hm hkeys p).mpr ⟨js, hk⟩)

theorem Spaces.Inv.allocPage (h : s.Inv lo maps) : Spaces.Inv lo maps
    ⟨(PageAlloc.allocPage s.mm).2, s.roots, consPtr (PageAlloc.allocPage s.mm).1 s.others⟩ := by
  obtain ⟨node, chain, held, h, hw⟩ := h
  cases chain with
  | nil =>
    rw [h.split.alloc_nil, consPtr, if_pos rfl]
    exact ⟨node, [], held, h, hw⟩
  | cons q qs =>
    have hq : (PageAlloc.allocPage s.mm).1 = q := by rw [h.split.alloc_eq]
    rw [hq, consPtr, if_neg h.split.linked.2.1]
    refine ⟨_, _, _, h.allocOther, ⟨hw.mapped, hw.nodup, hw.leafy, hw.keys, ?_⟩⟩
    rw [List.forall_mem_cons]
    refine ⟨.inl List.mem_cons_self, fun p hp => ?_⟩
    exact (hw.used p hp).imp_left (List.mem_cons_of_mem q)

theorem Spaces.Inv.freePage (hlo : 0 < lo) (h : s.Inv lo maps) {page : Word} (hp : page ∈ s.others) :
    Spaces.Inv lo maps ⟨PageAlloc.freePage page s.mm, s.roots, s.others.erase page⟩ := by
  obtain ⟨node, chain, held, h, hw⟩ := h
  refine ⟨_, _, _, h.freeOther hlo hp, ⟨hw.mapped, hw.nodup, hw.leafy, hw.keys, ?_⟩⟩
  intro q hq
  have hnd := (List.nodup_append'.mp h.split.nodup).2.1
  obtain ⟨hne, hq⟩ := hnd.mem_erase_iff.mp hq
  exact (hw.used q hq).imp_left (List.mem_erase_of_ne hne).mpr

/-- A call changes the map of its own address space only. -/
theorem SpacesStep.inv (hlo : 0 < lo) (hstep : SpacesStep l s c t) (hs : s.Inv lo maps) :
    ∃ maps', t.Inv lo maps' ∧ ∀ r ∈ s.roots, c.root ≠ some r → r ∈ t.roots ∧ maps' r = maps r := by
  have hother {pt : Word} (m : Option PageMap) {r : Word} (hne : some pt ≠ some r) :
      Function.update maps pt m r = maps r := Function.update_of_ne (fun he => hne (congrArg some he.symm)) _ _
  cases hstep with
  | create =>
    obtain ⟨maps', hinv, hsame⟩ := hs.create
    refine ⟨maps', hinv, fun r hr _ => ⟨?_, hsame r hr⟩⟩
    simp only [consPtr]
    split
    · exact hr
    · exact List.mem_cons_of_mem _ hr
  | mappages hpt hperm hrights hret =>
    obtain ⟨node, chain, held, h, hw⟩ := hs
    obtain ⟨m, hm⟩ := hw.map hpt
    obtain ⟨k, node', chain', held', hinv, hgrow, _⟩ := h.mappages_prefix hm hperm hret
    refine ⟨_, ⟨node', chain', held', hinv, ?_⟩, fun r hr hne => ⟨hr, hother _ hne⟩⟩
    exact (hw.grows hgrow).setMap hpt ((hw.leafy _ m hm).mapRange _ _ _ hrights)
  | @unmappages pt va size mm hpt hret =>
    obtain ⟨node, chain, held, h, hw⟩ := hs
    obtain ⟨m, hm⟩ := hw.map hpt
    by_cases hsize : size = 0#64
    · simp only [Vm.unmappages, hsize, if_true, Outcome.ret.injEq] at hret
      subst hret
      exact ⟨maps, ⟨node, chain, held, h, hw⟩, fun r hr _ => ⟨hr, rfl⟩⟩
    · obtain ⟨k, hinv, _⟩ := h.unmappages_maps hm hsize hret
      refine ⟨_, ⟨node, chain, held, hinv, ?_⟩, fun r hr hne => ⟨hr, hother _ hne⟩⟩
      exact hw.setMap hpt ((hw.leafy _ m hm).unmapRange _ _)
  | vmFree hpt hret =>
    obtain ⟨t, ht, hinv⟩ := hs.vmFree hlo hpt
    rw [hret] at ht
    cases ht
    refine ⟨_, hinv, fun r hr hne => ⟨?_, hother _ hne⟩⟩
    exact (List.mem_erase_of_ne fun he => hne (congrArg some he.symm)).mpr hr
  | allocPage => exact ⟨maps, hs.allocPage, fun r hr _ => ⟨hr, rfl⟩⟩
  | freePage hp => exact ⟨maps, hs.freePage hlo hp, fun r hr _ => ⟨hr, rfl⟩⟩
  | store hp hi =>
    obtain ⟨node, chain, held, h, hw⟩ := hs
    exact ⟨maps, ⟨node, chain, held, h.storeOther hp hi, hw⟩, fun r hr _ => ⟨hr, rfl⟩⟩
  | kmalloc =>
    obtain ⟨node, chain, held, h, hw⟩ := hs
    exact ⟨maps, ⟨node, chain, held, h.samePages (kmalloc_samePages l _ _), hw⟩, fun r hr _ => ⟨hr, rfl⟩⟩

theorem Spaces.Inv.samePages {mm mm' : Mm} (h : Spaces.Inv lo maps ⟨mm, roots, others⟩) (hs : SamePages mm mm') :
    Spaces.Inv lo maps ⟨mm', roots, others⟩ := by
  obtain ⟨node, chain, held, h, hw⟩ := h
  exact ⟨node, chain, held, h.samePages hs, hw⟩

theorem Spaces.run_inv (hl : l.InRam) {mem : Mem} {calls : List SpacesCall}
    (h : Run (SpacesStep l) (Spaces.start l mem) calls s) : ∃ maps, s.Inv (roundUp l.heapEnd.toNat) maps := by
  refine h.invariant (fun s => ∃ maps, Spaces.Inv (roundUp l.heapEnd.toNat) maps s) ?_ ⟨_, .start hl mem⟩
  rintro s c t ⟨maps, hs⟩ hstep
  obtain ⟨maps', ht, _⟩ := hstep.inv hl.roundUp_pos hs
  exact ⟨maps', ht⟩

/-- The pages in use are the tables of the roots and the pages of the clients. -/
theorem Whole.held_perm {mm : Mm} (hw : Whole roots others maps node held)
    (h : VmInv lo mm maps others node chain held) : held.Perm (roots.flatMap (tablesOf mm) ++ others) := by
  have hmem (r : Word) (hr : r ∈ roots) (q : Word) : q ∈ tablesOf mm r ↔ ∃ js, node (r, js) = some q := by
    obtain ⟨m, hm⟩ := hw.map hr
    exact h.mem_tables hm (fun js p hp => hw.keys (r, js) p hp) q
  have hroot {r : Word} {js : List Nat} {p : Word} (hp : node (r, js) = some p) : r ∈ roots :=
    (hw.mapped r).mp (h.forest.dom r js p hp).1
  refine (List.perm_ext_iff_of_nodup (List.nodup_append'.mp h.split.nodup).2.1 ?_).mpr ?_
  · refine List.nodup_append'.mpr ⟨List.nodup_flatMap.mpr ⟨?_, ?_⟩, h.clients.1, ?_⟩
    · intro r hr
      obtain ⟨m, hm⟩ := hw.map hr
      exact postorder_nodup (h.pathsInj hm)
    · refine hw.nodup.imp_of_mem ?_
      intro r r' hr hr' hne q hq hq'
      obtain ⟨js, hq⟩ := (hmem r hr q).mp hq
      obtain ⟨js', hq'⟩ := (hmem r' hr' q).mp hq'
      exact hne (congrArg Prod.fst (h.forest.inj _ _ _ hq hq'))
    · intro q hq ho
      obtain ⟨r, hr, hq⟩ := List.mem_flatMap.mp hq
      obtain ⟨js, hq⟩ := (hmem r hr q).mp hq
      exact (h.owned _ q hq).2 ho
  · intro q
    rw [List.mem_append, List.mem_flatMap]
    constructor
    · intro hq
      rcases hw.used q hq with ho | ⟨⟨r, js⟩, hk⟩
      · exact .inr ho
      · exact .inl ⟨r, hroot hk, (hmem r (hroot hk) q).mpr ⟨js, hk⟩⟩
    · rintro (⟨r, hr, hq⟩ | ho)
      · obtain ⟨js, hq⟩ := (hmem r hr q).mp hq
        exact (h.owned _ q hq).1
      · exact h.clients.2 q ho

theorem allPages_nodup (hl : l.InRam) : (allPages l).Nodup := by
  refine List.Nodup.map_on ?_ List.nodup_range
  intro i hi j hj he
  exact pageAt_inj hl (List.mem_range.mp hi) (List.mem_range.mp hj) he

theorem split_perm_allPages {mm : Mm} (hl : l.InRam) (h : Split (roundUp l.heapEnd.toNat) mm chain held) :
    (chain ++ held).Perm (allPages l) := by
  refine (List.perm_ext_iff_of_nodup h.nodup (allPages_nodup hl)).mpr ?_
  intro p
  rw [h.cover p, pageAt_isPage hl]
  simp only [allPages, List.mem_map, List.mem_range]

end Lives

end RiscvOs.Vm
