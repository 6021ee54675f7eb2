import RiscvOs.PageTableMaps
set_option autoImplicit false

/-!
Any number of address spaces over one page allocator that also serves other clients.
Every call is made on the memory and, beside it, on the abstract maps; the tables in
memory represent the maps in every state that can be reached.
-/

namespace RiscvOs.Vm
open WordMemory PageAlloc Runs

/-- `maps` has the abstract map of each table created so far; `others` are the pages
the other clients hold. -/
structure VmSys where
  mm : Mm
  maps : Word → Option PageMap
  others : List Word

inductive VmCall where
  | create
  | mappages (pt va size pa : Word) (perm : BitVec 32)
  | unmappages (pt va size : Word)
  | allocPage
  | freePage (page : Word)
  | store (page : Word) (i : Nat) (v : Word)

/-- The return value of a call that returned. -/
def Outcome.code : Outcome (Int × Mm) → Option Int
  | .ret r => some r.1
  | _ => none

def firstPage (va : Word) : Nat := va.toNat / 4096

/-- The number of pages from `va>>12` to `(va+size-1)>>12`. -/
def pageCount (va size : Word) : Nat :=
  (va.toNat + size.toNat - 1) / 4096 - va.toNat / 4096 + 1

/-- Page `w` is one of the pages of the range. -/
def InRange (va size : Word) (w : Nat) : Prop :=
  firstPage va ≤ w ∧ w < firstPage va + pageCount va size

inductive VmStep (s : VmSys) : VmCall → VmSys → Prop
  | create {pt : Word} {mm : Mm} (hret : vmCreateUserPagetable s.mm = (pt, mm)) (hpt : pt ≠ 0#64) :
      VmStep s .create ⟨mm, Function.update s.maps pt (some fun _ => none), s.others⟩
  | createNull {mm : Mm} (hret : vmCreateUserPagetable s.mm = (0#64, mm)) :
      VmStep s .create ⟨mm, s.maps, s.others⟩
  | mappages {pt va size pa : Word} {perm : BitVec 32} {m : PageMap} {mm : Mm}
      (hm : s.maps pt = some m) (hva : va.toNat + size.toNat ≤ maxVa.toNat)
      (hfree : ∀ w, InRange va size w → m w = none) (hperm : perm.toNat < 1024)
      (hret : mappages s.mm pt va size pa perm = .ret (0, mm)) :
      VmStep s (.mappages pt va size pa perm) ⟨mm, Function.update s.maps pt
        (some (m.mapRange (firstPage va) (pageCount va size) (pa.toNat / 4096) perm)), s.others⟩
  | unmappages {pt va size : Word} {m : PageMap} {mm : Mm}
      (hm : s.maps pt = some m) (hva : va.toNat + size.toNat ≤ maxVa.toNat) (hsize : size ≠ 0#64)
      (hmapped : ∀ w, InRange va size w → (m w).isSome)
      (hret : unmappages s.mm pt va size = .ret mm) :
      VmStep s (.unmappages pt va size) ⟨mm, Function.update s.maps pt
        (some (m.unmapRange (firstPage va) (pageCount va size))), s.others⟩
  | allocPage : VmStep s .allocPage ⟨(PageAlloc.allocPage s.mm).2, s.maps,
      if (PageAlloc.allocPage s.mm).1 = 0#64 then s.others
      else (PageAlloc.allocPage s.mm).1 :: s.others⟩
  | freePage {page : Word} (hp : page ∈ s.others) :
      VmStep s (.freePage page) ⟨PageAlloc.freePage page s.mm, s.maps, s.others.erase page⟩
  | store {page : Word} {i : Nat} {v : Word} (hp : page ∈ s.others) (hi : i < 512) :
      VmStep s (.store page i v) ⟨s.mm.store (slot page i) v, s.maps, s.others⟩

def VmSys.start (l : Layout) (mem : Mem) : VmSys := ⟨mmInit l mem, fun _ => none, []⟩

section Steps

variable {lo : Nat} {s : Mm} {maps : Word → Option PageMap} {others : List Word}
  {node : Nodes} {chain held : List Word}

/-- Before there is any table, the pages in use are those of the other clients. -/
theorem VmInv.empty (h : Split lo s chain held) :
    VmInv lo s (fun _ => none) held (fun _ => none) chain held := by
  refine ⟨h, ⟨?_, ?_, ?_, ?_, ?_⟩, ?_, ⟨(List.nodup_append'.mp h.nodup).2.1, ?_⟩, ?_, ?_⟩ <;> simp [Leaves]

theorem VmInv.start {l : Layout} (hl : l.InRam) (mem : Mem) :
    VmInv (roundUp l.heapEnd.toNat) (mmInit l mem) (fun _ => none) [] (fun _ => none)
      ((List.range (numPages l)).map (pageAt l)) [] :=
  .empty (mmInit_split hl mem)

theorem VmInv.node_of_unmapped (h : VmInv lo s maps others node chain held) {r : Word}
    (hr : maps r = none) (is : List Nat) : node (r, is) = none := by
  cases hn : node (r, is) with
  | none => rfl
  | some p =>
    have hroot := (h.forest.dom r is p hn).1
    simp [hr] at hroot

theorem VmInv.maps_fresh {q : Word} {qs : List Word}
    (h : VmInv lo s maps others node (q :: qs) held) : maps q = none := by
  cases hm : maps q with
  | none => rfl
  | some m => exact absurd (h.node_root hm) (h.tables.alloc_unused _)

theorem VmInv.create_forest {q : Word} {qs : List Word}
    (h : VmInv lo s maps others node (q :: qs) held) (m : PageMap) :
    Forest (allocPage s).2.mem (fun r => (Function.update maps q (some m) r).isSome)
      (Function.update node (q, []) (some q)) := by
  have hnone := h.node_of_unmapped h.maps_fresh
  have hroot (r : Word) (hr : r ≠ q) : Function.update maps q (some m) r = maps r :=
    Function.update_of_ne hr _ _
  have hne (r : Word) (is : List Nat) (p : Word) (hk : node (r, is) = some p) : r ≠ q := by
    intro he
    rw [he, hnone is] at hk
    cases hk
  refine ⟨?_, ?_, ?_, ?_, ?_⟩
  · intro r hr
    by_cases he : r = q
    · subst he
      exact Function.update_self ..
    · rw [hroot r he] at hr
      exact update_node_of_some (hnone []) (h.forest.root r hr)
  · intro r is p hk
    cases update_node_cases hk with
    | inl hnew =>
      cases hnew.1
      simp
    | inr hk =>
      rw [hroot r (hne r is p hk)]
      exact h.forest.dom r is p hk
  · intro r is i c hk
    cases update_node_cases hk with
    | inl hnew =>
      have he := congrArg (fun k => k.2.length) hnew.1
      simp at he
    | inr hk =>
      obtain ⟨p, hp⟩ := h.forest.parent r is i c hk
      exact ⟨p, update_node_of_some (hnone []) hp⟩
  · intro r is p i hk hlen hi
    have hstep : Function.update node (q, []) (some q) (r, is ++ [i]) = node (r, is ++ [i]) := by
      apply Function.update_of_ne
      simp
    rw [hstep]
    cases update_node_cases hk with
    | inl hnew =>
      obtain ⟨he, rfl⟩ := hnew
      cases he
      rw [hnone]
      exact h.tables.alloc_clear hi
    | inr hk =>
      rw [h.tables.alloc_frame hk hi]
      exact h.forest.entry r is p i hk hlen hi
  · exact h.forest.inj_update h.tables.alloc_unused

theorem VmInv.alloc_ne_others {q : Word} {qs : List Word}
    (h : VmInv lo s maps others node (q :: qs) held) : q ∉ others := by
  intro hq
  exact h.split.ne_of_mem (p := q) (by simp) (h.clients.2 q hq) rfl

/-- A new root is an empty address space of its own. -/
theorem VmInv.create {q : Word} {qs : List Word}
    (h : VmInv lo s maps others node (q :: qs) held) :
    VmInv lo (allocPage s).2 (Function.update maps q (some fun _ => none)) others
      (Function.update node (q, []) (some q)) qs (q :: held) := by
  have hkey (r : Word) (v : Nat) :
      Function.update node (q, []) (some q) (r, leafPath v) = node (r, leafPath v) := by
    apply Function.update_of_ne
    simp [leafPath]
  refine ⟨h.split.alloc, h.create_forest _, ?_, ?_, ?_, ?_⟩
  · intro k p hk
    cases update_node_cases hk with
    | inl hnew =>
      obtain ⟨_, rfl⟩ := hnew
      exact ⟨by simp, h.alloc_ne_others⟩
    | inr hk =>
      have ho := h.owned k p hk
      exact ⟨by simp [ho.1], ho.2⟩
  · exact ⟨h.clients.1, fun p hp => by simp [h.clients.2 p hp]⟩
  · intro r m hm v hv
    rw [hkey]
    by_cases he : r = q
    · subst he
      rw [Function.update_self] at hm
      cases hm
      simp [h.node_of_unmapped h.maps_fresh]
    · rw [Function.update_of_ne he] at hm
      have hl := h.leaves r m hm v hv
      cases hn : node (r, leafPath v) with
      | none => simpa [hn] using hl
      | some p =>
        simp only [hn] at hl ⊢
        rw [h.tables.alloc_frame hn (Nat.mod_lt _ (by decide))]
        exact hl
  · intro r m v hm hv
    by_cases he : r = q
    · subst he
      rw [Function.update_self] at hm
      cases hm
      rfl
    · rw [Function.update_of_ne he] at hm
      exact h.bounded r m v hm hv

theorem VmInv.allocOther {q : Word} {qs : List Word}
    (h : VmInv lo s maps others node (q :: qs) held) :
    VmInv lo (allocPage s).2 maps (q :: others) node qs (q :: held) := by
  refine h.frame h.split.alloc (fun k p i hk hi => h.tables.alloc_frame hk hi) ?_ ⟨?_, ?_⟩
  · intro k p hk
    have ho := h.owned k p hk
    have hne : p ≠ q := fun he => h.tables.alloc_unused k (he ▸ hk)
    simp [ho, hne]
  · exact List.nodup_cons.mpr ⟨h.alloc_ne_others, h.clients.1⟩
  · intro p hp
    cases List.mem_cons.mp hp with
    | inl he => simp [he]
    | inr hp => simp [h.clients.2 p hp]

theorem VmInv.storeOther {page v : Word} {i : Nat} (h : VmInv lo s maps others node chain held)
    (hp : page ∈ others) (hi : i < 512) :
    VmInv lo (s.store (slot page i) v) maps others node chain held := by
  have hheld := h.clients.2 page hp
  refine h.frame (h.split.store hheld hi v) ?_ h.owned h.clients
  intro k p j hk hj
  rw [Mm.store_mem, Function.update_of_ne]
  intro hs
  obtain ⟨rfl, _⟩ := (slot_inj (h.aligned hk) (h.split.isPage_held hheld).aligned hj hi).mp hs
  exact (h.owned k p hk).2 hp

theorem VmInv.freeOther {page : Word} (h : VmInv lo s maps others node chain held) (hlo : 0 < lo)
    (hp : page ∈ others) :
    VmInv lo (freePage page s) maps (others.erase page) node (page :: chain) (held.erase page) := by
  have hheld := h.clients.2 page hp
  have hpage := h.split.isPage_held hheld
  have hnull : page ≠ 0#64 := by
    intro hz
    have hle := hpage.1
    rw [hz, BitVec.toNat_zero] at hle
    omega
  have hne (k : Word × List Nat) (p : Word) (hk : node k = some p) : p ≠ page := by
    intro he
    exact (h.owned k p hk).2 (he ▸ hp)
  refine h.frame (h.split.free hlo hheld) ?_ ?_ ⟨h.clients.1.erase page, ?_⟩
  · intro k p i hk hi
    simp only [freePage, hnull, if_false]
    apply Function.update_of_ne
    exact (ne_slot_of_ne (h.aligned hk) hpage.aligned hi (hne k p hk).symm).symm
  · intro k p hk
    have ho := h.owned k p hk
    exact ⟨(List.mem_erase_of_ne (hne k p hk)).mpr ho.1, fun hm => ho.2 (List.mem_of_mem_erase hm)⟩
  · intro p hm
    have hpp := (h.clients.1.mem_erase_iff).mp hm
    exact (List.mem_erase_of_ne hpp.1).mpr (h.clients.2 p hpp.2)

/-- However `mappages` returns, it has mapped the first `k` pages of its range, none of which was
mapped before. -/
theorem VmInv.mappages_prefix {r va size pa : Word} {perm : BitVec 32} {m : PageMap} {c : Int}
    {s' : Mm} (h : VmInv lo s maps others node chain held) (hm : maps r = some m)
    (hperm : perm.toNat < 1024) (hret : mappages s r va size pa perm = .ret (c, s')) :
    ∃ k node' chain' held', VmInv lo s' (Function.update maps r (some (m.mapRange (firstPage va) k
        (pa.toNat / 4096) perm))) others node' chain' held' ∧
      Grows (TableKey r) node chain held node' chain' held' ∧
      (∀ w, firstPage va ≤ w → w < firstPage va + k → m w = none) ∧
      (c = 0 → 0 < k ∧ (va.toNat + size.toNat ≤ 2^38 → k = pageCount va size)) := by
  unfold mappages at hret
  by_cases hsize : size = 0#64
  · simp [hsize] at hret
  rw [if_neg hsize] at hret
  obtain ⟨k, node', chain', held', hinv, hgrow, hfresh, hdone⟩ :=
    mappagesLoop_maps h hm (round_aligned va) hperm hret
  have hfirst : (va / pgSize * pgSize).toNat / 4096 = firstPage va := by
    simp only [round_toNat, firstPage]
    omega
  rw [hfirst] at hinv hfresh hdone
  refine ⟨k, node', chain', held', hinv, hgrow, hfresh, ?_⟩
  intro hc
  obtain ⟨_, hk⟩ := hdone hc
  refine ⟨by omega, ?_⟩
  intro hva
  rw [hk, last_toNat hsize hva, pageCount, firstPage]
  omega

theorem VmInv.mappages_maps {r va size pa : Word} {perm : BitVec 32} {m : PageMap} {s' : Mm}
    (h : VmInv lo s maps others node chain held) (hm : maps r = some m)
    (hva : va.toNat + size.toNat ≤ maxVa.toNat) (hperm : perm.toNat < 1024)
    (hret : mappages s r va size pa perm = .ret (0, s')) :
    ∃ node' chain' held', VmInv lo s' (Function.update maps r (some (m.mapRange (firstPage va)
      (pageCount va size) (pa.toNat / 4096) perm))) others node' chain' held' := by
  obtain ⟨k, node', chain', held', hinv, _, _, hk⟩ := h.mappages_prefix hm hperm hret
  rw [(hk rfl).2 hva] at hinv
  exact ⟨node', chain', held', hinv⟩

theorem VmInv.unmappages_maps {r va size : Word} {m : PageMap} {s' : Mm}
    (h : VmInv lo s maps others node chain held) (hm : maps r = some m) (hsize : size ≠ 0#64)
    (hret : unmappages s r va size = .ret s') :
    ∃ k, VmInv lo s' (Function.update maps r (some (m.unmapRange (firstPage va) k)))
      others node chain held ∧ (va.toNat + size.toNat ≤ 2^38 → k = pageCount va size) := by
  unfold unmappages at hret
  rw [if_neg hsize] at hret
  obtain ⟨_, hinv⟩ := unmappagesLoop_maps h hm (round_aligned va) hret
  have hfirst : (va / pgSize * pgSize).toNat / 4096 = firstPage va := by
    simp only [round_toNat, firstPage]
    omega
  rw [hfirst] at hinv
  refine ⟨_, hinv, ?_⟩
  intro hva
  rw [last_toNat hsize hva, pageCount, firstPage]
  omega

end Steps

def VmSys.Inv (lo : Nat) (s : VmSys) : Prop :=
  ∃ node chain held, VmInv lo s.mm s.maps s.others node chain held

theorem VmStep.inv {lo : Nat} (hlo : 0 < lo) {s t : VmSys} {c : VmCall} (hs : s.Inv lo)
    (h : VmStep s c t) : t.Inv lo := by
  obtain ⟨node, chain, held, hs⟩ := hs
  cases h with
  | create hret hpt =>
    cases chain with
    | nil =>
      simp only [vmCreateUserPagetable, hs.split.alloc_nil, Prod.mk.injEq] at hret
      exact absurd hret.1.symm hpt
    | cons q qs =>
      have hcreate := hs.create
      simp only [vmCreateUserPagetable] at hret
      have hq : (PageAlloc.allocPage s.mm).1 = q := by rw [hs.split.alloc_eq]
      rw [hret] at hcreate hq
      exact ⟨_, _, _, hq ▸ hcreate⟩
  | createNull hret =>
    cases chain with
    | nil =>
      simp only [vmCreateUserPagetable, hs.split.alloc_nil, Prod.mk.injEq, true_and] at hret
      exact ⟨node, [], held, hret ▸ hs⟩
    | cons q qs =>
      have hq : (PageAlloc.allocPage s.mm).1 = q := by rw [hs.split.alloc_eq]
      simp only [vmCreateUserPagetable] at hret
      rw [hret] at hq
      exact absurd hq.symm hs.split.linked.2.1
  | mappages hm hva hfree hperm hret => exact hs.mappages_maps hm hva hperm hret
  | unmappages hm hva hsize hmapped hret =>
    obtain ⟨k, hinv, hk⟩ := hs.unmappages_maps hm hsize hret
    rw [hk hva] at hinv
    exact ⟨node, chain, held, hinv⟩
  | allocPage =>
    cases chain with
    | nil =>
      refine ⟨node, [], held, ?_⟩
      simpa [hs.split.alloc_nil] using hs
    | cons q qs =>
      have hq : (PageAlloc.allocPage s.mm).1 = q := by rw [hs.split.alloc_eq]
      refine ⟨node, qs, q :: held, ?_⟩
      simp only [hq, hs.split.linked.2.1, if_false]
      exact hs.allocOther
  | freePage hp => exact ⟨node, _, _, hs.freeOther hlo hp⟩
  | store hp hi => exact ⟨node, chain, held, hs.storeOther hp hi⟩

/-- In every reachable state every table represents its abstract map, which only the
calls on that table have changed, each by exactly its range of pages. -/
theorem pageTables_refine_maps {l : Layout} {mem : Mem} {calls : List VmCall} {s : VmSys}
    (hl : l.InRam) (h : Run VmStep (VmSys.start l mem) calls s) :
    ∀ pt m, s.maps pt = some m → Refines s.mm pt m := by
  have hinv := h.invariant (VmSys.Inv (roundUp l.heapEnd.toNat))
    (fun s c t hs hstep => hstep.inv hl.roundUp_pos hs) ⟨_, _, _, VmInv.start hl mem⟩
  obtain ⟨node, chain, held, hs⟩ := hinv
  intro pt m hm
  exact hs.refines hl.roundUp_pos hm

theorem Outcome.eq_ret_of_code {o : Outcome (Int × Mm)} {c : Int} (h : o.code = some c) :
    ∃ mm, o = .ret (c, mm) := by
  cases o with
  | ret r =>
    cases h
    exact ⟨r.2, rfl⟩
  | panic msg => cases h
  | spin => cases h

def Outcome.toOption {α : Type} : Outcome α → Option α
  | .ret a => some a
  | _ => none

theorem Outcome.map_toOption {α β : Type} {o : Outcome α} {f : α → β} {b : β} (h : o.toOption.map f = some b) :
    ∃ a, o = .ret a ∧ f a = b := by
  cases o with
  | ret a =>
    cases h
    exact ⟨a, rfl, rfl⟩
  | panic msg => cases h
  | spin => cases h

/-- One table is created and maps the page at `0x1000`, which takes all three free pages. -/
theorem pageTables_refine_maps_smallLayout :
    ∃ s, Run VmStep (VmSys.start smallLayout (fun _ => 7#64))
        [.create, .mappages 0x87FFD000#64 0x1000#64 4096#64 0x80100000#64 0x16#32] s ∧
      ∃ m, s.maps 0x87FFD000#64 = some m ∧ m 1 = some (entryOf (0x80100000 / 4096) 0x16#32) ∧
        Refines s.mm 0x87FFD000#64 m := by
  have hl : smallLayout.InRam := by decide +kernel
  obtain ⟨mm, hmm⟩ : ∃ mm, vmCreateUserPagetable (mmInit smallLayout (fun _ => 7#64)) =
      (0x87FFD000#64, mm) :=
    ⟨_, Prod.ext (by decide +kernel) rfl⟩
  have hcode : (mappages (vmCreateUserPagetable (mmInit smallLayout (fun _ => 7#64))).2
      0x87FFD000#64 0x1000#64 4096#64 0x80100000#64 0x16#32).code = some 0 := by
    decide +kernel
  rw [hmm] at hcode
  obtain ⟨mm', hmm'⟩ := Outcome.eq_ret_of_code hcode
  have hempty : Function.update (fun _ => none) 0x87FFD000#64 (some fun _ => none)
      0x87FFD000#64 = (some fun _ => none : Option PageMap) := Function.update_self ..
  have hrun : Run VmStep (VmSys.start smallLayout (fun _ => 7#64))
      [.create, .mappages 0x87FFD000#64 0x1000#64 4096#64 0x80100000#64 0x16#32] _ :=
    ⟨_, .create hmm (by decide), _,
      .mappages hempty (by decide) (fun _ _ => rfl) (by decide) hmm', rfl⟩
  have href := pageTables_refine_maps hl hrun 0x87FFD000#64
  simp only [Function.update_self, Option.some.injEq, forall_eq'] at href
  refine ⟨_, hrun, _, ?_, ?_, href⟩
  · simp only [Function.update_self]
  · rfl

end RiscvOs.Vm
