import RiscvOs.PageTableFree
set_option autoImplicit false

/-!
The page table of the kernel. `kvminit` maps four ranges to themselves; it needs 101
tables for that, and never fails when the allocator starts with as many pages.
-/

namespace RiscvOs.Vm
open WordMemory PageAlloc Runs Trees

/-- The tables are at keys of `K`, they are all the pages in use, and the free list is long
enough for the keys that have no table yet. -/
structure Budget (K : List (Word × List Nat)) (node : Nodes) (chain held : List Word) : Prop where
  keys : ∀ k p, node k = some p → k ∈ K
  tables : ∀ p ∈ held, ∃ k, node k = some p
  enough : K.length ≤ chain.length + held.length

section Budget

variable {K : List (Word × List Nat)} {node node' : Nodes} {chain held chain' held' : List Word}

theorem Budget.grows (h : Budget K node chain held)
    (hg : Grows (· ∈ K) node chain held node' chain' held') : Budget K node' chain' held' := by
  refine hg.invariant (I := Budget K) ?_ h
  intro node k q qs held hk hnone hb
  refine ⟨?_, ?_, ?_⟩
  · intro k' p hk'
    rcases update_node_cases hk' with hnew | hold
    · exact hnew.1 ▸ hk
    · exact hb.keys k' p hold
  · intro p hp
    rcases List.mem_cons.mp hp with rfl | hp
    · exact ⟨k, Function.update_self ..⟩
    · obtain ⟨k', hk'⟩ := hb.tables p hp
      exact ⟨k', update_node_of_some hnone hk'⟩
  · have hle := hb.enough
    simp only [List.length_cons] at hle ⊢
    omega

/-- As long as a key of `K` has no table, there is a free page for it. -/
theorem Budget.chain_ne_nil (h : Budget K node chain held) (hnd : held.Nodup)
    {k : Word × List Nat} (hk : k ∈ K) (hnone : node k = none) : chain ≠ [] := by
  intro hnil
  have hsub : held ⊆ (K.erase k).filterMap node := by
    intro p hp
    obtain ⟨k', hk'⟩ := h.tables p hp
    have hne : k' ≠ k := by
      intro he
      rw [he, hnone] at hk'
      cases hk'
    exact List.mem_filterMap.mpr ⟨k', (List.mem_erase_of_ne hne).mpr (h.keys k' p hk'), hk'⟩
  have hle := (List.subperm_of_subset hnd hsub).length_le
  have hfilter := List.length_filterMap_le node (K.erase k)
  have herase := List.length_erase_of_mem hk
  have hpos := List.length_pos_of_mem hk
  have henough := h.enough
  simp only [hnil, List.length_nil] at henough
  omega

end Budget

section Mapping

variable {lo : Nat} {s : Mm} {maps : Word → Option PageMap} {others : List Word} {node : Nodes}
  {chain held : List Word} {r a last pa va size : Word} {m : PageMap} {K : List (Word × List Nat)}
  {perm : BitVec 32}

/-- One round of the loop at a page that is not mapped: the budget pays for the tables. -/
theorem mapPage_returns (pa : Word) (hlo : 0 < lo) (h : VmInv lo s maps others node chain held)
    (hm : maps r = some m) (hb : Budget K node chain held) (hva : a.toNat < 2^38)
    (hperm : perm.toNat < 1024) (hK : ∀ js, js <+: leafPath (a.toNat / 4096) → (r, js) ∈ K)
    (hfree : m (a.toNat / 4096) = none) :
    (walk s r a true).1 ≠ 0#64 ∧ pteValid ((walk s r a true).2.mem (walk s r a true).1) = false ∧
      ∃ node' chain' held', VmInv lo ((walk s r a true).2.store (walk s r a true).1
          (pa2pte pa ||| perm.signExtend 64 ||| pteV)) (Function.update maps r
          (some (Function.update m (a.toNat / 4096) (some (entryOf (pa.toNat / 4096) perm)))))
          others node' chain' held' ∧
        Budget K node' chain' held' := by
  obtain ⟨node', chain', held', h', hgrow, hres⟩ := h.walk_alloc hm a hva hK
  have hb' := hb.grows hgrow
  have hnd := (List.nodup_append'.mp h'.split.nodup).2.1
  obtain ⟨p, hp, haddr⟩ := hres.resolve_right fun ⟨_, hnil, k, hk, hnone⟩ =>
    hb'.chain_ne_nil hnd hk hnone hnil
  have hidx : a.toNat / 4096 % 512 < 512 := Nat.mod_lt _ (by decide)
  have hword := h'.leaves r m hm (a.toNat / 4096) (by omega)
  simp only [hp, hfree, leafWord] at hword
  rw [haddr, hword, mappages_pte pa hperm]
  exact ⟨h'.tables.slot_ne_zero hlo hp hidx, pteValid_zero, node', chain', held',
    h'.setLeaf hm (by omega) hp (some _), hb'⟩

/-- With a budget for its tables, the loop maps every page of a range that is not mapped. -/
theorem mappagesLoop_returns (pa : Word) {k n : Nat} (hlo : 0 < lo) (h : VmInv lo s maps others node chain held)
    (hm : maps r = some m) (hb : Budget K node chain held) (ha : Aligned a)
    (hlast : a.toNat + 4096 * k = last.toNat) (hmax : last.toNat < 2^38) (hperm : perm.toNat < 1024)
    (hK : ∀ i ≤ k, ∀ js, js <+: leafPath (a.toNat / 4096 + i) → (r, js) ∈ K)
    (hfree : ∀ i ≤ k, m (a.toNat / 4096 + i) = none) (hn : k < n) :
    ∃ s' node' chain' held', mappagesLoop r last perm n a pa s = .ret (0, s') ∧
      VmInv lo s' (Function.update maps r (some (m.mapRange (a.toNat / 4096) (k+1) (pa.toNat / 4096)
        perm))) others node' chain' held' ∧ Budget K node' chain' held' := by
  induction k generalizing s maps node chain held m a pa n with
  | zero =>
    obtain ⟨n, rfl⟩ : ∃ n', n = n' + 1 := ⟨n - 1, by omega⟩
    obtain rfl : a = last := BitVec.eq_of_toNat_eq (by omega)
    obtain ⟨hne, hinvalid, node', chain', held', h', hb'⟩ :=
      mapPage_returns pa hlo h hm hb hmax hperm (hK 0 (by omega)) (hfree 0 (by omega))
    rw [← PageMap.mapRange_one] at h'
    refine ⟨_, node', chain', held', ?_, h', hb'⟩
    simp only [mappagesLoop, hne, hinvalid, Bool.false_eq_true, if_false, if_true]
  | succ k ih =>
    obtain ⟨n, rfl⟩ : ∃ n', n = n' + 1 := ⟨n - 1, by omega⟩
    have hend : a ≠ last := by
      rintro rfl
      omega
    obtain ⟨hne, hinvalid, node', chain', held', h', hb'⟩ :=
      mapPage_returns pa hlo h hm hb (by omega) hperm (hK 0 (by omega)) (hfree 0 (by omega))
    obtain ⟨ha', hnat⟩ := page_succ ha (by omega)
    have hpage : (a.toNat + 4096) / 4096 = a.toNat / 4096 + 1 := by omega
    have hnext (i : Nat) : a.toNat / 4096 + 1 + i = a.toNat / 4096 + (i + 1) := by omega
    have hK' (i : Nat) (hi : i ≤ k) (js : List Nat)
        (hjs : js <+: leafPath ((a + pgSize).toNat / 4096 + i)) : (r, js) ∈ K := by
      rw [hnat, hpage, hnext] at hjs
      exact hK (i + 1) (by omega) js hjs
    have hfree' (i : Nat) (hi : i ≤ k) : Function.update m (a.toNat / 4096)
        (some (entryOf (pa.toNat / 4096) perm)) ((a + pgSize).toNat / 4096 + i) = none := by
      rw [hnat, hpage, hnext, Function.update_of_ne (by omega)]
      exact hfree (i + 1) (by omega)
    obtain ⟨s', node₂, chain₂, held₂, hret, h₂, hb₂⟩ :=
      ih (pa + pgSize) (n := n) h' (Function.update_self ..) hb' ha' (by omega) hK' hfree' (by omega)
    rw [Function.update_idem, hnat, ppn_succ, hpage, PageMap.mapRange_succ] at h₂
    refine ⟨s', node₂, chain₂, held₂, ?_, h₂, hb₂⟩
    simp only [mappagesLoop, hne, hinvalid, Bool.false_eq_true, if_false, hend]
    exact hret

theorem mappages_returns (pa : Word) (hlo : 0 < lo) (h : VmInv lo s maps others node chain held)
    (hm : maps r = some m) (hb : Budget K node chain held) (hsize : size ≠ 0#64)
    (hva : va.toNat + size.toNat ≤ 2^38) (hperm : perm.toNat < 1024)
    (hK : ∀ w, InRange va size w → ∀ js, js <+: leafPath w → (r, js) ∈ K)
    (hfree : ∀ w, InRange va size w → m w = none) :
    ∃ s' node' chain' held', mappages s r va size pa perm = .ret (0, s') ∧
      VmInv lo s' (Function.update maps r (some (m.mapRange (firstPage va) (pageCount va size)
        (pa.toNat / 4096) perm))) others node' chain' held' ∧ Budget K node' chain' held' := by
  have hlast := last_toNat hsize hva
  have hfirst := round_toNat va
  have hpage : (va / pgSize * pgSize).toNat / 4096 = firstPage va := by
    rw [hfirst, firstPage]
    omega
  have hpos : size.toNat ≠ 0 := fun hz => hsize (BitVec.eq_of_toNat_eq hz)
  have hcount : pageCount va size - 1 + 1 = pageCount va size := by
    simp only [pageCount]
    omega
  have hin (i : Nat) (hi : i ≤ pageCount va size - 1) : InRange va size (firstPage va + i) := by
    simp only [InRange]
    omega
  have hend : (va / pgSize * pgSize).toNat + 4096 * (pageCount va size - 1) =
      ((va + size - 1#64) / pgSize * pgSize).toNat := by
    rw [hlast, hfirst]
    simp only [pageCount]
    omega
  have hbound : pageCount va size - 1 < loopBound := by
    simp only [pageCount, loopBound]
    omega
  obtain ⟨s', node', chain', held', hret, h', hb'⟩ :=
    mappagesLoop_returns pa hlo h hm hb (round_aligned va) hend (by omega) hperm
      (fun i hi => by rw [hpage]; exact hK _ (hin i hi))
      (fun i hi => by rw [hpage]; exact hfree _ (hin i hi)) hbound
  rw [hpage, hcount] at h'
  refine ⟨s', node', chain', held', ?_, h', hb'⟩
  rw [mappages, if_neg hsize]
  exact hret

end Mapping

section Ranges

/-- A range that `kvminit` maps to itself. -/
structure KvmRange where
  va : Word
  size : Word
  perm : Word
  msg : String

def KvmRange.Covers (x : KvmRange) (w : Nat) : Prop := InRange x.va x.size w

/-- The calls of `mappages` for the ranges, one after the other. -/
def kvmmaps (r : Word) : List KvmRange → Mm → Outcome Mm
  | [], s => .ret s
  | x :: xs, s => (kvmmap s r x.va x.size x.va x.perm x.msg).bind (kvmmaps r xs)

def PageMap.identity (m : PageMap) (x : KvmRange) : PageMap :=
  m.mapRange (firstPage x.va) (pageCount x.va x.size) (x.va.toNat / 4096) (x.perm.setWidth 32)

structure KvmRange.Ok (x : KvmRange) (r : Word) (K : List (Word × List Nat)) : Prop where
  size : x.size ≠ 0#64
  va : x.va.toNat + x.size.toNat ≤ 2^38
  perm : (x.perm.setWidth 32).toNat < 1024
  keys : ∀ w, x.Covers w → ∀ js, js <+: leafPath w → (r, js) ∈ K

variable {lo : Nat} {s s' : Mm} {maps : Word → Option PageMap} {others : List Word} {node : Nodes}
  {chain held : List Word} {r : Word} {m : PageMap} {K : List (Word × List Nat)} {xs : List KvmRange}

/-- With a budget for its tables, each of the ranges is mapped to itself. -/
theorem kvmmaps_spec (hlo : 0 < lo) (h : VmInv lo s maps others node chain held)
    (hm : maps r = some m) (hb : Budget K node chain held) (hok : ∀ x ∈ xs, x.Ok r K)
    (hd : xs.Pairwise fun x y => ∀ w, x.Covers w → ¬ y.Covers w)
    (hfree : ∀ x ∈ xs, ∀ w, x.Covers w → m w = none) :
    ∃ s' node' chain' held', kvmmaps r xs s = .ret s' ∧
      VmInv lo s' (Function.update maps r (some (xs.foldl PageMap.identity m))) others node' chain' held' ∧
      Budget K node' chain' held' := by
  induction xs generalizing s maps node chain held m with
  | nil =>
    refine ⟨s, node, chain, held, rfl, ?_, hb⟩
    rwa [List.foldl_nil, ← hm, Function.update_eq_self]
  | cons x xs ih =>
    simp only [List.mem_cons, forall_eq_or_imp, List.pairwise_cons] at hok hd hfree
    obtain ⟨s₁, node', chain', held', hret, h', hb'⟩ :=
      mappages_returns x.va hlo h hm hb hok.1.size hok.1.va hok.1.perm hok.1.keys hfree.1
    have hstep : kvmmap s r x.va x.size x.va x.perm x.msg = .ret s₁ := by
      simp [kvmmap, hret, Outcome.bind]
    have hrest : ∀ y ∈ xs, ∀ w, y.Covers w → m.identity x w = none := by
      intro y hy w hw
      have hout : ¬ x.Covers w := fun hx => hd.1 y hy w hx hw
      rw [← hfree.2 y hy w hw]
      exact if_neg hout
    obtain ⟨s', node₂, chain₂, held₂, hret₂, h₂, hb₂⟩ := ih h' (Function.update_self ..) hb' hok.2 hd.2 hrest
    rw [kvmmaps, hstep, Outcome.bind]
    rw [Function.update_idem] at h₂
    exact ⟨s', node₂, chain₂, held₂, hret₂, h₂, hb₂⟩

theorem kvmmaps_returns (hlo : 0 < lo) (h : VmInv lo s maps others node chain held)
    (hm : maps r = some m) (hb : Budget K node chain held) (hok : ∀ x ∈ xs, x.Ok r K)
    (hd : xs.Pairwise fun x y => ∀ w, x.Covers w → ¬ y.Covers w)
    (hfree : ∀ x ∈ xs, ∀ w, x.Covers w → m w = none) :
    ∃ s', kvmmaps r xs s = .ret s' := by
  obtain ⟨s', _, _, _, hret, _⟩ := kvmmaps_spec hlo h hm hb hok hd hfree
  exact ⟨s', hret⟩

theorem kvmmaps_maps (h : VmInv lo s maps others node chain held) (hm : maps r = some m)
    (hok : ∀ x ∈ xs, x.Ok r K) (hret : kvmmaps r xs s = .ret s') :
    ∃ node' chain' held', VmInv lo s' (Function.update maps r (some (xs.foldl PageMap.identity m)))
      others node' chain' held' := by
  induction xs generalizing s maps node chain held m with
  | nil =>
    cases hret
    refine ⟨node, chain, held, ?_⟩
    rwa [List.foldl_nil, ← hm, Function.update_eq_self]
  | cons x xs ih =>
    simp only [List.mem_cons, forall_eq_or_imp] at hok
    obtain ⟨s₁, hmap, hrest⟩ := Outcome.bind_eq_ret.mp hret
    obtain ⟨⟨c, s₂⟩, hpages, hcode⟩ := Outcome.bind_eq_ret.mp hmap
    by_cases hc : c = 0
    · subst hc
      simp only [ne_eq, not_true_eq_false, if_false, Outcome.ret.injEq] at hcode
      subst hcode
      have hva : x.va.toNat + x.size.toNat ≤ maxVa.toNat := maxVa_toNat ▸ hok.1.va
      obtain ⟨node₁, chain₁, held₁, h₁⟩ := h.mappages_maps hm hva hok.1.perm hpages
      have hrec := ih h₁ (Function.update_self ..) hok.2 hrest
      rwa [Function.update_idem] at hrec
    · simp [hc] at hcode

theorem PageMap.identity_covers {x : KvmRange} {w : Nat} (h : x.Covers w) :
    m.identity x w = some (entryOf w (x.perm.setWidth 32)) := by
  have hpage : x.va.toNat / 4096 + (w - firstPage x.va) = w := by
    have hle := h.1
    rw [firstPage] at hle ⊢
    omega
  rw [identity, mapRange, hpage]
  exact if_pos h

theorem PageMap.identity_other {x : KvmRange} {w : Nat} (h : ¬ x.Covers w) :
    m.identity x w = m w := if_neg h

theorem identities_none {w : Nat} (h : ∀ x ∈ xs, ¬ x.Covers w) :
    xs.foldl PageMap.identity m w = m w := by
  induction xs generalizing m with
  | nil => rfl
  | cons x xs ih =>
    simp only [List.mem_cons, forall_eq_or_imp] at h
    rw [List.foldl_cons, ih h.2, PageMap.identity_other h.1]

theorem identities_covers {x : KvmRange} {w : Nat} (hx : x ∈ xs) (hw : x.Covers w)
    (hd : xs.Pairwise fun x y => ∀ w, x.Covers w → ¬ y.Covers w) :
    xs.foldl PageMap.identity m w = some (entryOf w (x.perm.setWidth 32)) := by
  induction xs generalizing m with
  | nil => cases hx
  | cons y xs ih =>
    rw [List.pairwise_cons] at hd
    rw [List.foldl_cons]
    rcases List.mem_cons.mp hx with rfl | hx
    · rw [identities_none fun z hz => hd.1 z hz w hw, PageMap.identity_covers hw]
    · exact ih hx hd.2

end Ranges

section Kernel

def kernelRanges : List KvmRange :=
  [⟨kernbase, phystop - kernbase, pteR ||| pteW ||| pteX, "kvminit: mappages failed for kernel"⟩,
   ⟨0x10000000#64, pgSize, pteR ||| pteW, "kvminit: mappages failed for UART"⟩,
   ⟨0x0C000000#64, 0x4000000#64, pteR ||| pteW, "kvminit: mappages failed for PLIC"⟩,
   ⟨0x02000000#64, 0x10000#64, pteR ||| pteW, "kvminit: mappages failed for CLINT"⟩]

/-- The paths of the tables of the kernel: the root, the two below it, one for the CLINT, one for
the UART, 32 for the PLIC and 64 for RAM. -/
def kernelPaths : List (List Nat) :=
  [[], [0], [2], [0, 16], [0, 128]] ++ (List.range 32).map (fun i => [0, 96 + i]) ++
    (List.range 64).map (fun i => [2, i])

/-- What `kvminit` maps. -/
def kernelMap : PageMap := kernelRanges.foldl PageMap.identity fun _ => none

theorem kvminit_eq (s : Mm) : kvminit s =
    if (allocPage s).1 = 0#64 then .panic "kvminit: alloc_page failed"
    else (kvmmaps (allocPage s).1 kernelRanges (allocPage s).2).bind fun s' =>
      .ret ((allocPage s).1, s') := by
  simp only [kvminit, kernelRanges, kvmmaps, Outcome.bind_assoc]
  rfl

theorem prefix_leafPath {js : List Nat} {w : Nat} (h : js <+: leafPath w) :
    js = [] ∨ js = [w / 2^18] ∨ js = [w / 2^18, w / 2^9 % 512] := by
  simp only [leafPath, List.prefix_cons_iff, List.prefix_nil] at h
  rcases h with rfl | ⟨_, rfl, rfl | ⟨_, rfl, rfl⟩⟩ <;> simp

theorem path_mem_kernelPaths {w : Nat} {js : List Nat}
    (hw : 0x80000 ≤ w ∧ w < 0x88000 ∨ 0xC000 ≤ w ∧ w ≤ 0x10000 ∨ 0x2000 ≤ w ∧ w < 0x2010)
    (h : js <+: leafPath w) : js ∈ kernelPaths := by
  simp only [kernelPaths, List.mem_append, List.mem_cons, List.not_mem_nil, or_false, List.mem_map,
    List.mem_range]
  rcases prefix_leafPath h with rfl | rfl | rfl
  · simp
  · have htop : w / 2^18 = 0 ∨ w / 2^18 = 2 := by omega
    simpa using htop
  · rcases hw with hram | hdev | hclint
    · have hidx : w / 2^18 = 2 ∧ w / 2^9 % 512 < 64 := by omega
      simp only [hidx.1]
      exact .inr ⟨_, hidx.2, rfl⟩
    · have hidx : w / 2^18 = 0 ∧ 96 ≤ w / 2^9 % 512 ∧ w / 2^9 % 512 ≤ 128 := by omega
      simp only [hidx.1]
      by_cases hu : w / 2^9 % 512 = 128
      · simp only [hu]
        simp
      · have hpath : 96 + (w / 2^9 % 512 - 96) = w / 2^9 % 512 := by omega
        exact .inl (.inr ⟨w / 2^9 % 512 - 96, by omega, by rw [hpath]⟩)
    · have hidx : w / 2^18 = 0 ∧ w / 2^9 % 512 = 16 := by omega
      simp only [hidx]
      simp

/-- Page `w` is RAM. -/
def RamPage (w : Nat) : Prop := 0x80000 ≤ w ∧ w < 0x88000

/-- Page `w` is one of the UART, the PLIC or the CLINT. -/
def DevicePage (w : Nat) : Prop :=
  (0x10000 ≤ w ∧ w < 0x10001) ∨ (0xC000 ≤ w ∧ w < 0x10000) ∨ (0x2000 ≤ w ∧ w < 0x2010)

instance (w : Nat) : Decidable (RamPage w) := inferInstanceAs (Decidable (_ ∧ _))

instance (w : Nat) : Decidable (DevicePage w) := inferInstanceAs (Decidable (_ ∨ _))

theorem kernelRanges_pages : kernelRanges.map (fun x => (firstPage x.va, pageCount x.va x.size)) =
    [(0x80000, 0x8000), (0x10000, 1), (0xC000, 0x4000), (0x2000, 0x10)] := by decide

theorem kernelRanges_covers {x : KvmRange} (hx : x ∈ kernelRanges) {w : Nat} (hw : x.Covers w) :
    RamPage w ∨ DevicePage w := by
  have hpages := List.mem_map_of_mem (f := fun x => (firstPage x.va, pageCount x.va x.size)) hx
  simp only [kernelRanges_pages, List.mem_cons, Prod.mk.injEq, List.not_mem_nil, or_false] at hpages
  simp only [KvmRange.Covers, InRange, RamPage, DevicePage] at *
  omega

theorem kernelRanges_disjoint :
    kernelRanges.Pairwise fun x y => ∀ w, x.Covers w → ¬ y.Covers w := by
  have hpages : (kernelRanges.map fun x => (firstPage x.va, pageCount x.va x.size)).Pairwise
      fun a b => a.1 + a.2 ≤ b.1 ∨ b.1 + b.2 ≤ a.1 := by
    rw [kernelRanges_pages]
    decide
  refine (List.pairwise_map.mp hpages).imp ?_
  intro x y h w hx hy
  simp only [KvmRange.Covers, InRange] at *
  omega

theorem kernelRanges_ok (pt : Word) : ∀ x ∈ kernelRanges, x.Ok pt (kernelPaths.map (pt, ·)) := by
  have hnum : ∀ x ∈ kernelRanges, x.size ≠ 0#64 ∧ x.va.toNat + x.size.toNat ≤ 2^38 ∧
      (x.perm.setWidth 32).toNat < 1024 := by decide
  intro x hx
  obtain ⟨hsize, hva, hperm⟩ := hnum x hx
  refine ⟨hsize, hva, hperm, ?_⟩
  intro w hw js hjs
  have hpage := kernelRanges_covers hx hw
  simp only [RamPage, DevicePage] at hpage
  exact List.mem_map_of_mem (path_mem_kernelPaths (by omega) hjs)

theorem kernelMap_ram {w : Nat} (h : RamPage w) : kernelMap w = some (entryOf w 0xE#32) :=
  identities_covers (x := ⟨kernbase, _, _, _⟩) (.head _) h kernelRanges_disjoint

theorem kernelMap_device {w : Nat} (h : DevicePage w) : kernelMap w = some (entryOf w 6#32) := by
  rcases h with h | h | h
  · exact identities_covers (x := ⟨0x10000000#64, _, _, _⟩) (.tail _ (.head _)) h kernelRanges_disjoint
  · exact identities_covers (x := ⟨0x0C000000#64, _, _, _⟩) (.tail _ (.tail _ (.head _))) h kernelRanges_disjoint
  · exact identities_covers (x := ⟨0x02000000#64, _, _, _⟩) (.tail _ (.tail _ (.tail _ (.head _)))) h
      kernelRanges_disjoint

theorem kernelMap_none {w : Nat} (hram : ¬ RamPage w) (hdev : ¬ DevicePage w) : kernelMap w = none :=
  identities_none fun _ hx hw => (kernelRanges_covers hx hw).elim hram hdev

def RamAddr (va : Word) : Prop := 0x80000000 ≤ va.toNat ∧ va.toNat < 0x88000000

def DeviceAddr (va : Word) : Prop :=
  (0x10000000 ≤ va.toNat ∧ va.toNat < 0x10001000) ∨ (0x0C000000 ≤ va.toNat ∧ va.toNat < 0x10000000) ∨
    (0x02000000 ≤ va.toNat ∧ va.toNat < 0x02010000)

theorem ramPage_iff (va : Word) : RamPage (va.toNat / 4096) ↔ RamAddr va := by
  simp only [RamPage, RamAddr]
  omega

theorem devicePage_iff (va : Word) : DevicePage (va.toNat / 4096) ↔ DeviceAddr va := by
  simp only [DevicePage, DeviceAddr]
  omega

def pteFlags (pte : Word) : Word := pte &&& 0x3FF#64

theorem pteFlags_pte (e : Entry) : pteFlags e.pte = e.flags.setWidth 64 := by
  have hlow : e.flags.setWidth 64 &&& 0x3FF#64 = e.flags.setWidth 64 := by
    have hlt := e.flags.isLt
    have hmask : (e.flags.setWidth 64 &&& 0x3FF#64).toNat = (e.flags.setWidth 64).toNat % 2^10 :=
      Nat.and_two_pow_sub_one_eq_mod _ 10
    apply BitVec.eq_of_toNat_eq
    rw [hmask, BitVec.toNat_setWidth]
    omega
  rw [pteFlags, Entry.pte, BitVec.and_comm, BitVec.and_or_distrib_left, BitVec.and_comm, shiftLeft_and_low _ (by decide),
    BitVec.zero_or, BitVec.and_comm, hlow]

/-- The address of a page of the identity map, put together again. -/
theorem entryOf_base (va : Word) (perm : BitVec 32) :
    (entryOf (va.toNat / 4096) perm).base + (va &&& 4095#64) = va := by
  have hlt := va.isLt
  have hmask : (va &&& 4095#64).toNat = va.toNat % 2^12 := Nat.and_two_pow_sub_one_eq_mod _ 12
  apply BitVec.eq_of_toNat_eq
  simp only [Entry.base, entryOf, BitVec.toNat_add, hmask, BitVec.toNat_shiftLeft,
    BitVec.toNat_setWidth, BitVec.toNat_ofNat, Nat.shiftLeft_eq]
  omega

/-- The page table `pt` maps RAM and the devices to themselves, and nothing else. -/
structure IdentityMap (mm : Mm) (pt : Word) : Prop where
  valid : ∀ va, pteValid (leafPte mm pt va) = true ↔ RamAddr va ∨ DeviceAddr va
  same : ∀ va, RamAddr va ∨ DeviceAddr va → va2pa mm pt va = va
  ram : ∀ va, RamAddr va → pteFlags (leafPte mm pt va) = pteR ||| pteW ||| pteX ||| pteV
  device : ∀ va, DeviceAddr va → pteFlags (leafPte mm pt va) = pteR ||| pteW ||| pteV

theorem Refines.identityMap {mm : Mm} {pt : Word} (h : Refines mm pt kernelMap) : IdentityMap mm pt := by
  have hram (va : Word) (hva : RamAddr va) := h.mapped va _ (kernelMap_ram ((ramPage_iff va).mpr hva))
  have hdev (va : Word) (hva : DeviceAddr va) := h.mapped va _ (kernelMap_device ((devicePage_iff va).mpr hva))
  refine ⟨?_, ?_, ?_, ?_⟩
  · intro va
    rw [h.valid va, ← ramPage_iff, ← devicePage_iff]
    by_cases hr : RamPage (va.toNat / 4096)
    · simp [kernelMap_ram hr, hr]
    · by_cases hd : DevicePage (va.toNat / 4096)
      · simp [kernelMap_device hd, hd]
      · simp [kernelMap_none hr hd, hr, hd]
  · rintro va (hva | hva)
    · rw [(hram va hva).2.1, entryOf_base]
    · rw [(hdev va hva).2.1, entryOf_base]
  · intro va hva
    rw [(hram va hva).1, pteFlags_pte]
    rfl
  · intro va hva
    rw [(hdev va hva).1, pteFlags_pte]
    rfl

end Kernel

section Boot

variable {l : Layout} {lo : Nat} {pt : Word}

/-- The invariant after `kvminit`: one address space, with the map of the kernel, and the clients
of the page allocator. -/
def KernelInv (lo : Nat) (pt : Word) (s : AllocSys) : Prop :=
  VmSys.Inv lo ⟨s.mm, Function.update (fun _ => none) pt (some kernelMap), s.held⟩

/-- The first page of the free list becomes the root of an empty address space. -/
theorem VmInv.root (hl : l.InRam) (mem : Mem) : ∃ chain, (allocPage (mmInit l mem)).1 ≠ 0#64 ∧
    chain.length + 1 = numPages l ∧
    VmInv (roundUp l.heapEnd.toNat) (allocPage (mmInit l mem)).2
      (Function.update (fun _ => none) (allocPage (mmInit l mem)).1 (some fun _ => none)) []
      (Function.update (fun _ => none) ((allocPage (mmInit l mem)).1, [])
        (some (allocPage (mmInit l mem)).1)) chain [(allocPage (mmInit l mem)).1] := by
  have hstart := VmInv.start hl mem
  have hlen : ((List.range (numPages l)).map (pageAt l)).length = numPages l := by simp
  have hpos := numPages_pos hl
  cases hc : (List.range (numPages l)).map (pageAt l) with
  | nil =>
    rw [hc, List.length_nil] at hlen
    omega
  | cons q qs =>
    rw [hc] at hstart hlen
    have hq : (allocPage (mmInit l mem)).1 = q := by rw [hstart.split.alloc_eq]
    rw [hq]
    exact ⟨qs, hstart.split.linked.2.1, hlen, hstart.create⟩

/-- The root is the first of the kernel's tables. -/
theorem Budget.root {chain : List Word} (hlen : 100 ≤ chain.length) : Budget (kernelPaths.map (pt, ·))
    (Function.update (fun _ => none) (pt, []) (some pt)) chain [pt] := by
  refine ⟨?_, ?_, ?_⟩
  · intro k p hk
    rcases update_node_cases hk with ⟨rfl, _⟩ | hk
    · simp [kernelPaths]
    · cases hk
  · intro p hp
    obtain rfl := List.mem_singleton.mp hp
    exact ⟨_, Function.update_self ..⟩
  · simp [kernelPaths]
    omega

theorem kvminit_returns (hl : l.InRam) (mem : Mem) (hp : 101 ≤ numPages l) :
    ∃ pt mm, kvminit (mmInit l mem) = .ret (pt, mm) := by
  obtain ⟨chain, hne, hlen, h⟩ := VmInv.root hl mem
  obtain ⟨s', hs'⟩ := kvmmaps_returns hl.roundUp_pos h (Function.update_self ..) (.root (by omega))
    (kernelRanges_ok _) kernelRanges_disjoint (fun _ _ _ _ => rfl)
  exact ⟨_, s', by rw [kvminit_eq, if_neg hne, hs', Outcome.bind]⟩

theorem kvminit_inv (hl : l.InRam) {mem : Mem} {mm : Mm} (hret : kvminit (mmInit l mem) = .ret (pt, mm)) :
    KernelInv (roundUp l.heapEnd.toNat) pt ⟨mm, []⟩ := by
  obtain ⟨chain, hne, _, h⟩ := VmInv.root hl mem
  rw [kvminit_eq, if_neg hne] at hret
  obtain ⟨s', hs', he⟩ := Outcome.bind_eq_ret.mp hret
  cases he
  obtain ⟨node', chain', held', h'⟩ := kvmmaps_maps h (Function.update_self ..) (kernelRanges_ok _) hs'
  rw [Function.update_idem] at h'
  exact ⟨node', chain', held', h'⟩

theorem KernelInv.exec (hlo : 0 < lo) {s : AllocSys} {c : AllocCall} (h : KernelInv lo pt s) (hok : s.Ok c) :
    KernelInv lo pt (s.exec c) := by
  cases c with
  | allocPage => exact VmStep.inv hlo h .allocPage
  | freePage page => exact VmStep.inv hlo h (.freePage hok)
  | store page i v => exact VmStep.inv hlo h (.store hok.1 hok.2)

theorem KernelInv.identityMap (hlo : 0 < lo) {s : AllocSys} (h : KernelInv lo pt s) :
    IdentityMap s.mm pt := by
  obtain ⟨_, _, _, h⟩ := h
  have hm : Function.update (fun _ => none) pt (some kernelMap) pt = some kernelMap := Function.update_self ..
  exact (h.refines hlo hm).identityMap

/-- Every word of the page `p` is mapped to itself. -/
def SelfMapped (mm : Mm) (pt p : Word) : Prop :=
  ∀ va : Word, va.toNat / 4096 = p.toNat / 4096 → pteValid (leafPte mm pt va) = true ∧ va2pa mm pt va = va

theorem IdentityMap.selfMapped {mm : Mm} {p : Word} (h : IdentityMap mm pt) (hlo : 0x80000000 ≤ lo)
    (hp : IsPage lo p) : SelfMapped mm pt p := by
  obtain ⟨hle, hlt, hal⟩ := hp
  intro va hva
  have hram : RamAddr va := by
    simp only [RamAddr, memEnd_toNat, Aligned] at *
    omega
  exact ⟨(h.valid va).mpr (.inl hram), h.same va (.inl hram)⟩

theorem KernelInv.alloc_isPage (hlo : 0 < lo) {s : AllocSys} (h : KernelInv lo pt s)
    (hne : (allocPage s.mm).1 ≠ 0#64) : IsPage lo (allocPage s.mm).1 := by
  obtain ⟨_, chain, held, h⟩ := h
  exact (Split.allocSafe (s := ⟨s.mm, held⟩) hlo h.split).page hne

theorem KernelInv.table_isPage {s : AllocSys} (h : KernelInv lo pt s) {q : Word}
    (hq : q ∈ postorder (tableChild s.mm.mem) 512 2 pt) : IsPage lo q := by
  obtain ⟨_, _, _, h⟩ := h
  have hm : Function.update (fun _ => none) pt (some kernelMap) pt = some kernelMap := Function.update_self ..
  obtain ⟨js, _, hnode⟩ := (h.mem_postorder hm q).mp hq
  exact h.split.isPage_held (h.owned _ q hnode).1

theorem KernelInv.root_isPage {s : AllocSys} (h : KernelInv lo pt s) : IsPage lo pt := by
  obtain ⟨_, _, _, h⟩ := h
  have hm : Function.update (fun _ => none) pt (some kernelMap) pt = some kernelMap := Function.update_self ..
  exact h.split.isPage_held (h.owned _ pt (h.node_root hm)).1

/-- With 101 free pages `kvminit` maps RAM and the devices to themselves. The map stays as it
is whatever the clients of the allocator do afterwards, and its own tables and every page
that they can ever get are in it. -/
theorem kvminit_identity_map {l : Layout} (hl : 0x80200000 ≤ l.heapEnd.toNat) (hp : 101 ≤ numPages l)
    (mem : Mem) : ∃ pt mm, kvminit (mmInit l mem) = .ret (pt, mm) ∧
      ∀ calls s, Run (guarded AllocSys.Ok AllocSys.exec) ⟨mm, []⟩ calls s →
        IdentityMap s.mm pt ∧
        (∀ q ∈ postorder (tableChild s.mm.mem) 512 2 pt, SelfMapped s.mm pt q) ∧
        ((allocPage s.mm).1 ≠ 0#64 → SelfMapped s.mm pt (allocPage s.mm).1) := by
  have hround : l.heapEnd.toNat ≤ roundUp l.heapEnd.toNat := by
    simp only [roundUp]
    omega
  have hram : l.InRam := by
    simp only [numPages, memEnd_toNat] at hp
    exact ⟨hl, by omega⟩
  obtain ⟨pt, mm, hret⟩ := kvminit_returns hram mem hp
  refine ⟨pt, mm, hret, ?_⟩
  intro calls s hrun
  have hinv : KernelInv (roundUp l.heapEnd.toNat) pt s := by
    refine hrun.guarded_invariant _ ?_ (kvminit_inv hram hret)
    intro s c hs hok
    exact hs.exec hram.roundUp_pos hok
  have hid := hinv.identityMap hram.roundUp_pos
  refine ⟨hid, ?_, ?_⟩
  · intro q hq
    exact hid.selfMapped (by omega) (hinv.table_isPage hq)
  · intro hne
    exact hid.selfMapped (by omega) (hinv.alloc_isPage hram.roundUp_pos hne)

def bootLayout : Layout := ⟨0x80200000#64, 0x80600000#64⟩

theorem kvminit_identity_map_bootLayout : ∃ pt mm,
    kvminit (mmInit bootLayout fun _ => 7#64) = .ret (pt, mm) ∧ IdentityMap mm pt := by
  obtain ⟨pt, mm, hret, h⟩ := kvminit_identity_map (l := bootLayout) (by decide) (by decide) fun _ => 7#64
  exact ⟨pt, mm, hret, (h [] ⟨mm, []⟩ rfl).1⟩

end Boot

end RiscvOs.Vm
