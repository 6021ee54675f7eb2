import RiscvOs.AddressSpaces
set_option autoImplicit false

/-!
What `mappages` leaves behind in any well-formed table, with any permission bits: the pages
that it has mapped when it gives up, and the ranges that it calls mapped although they wrap
around the end of the address space.
-/

namespace RiscvOs.Vm
open WordMemory PageAlloc

/-- The tables under `pt` are a tree of pages that the allocator has given out. -/
def WellFormed (s : Mm) (pt : Word) : Prop :=
  ∃ lo roots node chain held, 0 < lo ∧ Tables lo s roots node chain held ∧ roots pt

def pageOf (va : Word) : Nat := va.toNat / 4096

/-- Page `w` is one of the first `k` from the page of `va` on. -/
def AmongFirst (va : Word) (k w : Nat) : Prop := pageOf va ≤ w ∧ w < pageOf va + k

/-- A call of `mappages` has mapped the first `k` pages of its range, as far as `walk` sees, and
nothing else. -/
structure MapsFirst (s s' : Mm) (pt va pa : Word) (perm : BitVec 32) (k : Nat) : Prop where
  below : ∀ w, AmongFirst va k w → w < 2^26
  fresh : ∀ va', AmongFirst va k (pageOf va') → pteValid (leafPte s pt va') = false
  mapped : ∀ va', AmongFirst va k (pageOf va') → leafPte s' pt va' = mapWord pa perm (pageOf va' - pageOf va)
  others : ∀ va', ¬ AmongFirst va k (pageOf va') → leafPte s' pt va' = leafPte s pt va' ∧
    va2pa s' pt va' = va2pa s pt va' ∧ walkaddr s' pt va' = walkaddr s pt va'

/-- The root of a table that `vm_create_user_pagetable` has made in the state after `mm_init`. -/
theorem WellFormed.create {l : Layout} (hl : l.InRam) (mem : Mem)
    (hpt : (vmCreateUserPagetable (mmInit l mem)).1 ≠ 0#64) :
    WellFormed (vmCreateUserPagetable (mmInit l mem)).2 (vmCreateUserPagetable (mmInit l mem)).1 := by
  have hs := VmInv.start hl mem
  generalize (List.range (numPages l)).map (pageAt l) = chain at hs
  cases chain with
  | nil =>
    rw [vmCreateUserPagetable, hs.split.alloc_nil] at hpt
    exact absurd rfl hpt
  | cons q qs =>
    have hq : (allocPage (mmInit l mem)).1 = q := by rw [hs.split.alloc_eq]
    refine ⟨_, _, _, _, _, hl.roundUp_pos, hs.create.tables, ?_⟩
    simp [vmCreateUserPagetable, hq]

/-- An empty address space, with its root at `0x87FFD000` and two pages left for its tables. -/
def smallTable : Mm := (vmCreateUserPagetable (mmInit smallLayout fun _ => 7#64)).2

theorem smallTable_wellFormed : WellFormed smallTable 0x87FFD000#64 := by
  have hroot : (vmCreateUserPagetable (mmInit smallLayout fun _ => 7#64)).1 = 0x87FFD000#64 := by decide +kernel
  have h := WellFormed.create (l := smallLayout) (by decide +kernel) (fun _ => 7#64) (by rw [hroot]; decide)
  rwa [hroot] at h

section Mappages

variable {s s' : Mm} {pt va size pa : Word} {perm : BitVec 32} {c : Int}

theorem round_page (va : Word) : (va / pgSize * pgSize).toNat / 4096 = pageOf va := by
  rw [round_toNat, pageOf]
  omega

/-- However `mappages` returns, it has mapped the first pages of its range: those up to the page
of the last byte when it returns success, and none that is this page otherwise. -/
theorem WellFormed.mappages (h : WellFormed s pt) (hret : mappages s pt va size pa perm = .ret (c, s')) :
    ∃ k, MapsFirst s s' pt va pa perm k ∧
      ((c = 0 ∧ 0 < k ∧ pageOf (va + size - 1#64) + 1 = pageOf va + k) ∨
        (c = -1 ∧ ¬ AmongFirst va k (pageOf (va + size - 1#64)) ∧
          (2^26 ≤ pageOf va + k ∨ (allocPage s').1 = 0#64))) := by
  obtain ⟨lo, roots, node, chain, held, hlo, ht, hr⟩ := h
  unfold Vm.mappages at hret
  split at hret
  · cases hret
  obtain ⟨k, node', chain', held', ht', _, hpages, hleaves, hdone⟩ :=
    ht.mappagesLoop_spec hr (round_aligned va) hret
  rw [round_page] at hpages hleaves
  have hbelow (w : Nat) (hw : AmongFirst va k w) : w < 2^26 ∧ pteValid (leafAt s.mem node pt w) = false := by
    obtain ⟨hge, hlt⟩ := hw
    have hpage := hpages (w - pageOf va) (by omega)
    rwa [Nat.add_sub_of_le hge] at hpage
  have hlow {va' : Word} (hw : AmongFirst va k (pageOf va')) : va'.toNat < 2^38 := by
    have hlt := (hbelow _ hw).1
    rw [pageOf] at hlt
    omega
  have hothers (va' : Word) (hw : ¬ AmongFirst va k (pageOf va')) : leafPte s' pt va' = leafPte s pt va' := by
    have hset : setLeaves (leafAt s.mem node) pt (pageOf va) k (mapWord pa perm) pt (va'.toNat / 4096) =
        leafAt s.mem node pt (va'.toNat / 4096) := if_neg fun hin => hw hin.2
    rw [ht'.leafPte_eq hlo hr, ht.leafPte_eq hlo hr, hleaves, hset]
  refine ⟨k, ⟨fun w hw => (hbelow w hw).1, ?_, ?_, ?_⟩, ?_⟩
  · intro va' hw
    rw [ht.leafPte_eq hlo hr, if_pos (hlow hw)]
    exact (hbelow _ hw).2
  · intro va' hw
    rw [ht'.leafPte_eq hlo hr, if_pos (hlow hw), hleaves, setLeaves]
    exact if_pos ⟨rfl, hw⟩
  · intro va' hw
    rw [va2pa_eq, va2pa_eq, walkaddr_eq, walkaddr_eq, hothers va' hw]
    exact ⟨rfl, rfl, rfl⟩
  · rw [round_toNat, round_toNat] at hdone
    rcases hdone with ⟨hc, hk, hlast⟩ | ⟨hc, hstop, hlast⟩
    · refine .inl ⟨hc, hk, ?_⟩
      rw [pageOf, pageOf]
      omega
    · refine .inr ⟨hc, ?_, (hstop hlo).imp ?_ ?_⟩
      · rintro ⟨hge, hlt⟩
        rw [pageOf, pageOf] at *
        exact hlast ((va + size - 1#64).toNat / 4096 - va.toNat / 4096) (by omega) (by omega)
      · intro hmax
        rw [pageOf]
        omega
      · intro hempty
        subst hempty
        rw [ht'.split.alloc_nil]

/-- The translations of a call that fails: the pages that it has already mapped stay mapped. -/
theorem mappages_failure_keeps_prefix (h : WellFormed s pt)
    (hret : Vm.mappages s pt va size pa perm = .ret (-1, s')) :
    ∃ k, MapsFirst s s' pt va pa perm k ∧ ¬ AmongFirst va k (pageOf (va + size - 1#64)) ∧
      (2^26 ≤ pageOf va + k ∨ (allocPage s').1 = 0#64) := by
  obtain ⟨k, hmaps, ⟨hc, _⟩ | ⟨_, hlast, hstop⟩⟩ := h.mappages hret
  · cases hc
  · exact ⟨k, hmaps, hlast, hstop⟩

/-- The second page of the range needs a table of its own, for which there is no page left. -/
theorem mappages_failure_keeps_prefix_two : ∃ s', WellFormed smallTable 0x87FFD000#64 ∧
    Vm.mappages smallTable 0x87FFD000#64 0x1ff000#64 8192#64 0x80100000#64 0x16#32 = .ret (-1, s') ∧
    ∃ k, MapsFirst smallTable s' 0x87FFD000#64 0x1ff000#64 0x80100000#64 0x16#32 k ∧
      ¬ AmongFirst 0x1ff000#64 k (pageOf (0x1ff000#64 + 8192#64 - 1#64)) ∧
      (2^26 ≤ pageOf 0x1ff000#64 + k ∨ (allocPage s').1 = 0#64) := by
  have hcode : (Vm.mappages smallTable 0x87FFD000#64 0x1ff000#64 8192#64 0x80100000#64 0x16#32).code = some (-1) := by
    decide +kernel
  obtain ⟨s', hret⟩ := Outcome.eq_ret_of_code hcode
  exact ⟨s', smallTable_wellFormed, hret, mappages_failure_keeps_prefix smallTable_wellFormed hret⟩

/-- The first page of the range stays mapped although the call fails. -/
theorem mappages_failure_changes_map : ∃ s', WellFormed smallTable 0x87FFD000#64 ∧
    Vm.mappages smallTable 0x87FFD000#64 0x1ff000#64 8192#64 0x80100000#64 0x16#32 = .ret (-1, s') ∧
    va2pa smallTable 0x87FFD000#64 0x1ff000#64 = 0#64 ∧
    va2pa s' 0x87FFD000#64 0x1ff000#64 = 0x80100000#64 := by
  have hrun : (Vm.mappages smallTable 0x87FFD000#64 0x1ff000#64 8192#64 0x80100000#64 0x16#32).toOption.map
      (fun r => (r.1, va2pa r.2 0x87FFD000#64 0x1ff000#64)) = some (-1, 0x80100000#64) := by
    decide +kernel
  obtain ⟨⟨c, s'⟩, hret, hmap⟩ := Outcome.map_toOption hrun
  obtain ⟨rfl, hpa⟩ := Prod.mk.inj hmap
  exact ⟨s', smallTable_wellFormed, hret, by decide +kernel, hpa⟩

/-- Every byte of the range, taken without wrap-around, is below `MAXVA` and in a page that this
call has mapped. -/
structure Complete (s s' : Mm) (pt va size pa : Word) (perm : BitVec 32) : Prop where
  below : va.toNat + size.toNat ≤ maxVa.toNat
  bytes : ∀ b, va.toNat ≤ b → b < va.toNat + size.toNat →
    pteValid (leafPte s pt (BitVec.ofNat 64 b)) = false ∧
    leafPte s' pt (BitVec.ofNat 64 b) = mapWord pa perm (b / 4096 - va.toNat / 4096) ∧
    pteValid (leafPte s' pt (BitVec.ofNat 64 b)) = true

/-- A successful call has mapped its whole range exactly when the range, counted from the start of
its first page, has at most `2^64` bytes. -/
theorem mappages_complete_iff (h : WellFormed s pt) (hsize : size ≠ 0#64)
    (hret : Vm.mappages s pt va size pa perm = .ret (0, s')) :
    Complete s s' pt va size pa perm ↔ va.toNat % 4096 + size.toNat ≤ 2^64 := by
  obtain ⟨k, hmaps, ⟨_, hk, hlast⟩ | ⟨hc, _⟩⟩ := h.mappages hret
  swap
  · cases hc
  have hpos : size.toNat ≠ 0 := fun hz => hsize (BitVec.eq_of_toNat_eq hz)
  have hva := va.isLt
  have hmax := hmaps.below (pageOf va + k - 1) ⟨by omega, by omega⟩
  have hend : (va + size - 1#64).toNat = (va.toNat + size.toNat - 1) % 2^64 := by
    simp only [BitVec.toNat_sub, BitVec.toNat_add, BitVec.toNat_ofNat]
    omega
  rw [pageOf, hend, pageOf] at hlast
  rw [pageOf] at hmax
  constructor
  · intro hcomplete
    have hbelow := hcomplete.below
    rw [maxVa_toNat] at hbelow
    omega
  · intro hle
    have hbelow : va.toNat + size.toNat ≤ 2^38 := by omega
    refine ⟨by rwa [maxVa_toNat], ?_⟩
    intro b hb hb'
    have hnat : (BitVec.ofNat 64 b).toNat = b := by
      rw [BitVec.toNat_ofNat]
      omega
    have hin : AmongFirst va k (pageOf (BitVec.ofNat 64 b)) := by
      rw [AmongFirst, pageOf, pageOf, hnat]
      omega
    have hleaf := hmaps.mapped _ hin
    rw [pageOf, pageOf, hnat] at hleaf
    rw [hleaf]
    exact ⟨hmaps.fresh _ hin, rfl, pteValid_mapWord ..⟩

theorem mappages_complete_iff_page : ∃ s',
    Vm.mappages smallTable 0x87FFD000#64 0x1002#64 4000#64 0x80100000#64 0x16#32 = .ret (0, s') ∧
    Complete smallTable s' 0x87FFD000#64 0x1002#64 4000#64 0x80100000#64 0x16#32 := by
  have hcode : (Vm.mappages smallTable 0x87FFD000#64 0x1002#64 4000#64 0x80100000#64 0x16#32).code = some 0 := by
    decide +kernel
  obtain ⟨s', hret⟩ := Outcome.eq_ret_of_code hcode
  exact ⟨s', hret, (mappages_complete_iff smallTable_wellFormed (by decide) hret).mpr (by decide)⟩

/-- The end of the range wraps around to the page that it starts in, and this page alone is mapped. -/
theorem mappages_wraps_incomplete : ∃ s', WellFormed smallTable 0x87FFD000#64 ∧
    Vm.mappages smallTable 0x87FFD000#64 0x1002#64 0xFFFFFFFFFFFFFFFF#64 0x80100000#64 0x16#32 = .ret (0, s') ∧
    ¬ Complete smallTable s' 0x87FFD000#64 0x1002#64 0xFFFFFFFFFFFFFFFF#64 0x80100000#64 0x16#32 := by
  have hcode : (Vm.mappages smallTable 0x87FFD000#64 0x1002#64 0xFFFFFFFFFFFFFFFF#64 0x80100000#64
      0x16#32).code = some 0 := by
    decide +kernel
  obtain ⟨s', hret⟩ := Outcome.eq_ret_of_code hcode
  refine ⟨s', smallTable_wellFormed, hret, ?_⟩
  intro hcomplete
  exact absurd hcomplete.below (by decide)

end Mappages

end RiscvOs.Vm
