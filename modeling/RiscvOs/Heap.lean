import RiscvOs.PageAlloc
set_option autoImplicit false

/-!
The bump heap of `kernel/mm/mm.c` next to the page allocator: the heap ends where the pages
begin, `kmalloc` only ever moves its pointer up, and `kfree` does nothing.
-/

namespace RiscvOs.PageAlloc
open WordMemory Runs

def kfree (_ptr : Word) (s : Mm) : Mm := s

/-- The linker script puts the heap behind the kernel, at an aligned address, and keeps it
inside RAM. -/
structure Layout.Linked (l : Layout) : Prop where
  kernel : 0x80200000 ≤ l.heapStart.toNat
  aligned : l.heapStart.toNat % 8 = 0
  order : l.heapStart.toNat ≤ l.heapEnd.toNat
  ram : l.heapEnd.toNat ≤ memEnd.toNat

/-- A block that `kmalloc` has returned, with the size that was asked for. -/
structure Block where
  ptr : Word
  size : Word
  deriving DecidableEq

/-- The first byte behind the block. -/
def Block.stop (b : Block) : Nat := b.ptr.toNat + b.size.toNat

/-- The two allocators with their clients. `blocks` and `returned` are all that `kmalloc` and
`alloc_page` have ever returned. -/
structure HeapSys where
  pages : AllocSys
  blocks : List Block
  returned : List Word

inductive HeapCall where
  | kmalloc (size : Word)
  | kfree (ptr : Word)
  | pages (c : AllocCall)
  | store (a v : Word)

/-- Sizes are of 32 bits, pages are used by their holders, and the heap by its clients. -/
def HeapSys.Ok (l : Layout) (s : HeapSys) : HeapCall → Prop
  | .kmalloc size => size.toNat < 2^32
  | .kfree _ => True
  | .pages c => s.pages.Ok c
  | .store a _ => l.heapStart ≤ a ∧ a < l.heapEnd

instance (l : Layout) (s : HeapSys) : (c : HeapCall) → Decidable (s.Ok l c)
  | .kmalloc _ => inferInstanceAs (Decidable (_ < _))
  | .kfree _ => inferInstanceAs (Decidable True)
  | .pages c => inferInstanceAs (Decidable (s.pages.Ok c))
  | .store _ _ => inferInstanceAs (Decidable (_ ∧ _))

/-- The page that a call returns, if it returns one. -/
def AllocSys.result (s : AllocSys) : AllocCall → List Word
  | .allocPage => if (allocPage s.mm).1 = 0#64 then [] else [(allocPage s.mm).1]
  | .freePage _ | .store _ _ _ => []

def HeapSys.exec (l : Layout) (s : HeapSys) : HeapCall → HeapSys
  | .kmalloc size =>
    let r := PageAlloc.kmalloc l size s.pages.mm
    { s with
      pages := { s.pages with mm := r.2 }
      blocks := if r.1 = 0#64 then s.blocks else ⟨r.1, size⟩ :: s.blocks }
  | .kfree ptr => { s with pages := { s.pages with mm := PageAlloc.kfree ptr s.pages.mm } }
  | .pages c => { s with pages := s.pages.exec c, returned := s.pages.result c ++ s.returned }
  | .store a v => { s with pages := { s.pages with mm := s.pages.mm.store a v } }

def HeapSys.start (l : Layout) (mem : Mem) : HeapSys := ⟨AllocSys.start l mem, [], []⟩

section Kmalloc

variable {l : Layout} {s : Mm} {size : Word}

theorem and_eightMask (x : Word) : (x &&& ~~~7#64).toNat = x.toNat / 8 * 8 :=
  and_lowMask (k := 3) x (by decide)

/-- The bytes that a request takes from the heap, rounded without wrap-around. -/
def roundedSize (size : Word) : Nat := (size.toNat + 7) / 8 * 8

/-- A request is granted when it fits, and then the pointer moves up by its rounded size. -/
structure KmallocExact (l : Layout) (size : Word) (s : Mm) : Prop where
  granted : (kmalloc l size s).1 ≠ 0#64 ↔
    0 < size.toNat ∧ roundedSize size ≤ l.heapEnd.toNat - s.heapCurrent.toNat
  grows : (kmalloc l size s).1 ≠ 0#64 →
    (kmalloc l size s).2.heapCurrent.toNat = s.heapCurrent.toNat + roundedSize size
  refused : (kmalloc l size s).1 = 0#64 → (kmalloc l size s).2.heapCurrent = s.heapCurrent

/-- The sum that `kmalloc` compares with `__heap_end`: both its additions wrap. -/
theorem bump_toNat (cur size : Word) :
    (cur + ((size + 7#64) &&& ~~~7#64)).toNat = (cur.toNat + roundedSize size) % 2^64 := by
  rw [BitVec.toNat_add, and_eightMask, BitVec.toNat_add, BitVec.toNat_ofNat, roundedSize]
  omega

theorem kmalloc_refused (hz : size = 0#64 ∨ l.heapEnd.toNat < (s.heapCurrent.toNat + roundedSize size) % 2^64) :
    kmalloc l size s = (0#64, s) := by
  unfold kmalloc
  by_cases hsize : size = 0#64
  · rw [if_pos hsize]
  · rw [if_neg hsize]
    dsimp only
    rw [if_pos]
    rw [BitVec.lt_def, bump_toNat]
    exact hz.resolve_left hsize

theorem kmalloc_granted (hsize : size ≠ 0#64)
    (hfits : (s.heapCurrent.toNat + roundedSize size) % 2^64 ≤ l.heapEnd.toNat) :
    ∃ cur, kmalloc l size s = (s.heapCurrent, { s with heapCurrent := cur }) ∧
      cur.toNat = (s.heapCurrent.toNat + roundedSize size) % 2^64 := by
  refine ⟨_, ?_, bump_toNat s.heapCurrent size⟩
  unfold kmalloc
  rw [if_neg hsize]
  dsimp only
  rw [if_neg]
  rw [BitVec.lt_def, bump_toNat]
  omega

/-- What `kmalloc` does: nothing, or it moves the pointer up by the rounded size. -/
theorem kmalloc_case (hsize : size.toNat < 2^32) (hcur : s.heapCurrent.toNat ≤ l.heapEnd.toNat)
    (hend : l.heapEnd.toNat ≤ memEnd.toNat) :
    kmalloc l size s = (0#64, s) ∨
      ∃ cur, kmalloc l size s = (s.heapCurrent, { s with heapCurrent := cur }) ∧ size.toNat ≠ 0 ∧
        cur.toNat = s.heapCurrent.toNat + (size.toNat + 7) / 8 * 8 ∧ cur.toNat ≤ l.heapEnd.toNat := by
  rw [memEnd_toNat] at hend
  by_cases hrefused : size = 0#64 ∨ l.heapEnd.toNat < (s.heapCurrent.toNat + roundedSize size) % 2^64
  · exact .inl (kmalloc_refused hrefused)
  · rw [not_or, Nat.not_lt] at hrefused
    obtain ⟨cur, hk, hval⟩ := kmalloc_granted hrefused.1 hrefused.2
    have hne : size.toNat ≠ 0 := fun he => hrefused.1 (BitVec.eq_of_toNat_eq he)
    have hsum : (s.heapCurrent.toNat + roundedSize size) % 2^64 =
        s.heapCurrent.toNat + (size.toNat + 7) / 8 * 8 := by
      unfold roundedSize
      omega
    exact .inr ⟨cur, hk, hne, hval.trans hsum, by omega⟩

/-- A refusal is right when the request does not fit and the pointer stays. -/
theorem exact_of_refused (hk : (kmalloc l size s).1 = 0#64) : KmallocExact l size s ↔
    (0 < size.toNat → l.heapEnd.toNat - s.heapCurrent.toNat < roundedSize size) ∧
      (kmalloc l size s).2.heapCurrent = s.heapCurrent := by
  constructor
  · intro h
    refine ⟨?_, h.refused hk⟩
    intro hpos
    by_contra hle
    exact h.granted.mpr ⟨hpos, by omega⟩ hk
  · rintro ⟨hfull, hstays⟩
    refine ⟨iff_of_false (fun hne => hne hk) ?_, fun hne => absurd hk hne, fun _ => hstays⟩
    rintro ⟨hpos, hle⟩
    have hlt := hfull hpos
    omega

/-- A grant is right when the request fits and the pointer has moved by it. -/
theorem exact_of_granted {cur : Word} (hk : kmalloc l size s = (s.heapCurrent, { s with heapCurrent := cur }))
    (hnull : s.heapCurrent ≠ 0#64) : KmallocExact l size s ↔
      0 < size.toNat ∧ roundedSize size ≤ l.heapEnd.toNat - s.heapCurrent.toNat ∧
        cur.toNat = s.heapCurrent.toNat + roundedSize size := by
  have hne : (kmalloc l size s).1 ≠ 0#64 := by
    rw [hk]
    exact hnull
  constructor
  · intro h
    obtain ⟨hpos, hle⟩ := h.granted.mp hne
    have hgrows := h.grows hne
    rw [hk] at hgrows
    exact ⟨hpos, hle, hgrows⟩
  · rintro ⟨hpos, hle, hgrows⟩
    refine ⟨iff_of_true hne ⟨hpos, hle⟩, ?_, fun he => absurd he hne⟩
    intro _
    rw [hk]
    exact hgrows

/-- The check is exact as long as the sum does not pass 2^64. A sum that does wraps to at most
`heap_current`, so that every such request is granted. On a heap at address 0 the first block is
`NULL` itself. -/
theorem kmalloc_exact_iff (hcur : s.heapCurrent ≤ l.heapEnd) : KmallocExact l size s ↔
    if s.heapCurrent = 0#64 then size = 0#64 ∨ l.heapEnd.toNat < roundedSize size
    else s.heapCurrent.toNat + roundedSize size < 2^64 := by
  rw [BitVec.le_def] at hcur
  have hend := l.heapEnd.isLt
  have hlt := size.isLt
  have hround : size.toNat ≤ roundedSize size ∧ roundedSize size ≤ 2^64 ∧ (size.toNat = 0 → roundedSize size = 0) := by
    unfold roundedSize
    omega
  have hzero : size = 0#64 ↔ size.toNat = 0 :=
    ⟨fun he => by rw [he]; rfl, fun he => BitVec.eq_of_toNat_eq he⟩
  by_cases hrefused : size = 0#64 ∨ l.heapEnd.toNat < (s.heapCurrent.toNat + roundedSize size) % 2^64
  · have hk := kmalloc_refused hrefused
    rw [exact_of_refused (by rw [hk]), hk]
    rw [hzero] at hrefused ⊢
    simp only [and_true]
    split
    · rename_i hnull
      rw [hnull, BitVec.toNat_zero]
      omega
    · omega
  · rw [not_or, Nat.not_lt] at hrefused
    obtain ⟨cur, hk, hval⟩ := kmalloc_granted hrefused.1 hrefused.2
    rw [hzero] at hrefused ⊢
    split
    · -- The block that is granted at 0 reads as a refusal, right only when the sum wraps to 0.
      rename_i hnull
      rw [exact_of_refused (by rw [hk]; exact hnull), hk]
      dsimp only
      rw [hnull, ← BitVec.toNat_inj, hval, hnull, BitVec.toNat_zero]
      rw [hnull, BitVec.toNat_zero] at hrefused
      omega
    · rename_i hnull
      rw [exact_of_granted hk hnull]
      omega

/-- An ordinary request on a fresh heap. -/
theorem kmalloc_exact_hundred : smallLayout.heapStart ≤ smallLayout.heapEnd ∧
    KmallocExact smallLayout 100#64 (mmInit smallLayout fun _ => 7#64) := by
  refine ⟨by decide, (kmalloc_exact_iff (by decide)).mpr ?_⟩
  decide

/-- A request for all but one of the 2^64 bytes is granted and takes nothing. -/
theorem kmalloc_exact_huge : smallLayout.heapStart ≤ (mmInit smallLayout fun _ => 7#64).heapCurrent ∧
    (mmInit smallLayout fun _ => 7#64).heapCurrent ≤ smallLayout.heapEnd ∧
    (kmalloc smallLayout (BitVec.allOnes 64) (mmInit smallLayout fun _ => 7#64)).1 = smallLayout.heapStart ∧
    (kmalloc smallLayout (BitVec.allOnes 64) (mmInit smallLayout fun _ => 7#64)).2.heapCurrent =
      smallLayout.heapStart ∧
    ¬ KmallocExact smallLayout (BitVec.allOnes 64) (mmInit smallLayout fun _ => 7#64) := by
  refine ⟨by decide, by decide, by decide, by decide, ?_⟩
  intro h
  have hgrant := h.granted.mp (by decide)
  revert hgrant
  decide

end Kmalloc

section Pages

variable {l : Layout} {s : AllocSys} {c : AllocCall}

/-- The page allocator is in order, or the heap has left no page for it. -/
def PagesOk (lo : Nat) (s : AllocSys) : Prop :=
  (∃ chain, Split lo s.mm chain s.held) ∨ s.mm.numFreePages = 0#64 ∧ s.held = []

theorem PagesOk.start (hl : l.Linked) (mem : Mem) :
    PagesOk (roundUp l.heapEnd.toNat) (AllocSys.start l mem) := by
  have hram := hl.ram
  have hstart := Nat.le_trans hl.kernel hl.order
  rw [memEnd_toNat] at hram
  by_cases hend : l.heapEnd.toNat ≤ 0x87FFF000
  · exact .inl ⟨_, mmInit_split ⟨hstart, hend⟩ mem⟩
  · right
    have hfirst : memStart l = memEnd := by
      apply BitVec.eq_of_toNat_eq
      rw [memStart, and_pageMask, memEnd_toNat]
      simp only [pageSize_toNat, BitVec.toNat_sub, BitVec.toNat_add, BitVec.toNat_ofNat]
      omega
    refine ⟨?_, rfl⟩
    show (memEnd - memStart l) / pageSize = 0#64
    rw [hfirst]
    decide

/-- The pages that a call returns lie behind the heap. -/
theorem PagesOk.exec {lo : Nat} (hlo : 0 < lo) (h : PagesOk lo s) (hok : s.Ok c) :
    PagesOk lo (s.exec c) ∧ ∀ p ∈ s.result c, lo ≤ p.toNat := by
  rcases h with ⟨chain, hs⟩ | ⟨hnum, hheld⟩
  · refine ⟨.inl (AllocSys.exec_split hlo ⟨chain, hs⟩ hok), ?_⟩
    cases c with
    | allocPage =>
      simp only [AllocSys.result]
      split
      · simp
      · rename_i hne
        simp only [List.mem_singleton, forall_eq]
        exact ((hs.allocSafe hlo).page hne).1
    | freePage page => simp [AllocSys.result]
    | store page i v => simp [AllocSys.result]
  · have hnull : allocPage s.mm = (0#64, s.mm) := by simp [allocPage, hnum]
    cases c with
    | allocPage =>
      refine ⟨.inr ?_, by simp [AllocSys.result, hnull]⟩
      simp [AllocSys.exec, hnull, hnum, hheld]
    | freePage page =>
      simp only [AllocSys.Ok, hheld, List.not_mem_nil] at hok
    | store page i v =>
      simp only [AllocSys.Ok, hheld, List.not_mem_nil, false_and] at hok

theorem exec_heapCurrent (s : AllocSys) (c : AllocCall) :
    (s.exec c).mm.heapCurrent = s.mm.heapCurrent := by
  cases c with
  | allocPage =>
    simp only [AllocSys.exec, allocPage]
    split <;> rfl
  | freePage page =>
    simp only [AllocSys.exec, freePage]
    split <;> rfl
  | store page i v => rfl

/-- The page allocator does not read the heap. -/
theorem PagesOk.congr {lo : Nat} (h : PagesOk lo s) {mm : Mm}
    (hmem : ∀ p : Word, lo ≤ p.toNat → mm.mem p = s.mm.mem p)
    (hfree : mm.freePages = s.mm.freePages) (hnum : mm.numFreePages = s.mm.numFreePages) :
    PagesOk lo { s with mm := mm } := by
  rcases h with ⟨chain, hs⟩ | hnone
  · refine .inl ⟨chain, ?_, ?_, hs.nodup, hs.cover⟩
    · rw [hfree]
      exact hs.linked.congr fun p hp => hmem p (hs.isPage_chain hp).1
    · rw [hnum]
      exact hs.count
  · right
    rw [hnum]
    exact hnone

end Pages

/-- The heap up to `heap_current` is made of the blocks, which lie there one behind the other. -/
structure HeapInv (l : Layout) (s : HeapSys) : Prop where
  pages : PagesOk (roundUp l.heapEnd.toNat) s.pages
  bump : s.pages.mm.heapCurrent.toNat % 8 = 0 ∧ l.heapStart.toNat ≤ s.pages.mm.heapCurrent.toNat ∧
    s.pages.mm.heapCurrent.toNat ≤ l.heapEnd.toNat
  below : ∀ b ∈ s.blocks, b.ptr.toNat % 8 = 0 ∧ l.heapStart.toNat ≤ b.ptr.toNat ∧
    b.stop ≤ s.pages.mm.heapCurrent.toNat
  stacked : s.blocks.Pairwise fun b c => c.stop ≤ b.ptr.toNat
  behind : ∀ p ∈ s.returned, roundUp l.heapEnd.toNat ≤ p.toNat

section Invariant

variable {l : Layout} {s : HeapSys} {c : HeapCall}

theorem HeapInv.start (hl : l.Linked) (mem : Mem) : HeapInv l (HeapSys.start l mem) where
  pages := .start hl mem
  bump := ⟨hl.aligned, Nat.le_refl _, hl.order⟩
  below := by simp [HeapSys.start]
  stacked := List.Pairwise.nil
  behind := by simp [HeapSys.start]

theorem HeapInv.kmalloc {size : Word} (h : HeapInv l s) (hl : l.Linked) (hsize : size.toNat < 2^32) :
    HeapInv l (s.exec l (.kmalloc size)) := by
  obtain ⟨haligned, hlow, hhigh⟩ := h.bump
  rcases kmalloc_case hsize hhigh hl.ram with he | ⟨cur, he, hne, hcur, hend⟩
  · simpa [HeapSys.exec, he] using h
  · have hnull : s.pages.mm.heapCurrent ≠ 0#64 := by
      intro hz
      have hk := hl.kernel
      rw [hz, BitVec.toNat_zero] at hlow
      omega
    simp only [HeapSys.exec, he, if_neg hnull]
    refine ⟨h.pages.congr (fun _ _ => rfl) rfl rfl, ⟨by dsimp only; omega, by dsimp only; omega, hend⟩,
      ?_, ?_, h.behind⟩
    · intro b hb
      rcases List.mem_cons.mp hb with rfl | hb
      · refine ⟨haligned, hlow, ?_⟩
        simp only [Block.stop]
        omega
      · obtain ⟨h8, hs, hstop⟩ := h.below b hb
        exact ⟨h8, hs, by dsimp only; omega⟩
    · exact List.pairwise_cons.mpr ⟨fun b hb => (h.below b hb).2.2, h.stacked⟩

theorem HeapInv.exec (h : HeapInv l s) (hl : l.Linked) (hok : s.Ok l c) : HeapInv l (s.exec l c) := by
  have hlo : 0 < roundUp l.heapEnd.toNat := by
    have hk := Nat.le_trans hl.kernel hl.order
    simp only [roundUp]
    omega
  cases c with
  | kmalloc size => exact h.kmalloc hl hok
  | kfree ptr => exact h
  | pages c =>
    obtain ⟨hpages, hres⟩ := h.pages.exec hlo hok
    refine ⟨hpages, ?_, ?_, h.stacked, ?_⟩
    · simpa only [HeapSys.exec, exec_heapCurrent] using h.bump
    · simpa only [HeapSys.exec, exec_heapCurrent] using h.below
    · intro p hp
      rcases List.mem_append.mp hp with hp | hp
      · exact hres p hp
      · exact h.behind p hp
  | store a v =>
    refine ⟨h.pages.congr ?_ rfl rfl, h.bump, h.below, h.stacked, h.behind⟩
    intro p hp
    apply Function.update_of_ne
    rintro rfl
    have hlt := BitVec.lt_def.mp hok.2
    simp only [roundUp] at hp
    omega

end Invariant

/-- The blocks are aligned and inside the heap, no two of them overlap, none of them overlaps a
page, and when there is no memory left nothing changes. -/
structure HeapSafe (l : Layout) (s : HeapSys) : Prop where
  inside : ∀ b ∈ s.blocks, b.ptr ≠ 0#64 ∧ b.ptr.toNat % 8 = 0 ∧ l.heapStart.toNat ≤ b.ptr.toNat ∧
    b.stop ≤ l.heapEnd.toNat
  disjoint : s.blocks.Pairwise fun b c => c.stop ≤ b.ptr.toNat ∨ b.stop ≤ c.ptr.toNat
  pages : ∀ b ∈ s.blocks, ∀ p ∈ s.returned, b.stop ≤ p.toNat ∨ p.toNat + 4096 ≤ b.ptr.toNat
  null : ∀ size : Word, (PageAlloc.kmalloc l size s.pages.mm).1 = 0#64 →
    size.toNat < 2^32 → (PageAlloc.kmalloc l size s.pages.mm).2 = s.pages.mm

/-- In every run of the two allocators the blocks of the heap are apart from each other and
from the pages. -/
theorem heap_blocks_disjoint {l : Layout} {mem : Mem} {calls : List HeapCall} {s : HeapSys} (hl : l.Linked)
    (h : Run (guarded (HeapSys.Ok l) (HeapSys.exec l)) (HeapSys.start l mem) calls s) : HeapSafe l s := by
  have hinv : HeapInv l s :=
    h.guarded_invariant (HeapInv l) (fun _ _ hs hok => hs.exec hl hok) (.start hl mem)
  obtain ⟨_, hlow, hhigh⟩ := hinv.bump
  have hkernel := hl.kernel
  refine ⟨?_, hinv.stacked.imp .inl, ?_, ?_⟩
  · intro b hb
    obtain ⟨h8, hs, hstop⟩ := hinv.below b hb
    refine ⟨?_, h8, hs, by omega⟩
    rintro hz
    rw [hz, BitVec.toNat_zero] at hs
    omega
  · intro b hb p hp
    have hstop := (hinv.below b hb).2.2
    have hpage := hinv.behind p hp
    left
    simp only [roundUp] at hpage
    omega
  · intro size hnull hsize
    rcases kmalloc_case hsize hhigh hl.ram with he | ⟨cur, he, _⟩
    · rw [he]
    · rw [he] at hnull
      rw [show s.pages.mm.heapCurrent = 0#64 from hnull, BitVec.toNat_zero] at hlow
      omega

/-- Two blocks, with a page taken and given back in between. -/
theorem heap_blocks_disjoint_two : ∃ s,
    Run (guarded (HeapSys.Ok smallLayout) (HeapSys.exec smallLayout)) (HeapSys.start smallLayout fun _ => 7#64)
      [.kmalloc 100#64, .pages .allocPage, .kfree 0x80600000#64, .pages (.freePage 0x87FFD000#64), .kmalloc 3#64] s ∧
    s.blocks = [⟨0x80600068#64, 3#64⟩, ⟨0x80600000#64, 100#64⟩] ∧ HeapSafe smallLayout s := by
  have hl : smallLayout.Linked := ⟨by decide +kernel, by decide +kernel, by decide +kernel, by decide +kernel⟩
  have hrun := run_guarded_iff.mpr ⟨show Admissible (HeapSys.Ok smallLayout) (HeapSys.exec smallLayout)
    (HeapSys.start smallLayout fun _ => 7#64) [.kmalloc 100#64, .pages .allocPage, .kfree 0x80600000#64,
      .pages (.freePage 0x87FFD000#64), .kmalloc 3#64] by decide +kernel, rfl⟩
  exact ⟨_, hrun, by decide +kernel, heap_blocks_disjoint hl hrun⟩

end RiscvOs.PageAlloc
