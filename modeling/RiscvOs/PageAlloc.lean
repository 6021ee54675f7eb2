import RiscvOs.Runs
import RiscvOs.WordMemory
import Mathlib.Data.List.Perm.Subperm
set_option autoImplicit false

/-!
The page allocator and the bump heap of `kernel/mm/mm.c`. Free pages form a
stack whose links are the first words of the free pages themselves, so the
allocator's data lives in the memory it hands out. Pointers are words and
`NULL` is 0.
-/

namespace RiscvOs.PageAlloc
open WordMemory Runs

/-- The linker symbols `__heap_start` and `__heap_end`. -/
structure Layout where
  heapStart : Word
  heapEnd : Word

structure Mm where
  mem : Mem
  freePages : Word
  numFreePages : Word
  heapCurrent : Word

def Mm.store (s : Mm) (a v : Word) : Mm := { s with mem := Function.update s.mem a v }

@[simp] theorem Mm.store_mem (s : Mm) (a v : Word) :
    (s.store a v).mem = Function.update s.mem a v := rfl

def pageSize : Word := 4096#64

/-- `0x80000000 + 128 MiB`, the end of RAM. -/
def memEnd : Word := 0x88000000#64

@[simp] theorem pageSize_toNat : pageSize.toNat = 4096 := rfl

@[simp] theorem memEnd_toNat : memEnd.toNat = 0x88000000 := rfl

/-- `__heap_end` rounded up to a page. -/
def memStart (l : Layout) : Word := (l.heapEnd + pageSize - 1#64) &&& ~~~(pageSize - 1#64)

def mmInit (l : Layout) (mem : Mem) : Mm :=
  let start := memStart l
  let num := (memEnd - start) / pageSize
  { mem := storeLoop (fun i => start + BitVec.ofNat 64 i * pageSize)
      (fun i => if BitVec.ofNat 64 i + 1#64 < num
        then start + (BitVec.ofNat 64 i + 1#64) * pageSize else 0#64)
      num.toNat mem
    freePages := start
    numFreePages := num
    heapCurrent := l.heapStart }

/-- The clearing loop of `alloc_page` over the 512 words of a page. -/
def clearPage (page : Word) (mem : Mem) : Mem :=
  storeLoop (slot page) (fun _ => 0#64) 512 mem

def allocPage (s : Mm) : Word × Mm :=
  if s.freePages = 0#64 ∨ s.numFreePages = 0#64 then (0#64, s)
  else
    (s.freePages,
      { s with
        mem := clearPage s.freePages s.mem
        freePages := s.mem s.freePages
        numFreePages := s.numFreePages - 1#64 })

def freePage (page : Word) (s : Mm) : Mm :=
  if page = 0#64 then s
  else
    { s with
      mem := Function.update s.mem page s.freePages
      freePages := page
      numFreePages := s.numFreePages + 1#64 }

def kmalloc (l : Layout) (size : Word) (s : Mm) : Word × Mm :=
  if size = 0#64 then (0#64, s)
  else
    let size := (size + 7#64) &&& ~~~7#64
    if l.heapEnd < s.heapCurrent + size then (0#64, s)
    else (s.heapCurrent, { s with heapCurrent := s.heapCurrent + size })

/-- Round up to a page boundary, without wrap-around. -/
def roundUp (n : Nat) : Nat := (n + 4095) / 4096 * 4096

/-- The pages `mm_init` puts on the list: page addresses from `lo` to the end of RAM. -/
def IsPage (lo : Nat) (p : Word) : Prop :=
  lo ≤ p.toNat ∧ p.toNat < memEnd.toNat ∧ Aligned p

theorem IsPage.aligned {lo : Nat} {p : Word} (h : IsPage lo p) : Aligned p := h.2.2

theorem clearPage_of_ne {page q : Word} (mem : Mem) (hp : Aligned page) (hq : Aligned q)
    {i : Nat} (hi : i < 512) (h : q ≠ page) : clearPage page mem (slot q i) = mem (slot q i) := by
  apply storeLoop_of_ne
  intro j hj he
  exact h ((slot_inj hq hp hi hj).mp he).1

theorem clearPage_slot {page : Word} {mem : Mem} (hp : Aligned page) {i : Nat} (hi : i < 512) :
    clearPage page mem (slot page i) = 0#64 := by
  apply storeLoop_at (g := fun _ => 0#64) hi
  intro j hj he
  exact ((slot_inj hp hp hi hj).mp he).2

/-- The allocator invariant: the list threaded through memory from `free_pages` is
`chain`, it is as long as the counter says, and together with the held pages it is
exactly the pages from `lo` to the end of RAM, each once. -/
structure Split (lo : Nat) (s : Mm) (chain held : List Word) : Prop where
  linked : Chain s.mem 0#64 s.freePages chain
  count : s.numFreePages.toNat = chain.length
  nodup : (chain ++ held).Nodup
  cover : ∀ p, p ∈ chain ++ held ↔ IsPage lo p

namespace Split

variable {lo : Nat} {p : Word} {s : Mm} {chain held : List Word}

theorem isPage_chain (h : Split lo s chain held) (hp : p ∈ chain) : IsPage lo p :=
  (h.cover p).mp (by simp [hp])

theorem isPage_held (h : Split lo s chain held) (hp : p ∈ held) : IsPage lo p :=
  (h.cover p).mp (by simp [hp])

theorem ne_of_mem {q : Word} (h : Split lo s chain held) (hp : p ∈ chain) (hq : q ∈ held) :
    p ≠ q := by
  rintro rfl
  exact (List.disjoint_of_nodup_append h.nodup) hp hq

theorem of_perm {held' : List Word} (h : Split lo s chain held) (hp : held.Perm held') :
    Split lo s chain held' := by
  refine ⟨h.linked, h.count, ((hp.append_left chain).nodup_iff).mp h.nodup, ?_⟩
  intro q
  rw [← h.cover q]
  exact ((hp.append_left chain).mem_iff).symm

/-- The counter cannot wrap: there are fewer pages than addresses of RAM. -/
theorem length_lt (h : Split lo s chain held) : (chain ++ held).length < 2^32 := by
  have hmap : ((chain ++ held).map BitVec.toNat).Nodup :=
    h.nodup.map (fun _ _ he => BitVec.eq_of_toNat_eq he)
  have hsub : (chain ++ held).map BitVec.toNat ⊆ List.range memEnd.toNat := by
    intro n hn
    obtain ⟨q, hq, rfl⟩ := List.mem_map.mp hn
    exact List.mem_range.mpr ((h.cover q).mp hq).2.1
  have hle := (List.subperm_of_subset hmap hsub).length_le
  rw [List.length_map, List.length_range] at hle
  exact Nat.lt_of_le_of_lt hle (by decide)

/-- Stores into held pages leave the list alone. -/
theorem store (h : Split lo s chain held) (hp : p ∈ held) {i : Nat} (hi : i < 512) (v : Word) :
    Split lo (s.store (slot p i) v) chain held := by
  refine { h with linked := h.linked.congr fun q hq => ?_ }
  apply Function.update_of_ne
  exact ne_slot_of_ne (h.isPage_held hp).aligned (h.isPage_chain hq).aligned hi
    (h.ne_of_mem hq hp)

theorem alloc_nil (h : Split lo s [] held) : allocPage s = (0#64, s) := by
  have hz : s.freePages = 0#64 := h.linked
  simp [allocPage, hz]

theorem alloc_eq {ps : List Word} (h : Split lo s (p :: ps) held) :
    allocPage s = (p, { s with
      mem := clearPage p s.mem
      freePages := s.mem p
      numFreePages := s.numFreePages - 1#64 }) := by
  obtain ⟨hp, hnull, _⟩ := h.linked
  have hc : s.numFreePages ≠ 0#64 := by
    intro hz
    have hcount := h.count
    simp [hz] at hcount
  simp [allocPage, hp, hnull, hc]

/-- `alloc_page` moves the first page of the list to the holders. -/
theorem alloc {ps : List Word} (h : Split lo s (p :: ps) held) :
    Split lo (allocPage s).2 ps (p :: held) := by
  have hp := (h.isPage_chain (p := p) (by simp)).aligned
  rw [h.alloc_eq]
  refine ⟨?_, ?_, ?_, ?_⟩
  · refine h.linked.2.2.congr fun q hq => ?_
    have hne : q ≠ p := by
      rintro rfl
      have hn := h.nodup
      simp [hq] at hn
    have hcl := clearPage_of_ne s.mem hp (h.isPage_chain (by simp [hq])).aligned
      (show 0 < 512 by decide) hne
    simpa using hcl
  · have hcount := h.count
    have hlen := h.length_lt
    simp only [List.length_cons, List.length_append] at hcount hlen
    simp only [BitVec.toNat_sub, BitVec.toNat_ofNat]
    omega
  · exact List.perm_middle.nodup_iff.mpr h.nodup
  · intro q
    rw [← h.cover q]
    exact List.perm_middle.mem_iff

/-- `free_page` moves a held page to the front of the list. -/
theorem free (h : Split lo s chain held) (hlo : 0 < lo) (hp : p ∈ held) :
    Split lo (freePage p s) (p :: chain) (held.erase p) := by
  have hpage := h.isPage_held hp
  have hnull : p ≠ 0#64 := by
    rintro rfl
    have := hpage.1
    simp at this
    omega
  have hperm : (p :: chain ++ held.erase p).Perm (chain ++ held) :=
    List.perm_middle.symm.trans ((List.perm_cons_erase hp).symm.append_left chain)
  simp only [freePage, hnull, if_false]
  refine ⟨⟨rfl, hnull, ?_⟩, ?_, hperm.nodup_iff.mpr h.nodup, ?_⟩
  · simp only [Function.update_self]
    refine h.linked.congr fun q hq => ?_
    exact Function.update_of_ne (h.ne_of_mem hq hp) _ _
  · have hcount := h.count
    have hlen := h.length_lt
    simp only [List.length_append] at hlen
    simp only [BitVec.toNat_add, BitVec.toNat_ofNat, List.length_cons]
    omega
  · intro q
    rw [← h.cover q]
    exact hperm.mem_iff

end Split

/-- The linker script leaves `__heap_end` inside RAM, below the last page. -/
def Layout.InRam (l : Layout) : Prop :=
  0x80200000 ≤ l.heapEnd.toNat ∧ l.heapEnd.toNat ≤ 0x87FFF000

instance (l : Layout) : Decidable l.InRam := inferInstanceAs (Decidable (_ ∧ _))

/-- Clearing the low `k` bits rounds down. -/
theorem and_lowMask {m : Word} {k : Nat} (x : Word) (hm : ∀ i < 64, (~~~m).getLsbD i = decide (k ≤ i)) :
    (x &&& ~~~m).toNat = x.toNat / 2^k * 2^k := by
  have hx : x &&& ~~~m = (x >>> k) <<< k := by
    apply BitVec.eq_of_getLsbD_eq
    intro i hi
    rw [BitVec.getLsbD_and, hm i hi, BitVec.getLsbD_shiftLeft, BitVec.getLsbD_ushiftRight]
    by_cases h : k ≤ i
    · have he : k + (i - k) = i := by omega
      simp [h, hi, he]
    · simp [h]
  have hle : x.toNat / 2^k * 2^k ≤ x.toNat := Nat.div_mul_le_self ..
  have hlt := x.isLt
  rw [hx, BitVec.toNat_shiftLeft, BitVec.toNat_ushiftRight, Nat.shiftLeft_eq,
    Nat.shiftRight_eq_div_pow, Nat.mod_eq_of_lt (by omega)]

theorem and_pageMask (x : Word) : (x &&& ~~~(pageSize - 1#64)).toNat = x.toNat / 4096 * 4096 :=
  and_lowMask (k := 12) x (by decide)

theorem memStart_toNat {l : Layout} (hl : l.InRam) :
    (memStart l).toNat = roundUp l.heapEnd.toNat := by
  obtain ⟨h₁, h₂⟩ := hl
  rw [memStart, and_pageMask]
  simp only [pageSize_toNat, roundUp, BitVec.toNat_sub, BitVec.toNat_add, BitVec.toNat_ofNat]
  omega

/-- Page `i` of the free memory. -/
def pageAt (l : Layout) (i : Nat) : Word := memStart l + BitVec.ofNat 64 i * pageSize

def numPages (l : Layout) : Nat := (memEnd.toNat - roundUp l.heapEnd.toNat) / 4096

section Init

variable {l : Layout}

theorem numPages_toNat (hl : l.InRam) :
    ((memEnd - memStart l) / pageSize).toNat = numPages l := by
  have hs := memStart_toNat hl
  obtain ⟨h₁, h₂⟩ := hl
  rw [BitVec.toNat_udiv, BitVec.toNat_sub, hs, numPages, memEnd_toNat, pageSize_toNat]
  simp only [roundUp]
  omega

theorem pageAt_toNat (hl : l.InRam) {i : Nat} (hi : i < numPages l) :
    (pageAt l i).toNat = roundUp l.heapEnd.toNat + 4096 * i := by
  have hs := memStart_toNat hl
  obtain ⟨h₁, h₂⟩ := hl
  simp only [numPages, memEnd_toNat, roundUp] at hi
  simp only [pageAt, BitVec.toNat_add, BitVec.toNat_mul, hs, pageSize_toNat, roundUp,
    BitVec.toNat_ofNat]
  omega

theorem pageAt_inj (hl : l.InRam) {i j : Nat} (hi : i < numPages l) (hj : j < numPages l)
    (h : pageAt l i = pageAt l j) : i = j := by
  have hn := congrArg BitVec.toNat h
  rw [pageAt_toNat hl hi, pageAt_toNat hl hj] at hn
  omega

theorem pageAt_isPage (hl : l.InRam) {p : Word} :
    IsPage (roundUp l.heapEnd.toNat) p ↔ ∃ i < numPages l, pageAt l i = p := by
  constructor
  · rintro ⟨h₁, h₂, h₃⟩
    refine ⟨(p.toNat - roundUp l.heapEnd.toNat) / 4096, ?_, ?_⟩
    · simp only [numPages, memEnd_toNat, Aligned, roundUp] at *
      omega
    · apply BitVec.eq_of_toNat_eq
      rw [pageAt_toNat hl]
      · simp only [Aligned, roundUp] at *
        omega
      · simp only [numPages, memEnd_toNat, Aligned, roundUp] at *
        omega
  · rintro ⟨i, hi, rfl⟩
    have hn := pageAt_toNat hl hi
    simp only [IsPage, Aligned, hn]
    simp only [numPages, memEnd_toNat, roundUp] at *
    omega

/-- The link word the loop of `mm_init` leaves in page `i`. -/
theorem mmInit_mem (hl : l.InRam) (mem : Mem) {i : Nat} (hi : i < numPages l) :
    (mmInit l mem).mem (pageAt l i) = if i + 1 < numPages l then pageAt l (i+1) else 0#64 := by
  have hn := numPages_toNat hl
  have hbound : numPages l < 2^32 := by
    simp only [numPages, memEnd_toNat]
    omega
  have hat := storeLoop_at (f := pageAt l) (g := fun i =>
    if BitVec.ofNat 64 i + 1#64 < (memEnd - memStart l) / pageSize
    then memStart l + (BitVec.ofNat 64 i + 1#64) * pageSize else 0#64) (m := mem) hi
    (fun j hj => pageAt_inj hl hi hj)
  have hlt : BitVec.ofNat 64 i + 1#64 < (memEnd - memStart l) / pageSize ↔ i + 1 < numPages l := by
    rw [BitVec.lt_def, hn]
    simp only [BitVec.toNat_add, BitVec.toNat_ofNat]
    omega
  simp only [hlt] at hat
  simp only [mmInit, hn]
  refine hat.trans ?_
  simp only [pageAt, BitVec.ofNat_add]

theorem numPages_pos (hl : l.InRam) : 0 < numPages l := by
  obtain ⟨h₁, h₂⟩ := hl
  simp only [numPages, memEnd_toNat, roundUp]
  omega

theorem pageAt_ne_zero (hl : l.InRam) {i : Nat} (hi : i < numPages l) : pageAt l i ≠ 0#64 := by
  intro hz
  have hn := pageAt_toNat hl hi
  obtain ⟨h₁, _⟩ := hl
  rw [hz, BitVec.toNat_zero] at hn
  simp only [roundUp] at hn
  omega

theorem mmInit_linked (hl : l.InRam) (mem : Mem) :
    Chain (mmInit l mem).mem 0#64 (mmInit l mem).freePages
      ((List.range (numPages l)).map (pageAt l)) := by
  have hfree : (mmInit l mem).freePages = pageAt l 0 := by
    rw [mmInit, pageAt, BitVec.zero_mul, BitVec.add_zero]
  have hpos := numPages_pos hl
  rw [hfree, List.range_eq_range']
  refine chain_range (f := pageAt l) (k := 0) ?_ ?_ ?_ hpos
  · intro i hi
    exact pageAt_ne_zero hl (by omega)
  · intro i _ hi
    rw [mmInit_mem hl mem (by omega), if_pos (by omega)]
  · rw [mmInit_mem hl mem (by omega), if_neg (by omega)]

/-- After `mm_init` every page of the range is on the list. -/
theorem mmInit_split (hl : l.InRam) (mem : Mem) :
    Split (roundUp l.heapEnd.toNat) (mmInit l mem)
      ((List.range (numPages l)).map (pageAt l)) [] := by
  refine ⟨mmInit_linked hl mem, ?_, ?_, ?_⟩
  · rw [List.length_map, List.length_range, ← numPages_toNat hl, mmInit]
  · rw [List.append_nil]
    refine List.Nodup.map_on (fun i hi j hj => ?_) List.nodup_range
    exact pageAt_inj hl (List.mem_range.mp hi) (List.mem_range.mp hj)
  · intro p
    rw [pageAt_isPage hl]
    simp

end Init

/-- The allocator with its clients: `held` are the pages returned and not yet freed. -/
structure AllocSys where
  mm : Mm
  held : List Word

inductive AllocCall where
  | allocPage
  | freePage (page : Word)
  | store (page : Word) (i : Nat) (v : Word)

/-- What the clients may do: free a page they hold, store a word inside one. -/
def AllocSys.Ok (s : AllocSys) : AllocCall → Prop
  | .allocPage => True
  | .freePage page => page ∈ s.held
  | .store page i _ => page ∈ s.held ∧ i < 512

instance (s : AllocSys) : (c : AllocCall) → Decidable (s.Ok c)
  | .allocPage => inferInstanceAs (Decidable True)
  | .freePage page => inferInstanceAs (Decidable (page ∈ s.held))
  | .store page i _ => inferInstanceAs (Decidable (page ∈ s.held ∧ i < 512))

def AllocSys.exec (s : AllocSys) : AllocCall → AllocSys
  | .allocPage =>
    let r := allocPage s.mm
    ⟨r.2, if r.1 = 0#64 then s.held else r.1 :: s.held⟩
  | .freePage page => ⟨freePage page s.mm, s.held.erase page⟩
  | .store page i v => ⟨s.mm.store (slot page i) v, s.held⟩

def AllocSys.start (l : Layout) (mem : Mem) : AllocSys := ⟨mmInit l mem, []⟩

theorem AllocSys.exec_split {lo : Nat} (hlo : 0 < lo) {s : AllocSys} {c : AllocCall}
    (h : ∃ chain, Split lo s.mm chain s.held) (hok : s.Ok c) :
    ∃ chain, Split lo (s.exec c).mm chain (s.exec c).held := by
  obtain ⟨chain, h⟩ := h
  cases c with
  | allocPage =>
    cases chain with
    | nil => exact ⟨[], by simpa [exec, h.alloc_nil] using h⟩
    | cons p ps =>
      have ha := h.alloc
      have hp : p ≠ 0#64 := h.linked.2.1
      rw [h.alloc_eq] at ha
      exact ⟨ps, by simpa [exec, h.alloc_eq, hp] using ha⟩
  | freePage page => exact ⟨page :: chain, h.free hlo hok⟩
  | store page i v => exact ⟨chain, h.store hok.1 hok.2 v⟩

/-- What a client sees of the next `alloc_page`. -/
structure AllocSafe (lo : Nat) (s : AllocSys) : Prop where
  fresh : (allocPage s.mm).1 ∉ s.held
  null_iff : (allocPage s.mm).1 = 0#64 ↔ ∀ p, IsPage lo p → p ∈ s.held
  page : (allocPage s.mm).1 ≠ 0#64 → IsPage lo (allocPage s.mm).1
  zero : (allocPage s.mm).1 ≠ 0#64 →
    ∀ i < 512, (allocPage s.mm).2.mem (slot (allocPage s.mm).1 i) = 0#64

theorem Split.allocSafe {lo : Nat} (hlo : 0 < lo) {s : AllocSys} {chain : List Word}
    (h : Split lo s.mm chain s.held) : AllocSafe lo s := by
  cases chain with
  | nil =>
    have hr : (allocPage s.mm).1 = 0#64 := by rw [h.alloc_nil]
    refine ⟨?_, ?_, by simp [hr], by simp [hr]⟩
    · rw [hr]
      intro hm
      have hz := (h.isPage_held hm).1
      rw [BitVec.toNat_zero] at hz
      omega
    · simp only [hr, true_iff]
      intro p hp
      simpa using (h.cover p).mpr hp
  | cons p ps =>
    have hp : p ≠ 0#64 := h.linked.2.1
    have hr : (allocPage s.mm).1 = p := by rw [h.alloc_eq]
    have hpage : IsPage lo p := h.isPage_chain (by simp)
    have hfresh : p ∉ s.held := fun hm => h.ne_of_mem (p := p) (by simp) hm rfl
    refine ⟨by rwa [hr], ?_, fun _ => by rwa [hr], ?_⟩
    · simp only [hr, hp, false_iff]
      intro hall
      exact hfresh (hall p hpage)
    · intro _ i hi
      simp only [h.alloc_eq]
      exact clearPage_slot hpage.aligned hi

theorem Layout.InRam.roundUp_pos {l : Layout} (hl : l.InRam) : 0 < roundUp l.heapEnd.toNat := by
  obtain ⟨h₁, _⟩ := hl
  simp only [roundUp]
  omega

/-- Every state the clients can reach keeps the invariant. -/
theorem AllocSys.run_split {l : Layout} {mem : Mem} {calls : List AllocCall} {s : AllocSys}
    (hl : l.InRam) (h : Run (guarded AllocSys.Ok AllocSys.exec)
      (AllocSys.start l mem) calls s) :
    ∃ chain, Split (roundUp l.heapEnd.toNat) s.mm chain s.held := by
  refine h.guarded_invariant (fun s => ∃ chain, Split (roundUp l.heapEnd.toNat) s.mm chain s.held)
    ?_ ⟨_, mmInit_split hl mem⟩
  intro s c hs hok
  exact exec_split hl.roundUp_pos hs hok

/-- In every state reachable from `mm_init` the free list and the held pages are a
partition of the pages of free memory, whatever the holders store in their pages,
and `alloc_page` hands out a zeroed page that nobody holds as long as there is one. -/
theorem allocator_partition {l : Layout} {mem : Mem} {calls : List AllocCall} {s : AllocSys}
    (hl : l.InRam) (h : Run (guarded AllocSys.Ok AllocSys.exec)
      (AllocSys.start l mem) calls s) :
    (∃ chain, Split (roundUp l.heapEnd.toNat) s.mm chain s.held) ∧
      AllocSafe (roundUp l.heapEnd.toNat) s := by
  obtain ⟨chain, hs⟩ := AllocSys.run_split hl h
  exact ⟨⟨chain, hs⟩, hs.allocSafe hl.roundUp_pos⟩

/-- A layout that leaves three free pages. -/
def smallLayout : Layout := ⟨0x80600000#64, 0x87FFCFF8#64⟩

/-- One of the three pages is taken, overwritten and given back after a second one is taken. -/
theorem allocator_partition_smallLayout :
    ∃ s : AllocSys, Run (guarded AllocSys.Ok AllocSys.exec) (AllocSys.start smallLayout (fun _ => 7#64))
      [.allocPage, .store 0x87FFD000#64 0 1#64, .allocPage, .freePage 0x87FFD000#64] s ∧
      (∃ chain, Split (roundUp smallLayout.heapEnd.toNat) s.mm chain s.held) ∧
      AllocSafe (roundUp smallLayout.heapEnd.toNat) s := by
  have hrun := run_guarded_iff.mpr ⟨show Admissible AllocSys.Ok AllocSys.exec
    (AllocSys.start smallLayout (fun _ => 7#64))
    [.allocPage, .store 0x87FFD000#64 0 1#64, .allocPage, .freePage 0x87FFD000#64]
    by decide +kernel, rfl⟩
  have hl : smallLayout.InRam := by decide +kernel
  exact ⟨_, hrun, allocator_partition hl hrun⟩

end RiscvOs.PageAlloc
