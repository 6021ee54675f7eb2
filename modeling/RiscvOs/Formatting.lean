import RiscvOs.FileNames
import RiscvOs.Heap
set_option autoImplicit false

/-!
`sfs_format` on a file system that may be in use, with a heap that may be short. It writes the
superblock, asks `kmalloc` for a 32-bit number of bytes, and does not look at the inodes.
-/

namespace RiscvOs.SimpleFs
open WordMemory PageAlloc CStrings Runs

/-- The heap pointer is inside the heap. -/
structure HeapIn (l : Layout) (s : NameSys) : Prop where
  low : l.heapStart ≤ s.mm.heapCurrent
  high : s.mm.heapCurrent ≤ l.heapEnd

/-- The superblock of an empty file system of `numBlocks` blocks. -/
def freshSuperblock (numBlocks : U32) : Superblock :=
  ⟨sfsMagic, sfsBlockSize, numBlocks, BitVec.ofNat 32 sfsMaxFiles, numBlocks, BitVec.ofNat 32 sfsMaxFiles⟩

/-- The bytes that `sfs_format` asks for; the product is of 32 bits. -/
def askedSize (numBlocks : U32) : Nat := numBlocks.toNat * 4096 % 2^32

/-- What `sfs_format` can do. -/
inductive FormatCase (l : Layout) (numBlocks : U32) (s : NameSys) : Int × Fs × Mm → Prop
  | fails (hfull : askedSize numBlocks = 0 ∨
        l.heapEnd.toNat - s.mm.heapCurrent.toNat < askedSize numBlocks) :
      FormatCase l numBlocks s
        (-1, { s.fs with superblock := freshSuperblock numBlocks, dataBlocks := 0#64 }, s.mm)
  | succeeds {cur : Word} (hpos : 0 < askedSize numBlocks)
      (hcur : cur.toNat = s.mm.heapCurrent.toNat + askedSize numBlocks) (hend : cur ≤ l.heapEnd) :
      FormatCase l numBlocks s
        (0, { s.fs with superblock := freshSuperblock numBlocks, dataBlocks := s.mm.heapCurrent },
          { s.mm with heapCurrent := cur })

section Format

variable {l : Layout} {s : NameSys} {numBlocks : U32}

theorem asked_toNat : ((numBlocks * sfsBlockSize).setWidth 64).toNat = askedSize numBlocks := by
  have hblock : sfsBlockSize.toNat = 4096 := rfl
  rw [BitVec.toNat_setWidth, BitVec.toNat_mul, hblock, askedSize]
  omega

/-- The request is a whole number of blocks, also when it has wrapped. -/
theorem asked_rounded : roundedSize ((numBlocks * sfsBlockSize).setWidth 64) = askedSize numBlocks := by
  rw [roundedSize, asked_toNat, askedSize]
  omega

theorem HeapIn.ne_null (h : HeapIn l s) (hl : l.Linked) : s.mm.heapCurrent ≠ 0#64 := by
  intro hz
  have hlow := BitVec.le_def.mp h.low
  have hkernel := hl.kernel
  rw [hz, BitVec.toNat_zero] at hlow
  omega

theorem sfsFormat_case (h : HeapIn l s) (hl : l.Linked) (numBlocks : U32) :
    FormatCase l numBlocks s (sfsFormat l numBlocks s.fs s.mm) := by
  have hhigh := BitVec.le_def.mp h.high
  have hram := hl.ram
  have hlt : askedSize numBlocks < 2^32 := Nat.mod_lt _ (by decide)
  rw [memEnd_toNat] at hram
  have hsum : (s.mm.heapCurrent.toNat + roundedSize ((numBlocks * sfsBlockSize).setWidth 64)) % 2^64 =
      s.mm.heapCurrent.toNat + askedSize numBlocks := by
    rw [asked_rounded]
    omega
  by_cases hzero : askedSize numBlocks = 0
  · have hsize : (numBlocks * sfsBlockSize).setWidth 64 = 0#64 := BitVec.eq_of_toNat_eq (asked_toNat.trans hzero)
    rw [sfsFormat, kmalloc_refused (.inl hsize)]
    exact .fails (.inl hzero)
  · have hsize : (numBlocks * sfsBlockSize).setWidth 64 ≠ 0#64 := by
      intro he
      rw [← asked_toNat, he] at hzero
      exact hzero rfl
    by_cases hfits : s.mm.heapCurrent.toNat + askedSize numBlocks ≤ l.heapEnd.toNat
    · obtain ⟨cur, hk, hval⟩ := kmalloc_granted hsize (hsum.symm ▸ hfits)
      rw [hsum] at hval
      simp only [sfsFormat, hk, if_neg (h.ne_null hl)]
      exact .succeeds (by omega) hval (by rw [BitVec.le_def]; omega)
    · rw [sfsFormat, kmalloc_refused (.inr (by rw [hsum]; omega))]
      exact .fails (.inr (by omega))

theorem HeapIn.exec (h : HeapIn l s) (hl : l.Linked) (c : NameCall) : HeapIn l (s.exec l c) := by
  cases c with
  | init => exact ⟨h.low, h.high⟩
  | format numBlocks =>
    have hcase := sfsFormat_case h hl numBlocks
    simp only [NameSys.exec]
    generalize sfsFormat l numBlocks s.fs s.mm = r at hcase
    cases hcase with
    | fails => exact ⟨h.low, h.high⟩
    | succeeds hpos hcur hend =>
      refine ⟨?_, hend⟩
      have hlow := BitVec.le_def.mp h.low
      rw [BitVec.le_def, hcur]
      omega
  | create name type => exact ⟨h.low, h.high⟩
  | delete name => exact ⟨h.low, h.high⟩

/-- In every run the heap pointer stays inside the heap. -/
theorem run_heapIn {start : NameSys} {calls : List NameCall} (hl : l.Linked) (hstart : HeapIn l start)
    (hrun : Run (guarded (fun _ _ => True) (NameSys.exec l)) start calls s) : HeapIn l s :=
  hrun.guarded_invariant (HeapIn l) (fun _ c hs _ => hs.exec hl c) hstart

end Format

/-- A heap of 4 MiB behind the kernel, and the static data as it is at boot. -/
def bootLayout : Layout := ⟨0x80400000#64, 0x80800000#64⟩

def bootSys : NameSys where
  fs := ⟨⟨0#32, 0#32, 0#32, 0#32, 0#32, 0#32⟩, fun _ => ⟨0#32, 0#32, 0#32, fun _ => 0#32, fun _ => 0#8⟩, 0#64⟩
  mm := ⟨fun _ => 0#64, 0#64, 0#64, 0x80400000#64⟩

theorem bootLayout_linked : bootLayout.Linked :=
  ⟨by decide +kernel, by decide +kernel, by decide +kernel, by decide +kernel⟩

theorem bootSys_heapIn : HeapIn bootLayout bootSys := ⟨by decide +kernel, by decide +kernel⟩

/-- The state after some calls from boot on. -/
def afterBoot (calls : List NameCall) : NameSys := calls.foldl (NameSys.exec bootLayout) bootSys

theorem run_afterBoot (calls : List NameCall) :
    Run (guarded (fun _ _ => True) (NameSys.exec bootLayout)) bootSys calls (afterBoot calls) :=
  run_unguarded bootSys calls

/-- The slots with `ino` 0. -/
def freeSlots (fs : Fs) : Nat := (List.finRange 64).countP fun i => decide ((fs.inodes i).ino = 0#32)

theorem freeSlots_eq_iff (fs : Fs) : freeSlots fs = 64 ↔ ∀ i, ¬ fs.live i := by
  have hlen : freeSlots fs = (List.finRange 64).length ↔ ∀ i, ¬ fs.live i := by
    rw [freeSlots, List.countP_eq_length]
    simp [Fs.live]
  rwa [List.length_finRange] at hlen

/-- An empty file system: no file, counters that agree with the table, and a data region from the
heap for all the blocks. -/
structure Formatted (l : Layout) (numBlocks : U32) (s t : NameSys) : Prop where
  empty : ∀ i, ¬ t.fs.live i
  freeInodes : t.fs.superblock.numFreeInodes.toNat = freeSlots t.fs
  freeBlocks : t.fs.superblock.numFreeBlocks = numBlocks
  block : t.fs.dataBlocks = s.mm.heapCurrent
  region : t.fs.dataBlocks.toNat + numBlocks.toNat * 4096 ≤ t.mm.heapCurrent.toNat
  inside : t.mm.heapCurrent ≤ l.heapEnd

/-- In every reachable state, a format that returns 0 leaves an empty file system exactly when there
was no file before and the blocks have less than 2^32 bytes. -/
theorem format_consistent_iff {l : Layout} {start s : NameSys} {calls : List NameCall} (hl : l.Linked)
    (hstart : HeapIn l start) (hrun : Run (guarded (fun _ _ => True) (NameSys.exec l)) start calls s)
    (numBlocks : U32) (hret : (sfsFormat l numBlocks s.fs s.mm).1 = 0) :
    Formatted l numBlocks s (s.exec l (.format numBlocks)) ↔
      (∀ i, ¬ s.fs.live i) ∧ numBlocks.toNat < 2^20 := by
  have hcase := sfsFormat_case (run_heapIn hl hstart hrun) hl numBlocks
  simp only [NameSys.exec]
  generalize sfsFormat l numBlocks s.fs s.mm = r at hcase hret
  cases hcase with
  | fails => cases hret
  | @succeeds cur hpos hcur hend =>
    constructor
    · intro h
      refine ⟨h.empty, ?_⟩
      have hregion := h.region
      dsimp only at hregion
      rw [hcur, askedSize] at hregion
      omega
    · rintro ⟨hempty, hlt⟩
      have hasked : askedSize numBlocks = numBlocks.toNat * 4096 := by
        rw [askedSize]
        omega
      refine ⟨hempty, ?_, rfl, rfl, ?_, hend⟩
      · exact ((freeSlots_eq_iff s.fs).mpr hempty).symm
      · dsimp only
        rw [hcur, hasked]

/-- A first format of 16 blocks. -/
theorem format_consistent_sixteen :
    (sfsFormat bootLayout 16#32 (afterBoot [.init]).fs (afterBoot [.init]).mm).1 = 0 ∧
    Formatted bootLayout 16#32 (afterBoot [.init]) ((afterBoot [.init]).exec bootLayout (.format 16#32)) := by
  have hret : (sfsFormat bootLayout 16#32 (afterBoot [.init]).fs (afterBoot [.init]).mm).1 = 0 := by decide +kernel
  refine ⟨hret, (format_consistent_iff bootLayout_linked bootSys_heapIn (run_afterBoot [.init]) 16#32 hret).mpr ?_⟩
  exact ⟨fun i hlive => hlive rfl, by decide⟩

/-- A file survives the format, and the counter says that all 64 inodes are free. -/
theorem format_keeps_file :
    let s := afterBoot [.init, .format 16#32, .create (letters 1) 1#32]
    (sfsFormat bootLayout 16#32 s.fs s.mm).1 = 0 ∧
      ((s.exec bootLayout (.format 16#32)).fs.inodes 0).ino = 1#32 ∧
      (s.exec bootLayout (.format 16#32)).fs.superblock.numFreeInodes = 64#32 ∧
      ¬ Formatted bootLayout 16#32 s (s.exec bootLayout (.format 16#32)) := by
  intro s
  have hino : ((s.exec bootLayout (.format 16#32)).fs.inodes 0).ino = 1#32 := by decide +kernel
  refine ⟨by decide +kernel, hino, by decide +kernel, ?_⟩
  intro h
  have hempty := h.empty 0
  rw [Fs.live, hino] at hempty
  exact hempty (by decide)

/-- There is no room for the blocks, or none is asked for. -/
def CannotSupply (l : Layout) (numBlocks : U32) (s : NameSys) : Prop :=
  numBlocks = 0#32 ∨ l.heapEnd.toNat - s.mm.heapCurrent.toNat < numBlocks.toNat * 4096

/-- There is no room for the 32-bit product either. -/
def CannotSupplyAsked (l : Layout) (numBlocks : U32) (s : NameSys) : Prop :=
  askedSize numBlocks = 0 ∨ l.heapEnd.toNat - s.mm.heapCurrent.toNat < askedSize numBlocks

/-- The format fails and nothing has changed. -/
def FailsClean (l : Layout) (numBlocks : U32) (s : NameSys) : Prop :=
  (sfsFormat l numBlocks s.fs s.mm).1 = -1 ∧ (sfsFormat l numBlocks s.fs s.mm).2.1 = s.fs

theorem failsClean_iff {l : Layout} {s : NameSys} (h : HeapIn l s) (hl : l.Linked) (numBlocks : U32) :
    FailsClean l numBlocks s ↔
      CannotSupplyAsked l numBlocks s ∧ s.fs.superblock = freshSuperblock numBlocks ∧ s.fs.dataBlocks = 0#64 := by
  have hcase := sfsFormat_case h hl numBlocks
  unfold FailsClean
  generalize sfsFormat l numBlocks s.fs s.mm = r at hcase
  cases hcase with
  | fails hroom =>
    constructor
    · rintro ⟨_, hfs⟩
      have hfs' : { s.fs with superblock := freshSuperblock numBlocks, dataBlocks := 0#64 } = s.fs := hfs
      exact ⟨hroom, by rw [← hfs'], by rw [← hfs']⟩
    · rintro ⟨_, hsuper, hdata⟩
      refine ⟨rfl, ?_⟩
      dsimp only
      rw [← hsuper, ← hdata]
  | @succeeds cur hpos hcur hend =>
    refine iff_of_false ?_ ?_
    · rintro ⟨hret, _⟩
      cases hret
    · rintro ⟨hroom, _⟩
      rw [BitVec.le_def, hcur] at hend
      rw [CannotSupplyAsked] at hroom
      omega

/-- In every reachable state, a format without room fails and changes nothing exactly when its
32-bit product has no room either and the file system was already what the failure leaves: a fresh
superblock for as many blocks, and no data region. -/
theorem format_fails_clean_iff {l : Layout} {start s : NameSys} {calls : List NameCall} (hl : l.Linked)
    (hstart : HeapIn l start) (hrun : Run (guarded (fun _ _ => True) (NameSys.exec l)) start calls s)
    (numBlocks : U32) : (CannotSupply l numBlocks s → FailsClean l numBlocks s) ↔
      (CannotSupply l numBlocks s → CannotSupplyAsked l numBlocks s ∧
        s.fs.superblock = freshSuperblock numBlocks ∧ s.fs.dataBlocks = 0#64) := by
  rw [failsClean_iff (run_heapIn hl hstart hrun) hl numBlocks]

/-- A format for no blocks at all, twice. -/
theorem format_fails_clean_zero :
    let s := afterBoot [.init, .format 0#32]
    CannotSupply bootLayout 0#32 s ∧ FailsClean bootLayout 0#32 s := by
  intro s
  have hfull : CannotSupply bootLayout 0#32 s := .inl rfl
  refine ⟨hfull, (format_fails_clean_iff bootLayout_linked bootSys_heapIn
    (run_afterBoot [.init, .format 0#32]) 0#32).mpr ?_ hfull⟩
  intro _
  exact ⟨.inl rfl, by decide +kernel, by decide +kernel⟩

/-- A format of 8 MiB fails on the 4 MiB heap, and the mounted file system has lost its data region. -/
theorem format_fails_mounted :
    let s := afterBoot [.init, .format 16#32]
    CannotSupply bootLayout 2048#32 s ∧ (sfsFormat bootLayout 2048#32 s.fs s.mm).1 = -1 ∧
      s.fs.dataBlocks = 0x80400000#64 ∧ (sfsFormat bootLayout 2048#32 s.fs s.mm).2.1.dataBlocks = 0#64 ∧
      ¬ FailsClean bootLayout 2048#32 s := by
  intro s
  have hbefore : s.fs.dataBlocks = 0x80400000#64 := by decide +kernel
  have hafter : (sfsFormat bootLayout 2048#32 s.fs s.mm).2.1.dataBlocks = 0#64 := by decide +kernel
  refine ⟨.inr (by decide +kernel), by decide +kernel, hbefore, hafter, ?_⟩
  rintro ⟨_, hfs⟩
  rw [hfs, hbefore] at hafter
  exact absurd hafter (by decide)

end RiscvOs.SimpleFs
