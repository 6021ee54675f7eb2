import RiscvOs.ByteMemory
import RiscvOs.PageTable
set_option autoImplicit false

/-!
The ELF loader of `kernel/process/elf.c`. It maps nothing yet: it checks the header, goes over the
program headers and hands out the entry point. `binary` is the memory as seen from the pointer, so
that an address is an offset in the image, or a byte behind it. The permissions that the loop
computes for a segment are not used and left out.
-/

namespace RiscvOs.Elf
open CStrings WordMemory ByteMemory Reads

/-- What the loader prints before it returns -1. -/
inductive ElfError where
  | invalidMagic | not64Bit | notLittleEndian | notRiscv | notExecutable | outOfRange
  deriving DecidableEq

def ElfError.message : ElfError → String
  | invalidMagic => "[ELF] Invalid magic number\n"
  | not64Bit => "[ELF] Not a 64-bit ELF\n"
  | notLittleEndian => "[ELF] Not little-endian\n"
  | notRiscv => "[ELF] Not a RISC-V binary\n"
  | notExecutable => "[ELF] Not an executable\n"
  | outOfRange => "[ELF] Segment virtual address out of range\n"

/-- A return value: 0, or -1 behind the message. -/
abbrev Ret := Except ElfError Unit

def elfClass64 : Byte := 2#8
def elfData2Lsb : Byte := 1#8
def emRiscv : BitVec 16 := 243#16
def etExec : BitVec 16 := 2#16
def ptLoad : BitVec 32 := 1#32

/-- `if (field != expected) return -1;` -/
structure HeaderCheck where
  offset : Word
  width : Nat
  expected : BitVec width
  error : ElfError

def HeaderCheck.run (c : HeaderCheck) : Reads Ret := do
  let v ← load c.width c.offset
  if v = c.expected then pure (.ok ()) else pure (.error c.error)

def headerChecks : List HeaderCheck :=
  [⟨0#64, 8, 0x7f#8, .invalidMagic⟩, ⟨1#64, 8, byte 'E', .invalidMagic⟩, ⟨2#64, 8, byte 'L', .invalidMagic⟩,
   ⟨3#64, 8, byte 'F', .invalidMagic⟩, ⟨4#64, 8, elfClass64, .not64Bit⟩, ⟨5#64, 8, elfData2Lsb, .notLittleEndian⟩,
   ⟨18#64, 16, emRiscv, .notRiscv⟩, ⟨16#64, 16, etExec, .notExecutable⟩]

def runChecks : List HeaderCheck → Reads Ret
  | [] => pure (.ok ())
  | c :: cs => c.run.andThen (runChecks cs)

def elfValidate : Reads Ret := runChecks headerChecks

/-- `&phdr[i]`; a program header has 56 bytes. -/
def phdrAt (phdr : Word) (i : Nat) : Word := phdr + BitVec.ofNat 64 (56 * i)

/-- The loop body for the program header at `a`. -/
def loadSegment (a : Word) : Reads Ret := do
  let type ← load 32 a
  if type = ptLoad then
    let vaddr ← load 64 (a + 16#64)
    let _filesz ← load 64 (a + 32#64)
    let memsz ← load 64 (a + 40#64)
    let _flags ← load 32 (a + 4#64)
    if Vm.maxVa < vaddr + memsz then pure (.error .outOfRange) else pure (.ok ())
  else pure (.ok ())

/-- The loop over the program headers, from `i` on for `n` of them. -/
def loadSegments (phdr : Word) : Nat → Nat → Reads Ret
  | 0, _ => pure (.ok ())
  | n + 1, i => (loadSegment (phdrAt phdr i)).andThen (loadSegments phdr n (i + 1))

/-- `*entry` is written behind the loop, unless it has returned -1. -/
def finish (entry start : Word) : Ret → Ret × Word
  | .error e => (.error e, entry)
  | .ok _ => (.ok (), start)

/-- The return value and `*entry`. No statement of the function uses `size`. -/
def elfLoad (_size entry : Word) : Reads (Ret × Word) := do
  match ← elfValidate with
  | .error e => pure (.error e, entry)
  | .ok _ =>
    let start ← load 64 24#64
    let phnum ← load 16 56#64
    let phoff ← load 64 32#64
    let r ← loadSegments phoff phnum.toNat 0
    pure (finish entry start r)

/-- The fields of a program header. -/
structure Phdr where
  pType : BitVec 32
  pOffset : Word
  pVaddr : Word
  pFilesz : Word
  pMemsz : Word

/-- Program header `i` of the image. -/
def phdr (m : Bytes) (i : Nat) : Phdr :=
  let a := phdrAt (field 64 m 32#64) i
  ⟨field 32 m a, field 64 m (a + 8#64), field 64 m (a + 16#64), field 64 m (a + 32#64), field 64 m (a + 40#64)⟩

def ePhnum (m : Bytes) : Nat := (field 16 m 56#64).toNat

/-- The test of the loop, with its 64-bit sum. -/
def Phdr.Passes (x : Phdr) : Prop := x.pType = ptLoad → x.pVaddr + x.pMemsz ≤ Vm.maxVa

instance (x : Phdr) : Decidable x.Passes := inferInstanceAs (Decidable (_ → _))

section Values

variable {m : Bytes}

theorem value_runChecks (cs : List HeaderCheck) :
    (runChecks cs).value m = .ok () ↔ ∀ c ∈ cs, field c.width m c.offset = c.expected := by
  induction cs with
  | nil => simp [runChecks]
  | cons c cs ih =>
    rw [runChecks, value_andThen, ih, List.forall_mem_cons]
    simp [HeaderCheck.run]

theorem value_loadSegment (i : Nat) :
    (loadSegment (phdrAt (field 64 m 32#64) i)).value m = .ok () ↔ (phdr m i).Passes := by
  simp only [loadSegment, value_bind, value_load, value_ite, value_pure, Phdr.Passes, phdr]
  split
  · rename_i htype
    split
    · rename_i hsum
      simp [htype, hsum]
    · rename_i hsum
      simpa [htype] using hsum
  · rename_i htype
    simp [htype]

theorem value_loadSegments (n i : Nat) : (loadSegments (field 64 m 32#64) n i).value m = .ok () ↔
    ∀ k < n, (phdr m (i + k)).Passes := by
  induction n generalizing i with
  | zero => simp [loadSegments]
  | succ n ih =>
    rw [loadSegments, value_andThen, ih, value_loadSegment]
    constructor
    · rintro ⟨hfirst, hrest⟩ k hk
      cases k with
      | zero => exact hfirst
      | succ k =>
        rw [Nat.add_succ, ← Nat.succ_add]
        exact hrest k (by omega)
    · intro hall
      refine ⟨hall 0 (by omega), ?_⟩
      intro k hk
      rw [Nat.succ_add, ← Nat.add_succ]
      exact hall (k + 1) (by omega)

/-- What is accepted: a valid header whose loadable segments all pass the test. -/
theorem value_elfLoad (size entry : Word) : ((elfLoad size entry).value m).1 = .ok () ↔
    elfValidate.value m = .ok () ∧ ∀ i < ePhnum m, (phdr m i).Passes := by
  rw [elfLoad, value_bind]
  cases elfValidate.value m with
  | error e => simp
  | ok u =>
    have hloop := value_loadSegments (m := m) (ePhnum m) 0
    simp only [Nat.zero_add] at hloop
    rw [← hloop, ePhnum]
    simp only [value_bind, value_load, value_pure, true_and]
    cases (loadSegments (field 64 m 32#64) (field 16 m 56#64).toNat 0).value m with
    | error e => simp [finish]
    | ok u => simp [finish]

theorem entry_of_rejected {size entry : Word} (h : ((elfLoad size entry).value m).1 ≠ .ok ()) :
    ((elfLoad size entry).value m).2 = entry := by
  rw [elfLoad, value_bind] at h ⊢
  cases hv : elfValidate.value m with
  | error e => rw [value_pure]
  | ok u =>
    rw [hv] at h
    simp only [value_bind, value_load, value_pure] at h ⊢
    cases hs : (loadSegments (field 64 m 32#64) (field 16 m 56#64).toNat 0).value m with
    | error e => rfl
    | ok u =>
      rw [hs] at h
      exact absurd rfl h

end Values

/-- Accepted segments lie below `MAXVA`, and a rejected image leaves `*entry` alone. -/
structure SegmentsInRange (m : Bytes) (size entry : Word) : Prop where
  accepted : ((elfLoad size entry).value m).1 = .ok () → ∀ i < ePhnum m, (phdr m i).pType = ptLoad →
    (phdr m i).pVaddr.toNat + (phdr m i).pMemsz.toNat ≤ Vm.maxVa.toNat
  rejected : ((elfLoad size entry).value m).1 ≠ .ok () → ((elfLoad size entry).value m).2 = entry

theorem passes_iff {x : Phdr} (hload : x.pType = ptLoad) (hsum : x.pVaddr.toNat + x.pMemsz.toNat < 2^64) :
    x.Passes ↔ x.pVaddr.toNat + x.pMemsz.toNat ≤ Vm.maxVa.toNat := by
  rw [Phdr.Passes, BitVec.le_def, BitVec.toNat_add, Nat.mod_eq_of_lt hsum]
  exact ⟨fun h => h hload, fun h _ => h⟩

/-- The segments are in range unless an image is accepted with a sum that has passed 2^64. -/
theorem elf_segments_in_range_iff (m : Bytes) (size entry : Word) : SegmentsInRange m size entry ↔
    elfValidate.value m ≠ .ok () ∨ (∃ i < ePhnum m, ¬ (phdr m i).Passes) ∨
      ∀ i < ePhnum m, (phdr m i).pType = ptLoad → (phdr m i).pVaddr.toNat + (phdr m i).pMemsz.toNat < 2^64 := by
  constructor
  · intro h
    by_cases hok : ((elfLoad size entry).value m).1 = .ok ()
    · right
      right
      intro i hi hload
      have hle := h.accepted hok i hi hload
      rw [Vm.maxVa_toNat] at hle
      omega
    · rw [value_elfLoad, not_and_or] at hok
      rcases hok with hinvalid | hsegment
      · exact .inl hinvalid
      · right
        left
        simp only [not_forall, exists_prop] at hsegment
        exact hsegment
  · intro hcond
    refine ⟨?_, entry_of_rejected⟩
    intro hok i hi hload
    obtain ⟨hvalid, hpass⟩ := (value_elfLoad size entry).mp hok
    rcases hcond with hinvalid | ⟨j, hj, hfail⟩ | hexact
    · exact absurd hvalid hinvalid
    · exact absurd (hpass j hj) hfail
    · exact (passes_iff hload (hexact i hi hload)).mp (hpass i hi)

/-- An image of one loadable segment; `xs` are the bytes of its program header, which follows the
ELF header. -/
def oneSegment (xs : List (Nat × Byte)) (o : Word) : Byte :=
  (([(0, 0x7f#8), (1, byte 'E'), (2, byte 'L'), (3, byte 'F'), (4, 2#8), (5, 1#8), (16, 2#8), (17, 0#8), (18, 243#8),
    (19, 0#8), (32, 64#8), (56, 1#8), (64, 1#8)] ++ xs).lookup o.toNat).getD 0#8

theorem oneSegment_valid (xs : List (Nat × Byte)) : elfValidate.value (oneSegment xs) = .ok () := by
  rw [elfValidate, value_runChecks]
  simp only [headerChecks, List.forall_mem_cons, List.not_mem_nil, false_imp_iff, implies_true, and_true]
  refine ⟨rfl, rfl, rfl, rfl, rfl, rfl, rfl, rfl⟩

/-- A segment of 4 KiB at `0xFFFFFFFFFFFFF000` ends at 0. -/
def topSegment : Bytes :=
  oneSegment [(81, 0xf0#8), (82, 0xff#8), (83, 0xff#8), (84, 0xff#8), (85, 0xff#8), (86, 0xff#8), (87, 0xff#8),
    (105, 0x10#8)]

theorem elf_top_segment_accepted : ((elfLoad 120#64 7#64).value topSegment).1 = .ok () ∧
    (phdr topSegment 0).pType = ptLoad ∧ (phdr topSegment 0).pVaddr = 0xFFFFFFFFFFFFF000#64 ∧
    (phdr topSegment 0).pMemsz = 0x1000#64 ∧ ¬ SegmentsInRange topSegment 120#64 7#64 := by
  have hload : (phdr topSegment 0).pType = ptLoad := by decide +kernel
  have hvaddr : (phdr topSegment 0).pVaddr = 0xFFFFFFFFFFFFF000#64 := by decide +kernel
  have hmemsz : (phdr topSegment 0).pMemsz = 0x1000#64 := by decide +kernel
  have hnum : ePhnum topSegment = 1 := by decide +kernel
  have hok : ((elfLoad 120#64 7#64).value topSegment).1 = .ok () := by
    rw [value_elfLoad, hnum]
    refine ⟨oneSegment_valid _, ?_⟩
    intro i hi
    obtain rfl : i = 0 := by omega
    rw [Phdr.Passes, hvaddr, hmemsz]
    decide
  refine ⟨hok, hload, hvaddr, hmemsz, ?_⟩
  intro h
  have hle := h.accepted hok 0 (by rw [hnum]; decide) hload
  rw [hvaddr, hmemsz] at hle
  exact absurd hle (by decide)

/-- The loader reads only bytes of the image, and an accepted image holds what its segments are
to be filled with. -/
structure StaysInside (m : Bytes) (size entry : Word) : Prop where
  reads : ∀ o ∈ (elfLoad size entry).reads m, o.toNat < size.toNat
  files : ((elfLoad size entry).value m).1 = .ok () → ∀ i < ePhnum m, (phdr m i).pType = ptLoad →
    (∀ j, (phdr m i).pOffset.toNat ≤ j → j < (phdr m i).pOffset.toNat + (phdr m i).pFilesz.toNat →
      j < size.toNat) ∧ (phdr m i).pFilesz.toNat ≤ (phdr m i).pMemsz.toNat

/-- The bytes up to the last field that the checks get to. -/
def bytesNeeded (m : Bytes) : List HeaderCheck → Nat
  | [] => 0
  | c :: cs =>
    max (c.offset.toNat + c.width / 8) (if field c.width m c.offset = c.expected then bytesNeeded m cs else 0)

/-- The fields that the loop reads of program header `i`. -/
def EntryWithin (m : Bytes) (size : Word) (i : Nat) : Prop :=
  let a := phdrAt (field 64 m 32#64) i
  Within size a 4 ∧ ((phdr m i).pType = ptLoad →
    Within size (a + 16#64) 8 ∧ Within size (a + 32#64) 8 ∧ Within size (a + 40#64) 8 ∧ Within size (a + 4#64) 4)

/-- What the loader takes for granted: the image goes on to the last field of the header that is
looked at, holds the program headers up to the first one that is rejected and, if none is, the
contents of its segments. -/
structure ImageFits (m : Bytes) (size : Word) : Prop where
  header : bytesNeeded m headerChecks ≤ size.toNat
  table : elfValidate.value m = .ok () → 58 ≤ size.toNat ∧
    ∀ i < ePhnum m, (∀ j < i, (phdr m j).Passes) → EntryWithin m size i
  files : elfValidate.value m = .ok () → (∀ i < ePhnum m, (phdr m i).Passes) →
    ∀ i < ePhnum m, (phdr m i).pType = ptLoad →
      ((phdr m i).pFilesz = 0#64 ∨ (phdr m i).pOffset.toNat + (phdr m i).pFilesz.toNat ≤ size.toNat) ∧
        (phdr m i).pFilesz.toNat ≤ (phdr m i).pMemsz.toNat

section Reading

variable {m : Bytes} {size : Word}

theorem reads_runChecks (m : Bytes) (size : Word) {cs : List HeaderCheck}
    (hcs : ∀ c ∈ cs, 0 < c.width / 8 ∧ c.offset.toNat + c.width / 8 ≤ 2^64) :
    (∀ o ∈ (runChecks cs).reads m, o.toNat < size.toNat) ↔ bytesNeeded m cs ≤ size.toNat := by
  induction cs with
  | nil => simp [runChecks, bytesNeeded]
  | cons c cs ih =>
    rw [List.forall_mem_cons] at hcs
    have hfield : Within size c.offset (c.width / 8) ↔ c.offset.toNat + c.width / 8 ≤ size.toNat :=
      within_iff hcs.1.2 hcs.1.1
    have hrun : (∀ o ∈ c.run.reads m, o.toNat < size.toNat) ↔ c.offset.toNat + c.width / 8 ≤ size.toNat := by
      simpa [HeaderCheck.run, Within] using hfield
    have hpass : c.run.value m = .ok () ↔ field c.width m c.offset = c.expected := by
      simp [HeaderCheck.run]
    rw [runChecks, forall_reads_andThen, hrun, hpass, ih hcs.2, bytesNeeded, Nat.max_le]
    split
    · rename_i he
      simp [he]
    · rename_i he
      simp [he]

theorem reads_loadSegment (i : Nat) :
    (∀ o ∈ (loadSegment (phdrAt (field 64 m 32#64) i)).reads m, o.toNat < size.toNat) ↔ EntryWithin m size i := by
  simp only [loadSegment, reads_bind, reads_load, reads_ite, reads_pure, value_load, ite_self, List.append_nil,
    List.forall_mem_append, EntryWithin, phdr, Within]
  split
  · rename_i htype
    simp only [htype, true_imp_iff, List.forall_mem_append]
  · rename_i htype
    simp [htype]

theorem reads_loadSegments (m : Bytes) (size : Word) (n i : Nat) :
    (∀ o ∈ (loadSegments (field 64 m 32#64) n i).reads m, o.toNat < size.toNat) ↔
      ∀ k < n, (∀ j < k, (phdr m (i + j)).Passes) → EntryWithin m size (i + k) := by
  induction n generalizing i with
  | zero => simp [loadSegments]
  | succ n ih =>
    rw [loadSegments, forall_reads_andThen, reads_loadSegment, value_loadSegment, ih]
    constructor
    · rintro ⟨hfirst, hrest⟩ k hk hpass
      cases k with
      | zero => exact hfirst
      | succ k =>
        rw [Nat.add_succ, ← Nat.succ_add]
        refine hrest (hpass 0 (by omega)) k (by omega) ?_
        intro j hj
        rw [Nat.succ_add, ← Nat.add_succ]
        exact hpass (j + 1) (by omega)
    · intro hall
      refine ⟨hall 0 (by omega) (by simp), ?_⟩
      intro hfirst k hk hpass
      rw [Nat.succ_add, ← Nat.add_succ]
      refine hall (k + 1) (by omega) ?_
      intro j hj
      cases j with
      | zero => exact hfirst
      | succ j =>
        rw [Nat.add_succ, ← Nat.succ_add]
        exact hpass j (by omega)

theorem reads_elfLoad (entry : Word) : (∀ o ∈ (elfLoad size entry).reads m, o.toNat < size.toNat) ↔
    bytesNeeded m headerChecks ≤ size.toNat ∧ (elfValidate.value m = .ok () → 58 ≤ size.toNat ∧
      ∀ i < ePhnum m, (∀ j < i, (phdr m j).Passes) → EntryWithin m size i) := by
  have hinside : ∀ c ∈ headerChecks, 0 < c.width / 8 ∧ c.offset.toNat + c.width / 8 ≤ 2^64 := by decide
  have hheader := reads_runChecks m size hinside
  rw [elfLoad, reads_bind, List.forall_mem_append, elfValidate, hheader]
  cases (runChecks headerChecks).value m with
  | error e => simp
  | ok u =>
    have hloop := reads_loadSegments m size (ePhnum m) 0
    simp only [Nat.zero_add] at hloop
    have hfields : Within size 24#64 8 ∧ Within size 56#64 2 ∧ Within size 32#64 8 ↔ 58 ≤ size.toNat := by
      rw [within_iff (by decide) (by decide), within_iff (by decide) (by decide), within_iff (by decide) (by decide)]
      simp only [BitVec.toNat_ofNat]
      omega
    rw [← hloop, ← hfields]
    simp only [reads_bind, reads_load, value_load, reads_pure, List.append_nil, List.forall_mem_append, true_imp_iff,
      and_assoc, Within, ePhnum, Nat.reduceDiv]

end Reading

/-- A file range is inside the image when it is empty or ends there. -/
theorem fileRange_inside (x : Phdr) (size : Word) :
    (∀ j, x.pOffset.toNat ≤ j → j < x.pOffset.toNat + x.pFilesz.toNat → j < size.toNat) ↔
      x.pFilesz = 0#64 ∨ x.pOffset.toNat + x.pFilesz.toNat ≤ size.toNat := by
  rw [← BitVec.toNat_inj, BitVec.toNat_zero]
  constructor
  · intro h
    by_cases hz : x.pFilesz.toNat = 0
    · exact .inl hz
    · have hlast := h (x.pOffset.toNat + x.pFilesz.toNat - 1) (by omega) (by omega)
      right
      omega
  · intro h j hlow hhigh
    omega

/-- The loader is given the size of the image and never looks at it: it stays inside exactly the
images that hold whatever it happens to read. -/
theorem elf_stays_inside_iff (m : Bytes) (size entry : Word) : StaysInside m size entry ↔ ImageFits m size := by
  constructor
  · intro h
    obtain ⟨hheader, htable⟩ := (reads_elfLoad entry).mp h.reads
    refine ⟨hheader, htable, ?_⟩
    intro hvalid hpass i hi hload
    obtain ⟨hrange, hsize⟩ := h.files ((value_elfLoad size entry).mpr ⟨hvalid, hpass⟩) i hi hload
    exact ⟨(fileRange_inside _ size).mp hrange, hsize⟩
  · intro h
    refine ⟨(reads_elfLoad entry).mpr ⟨h.header, h.table⟩, ?_⟩
    intro hok i hi hload
    obtain ⟨hvalid, hpass⟩ := (value_elfLoad size entry).mp hok
    obtain ⟨hrange, hsize⟩ := h.files hvalid hpass i hi hload
    exact ⟨(fileRange_inside _ size).mpr hrange, hsize⟩

/-- A segment with 16 bytes in the file, from 4096 on, and none in memory. -/
def farSegment : Bytes := oneSegment [(73, 0x10#8), (96, 0x10#8)]

/-- The image ends behind its header, and the loop goes on to the program header; with the program
header in the image, the segment is accepted. -/
theorem elf_reads_behind_image : ¬ StaysInside farSegment 64#64 7#64 ∧
    ((elfLoad 120#64 7#64).value farSegment).1 = .ok () ∧ ¬ StaysInside farSegment 120#64 7#64 := by
  have hvalid : elfValidate.value farSegment = .ok () := oneSegment_valid _
  have hnum : ePhnum farSegment = 1 := by decide +kernel
  have hpass : (phdr farSegment 0).Passes := by decide +kernel
  have hok : ((elfLoad 120#64 7#64).value farSegment).1 = .ok () := by
    rw [value_elfLoad, hnum]
    refine ⟨hvalid, ?_⟩
    intro i hi
    obtain rfl : i = 0 := by omega
    exact hpass
  refine ⟨?_, hok, ?_⟩
  · intro h
    have htable := ((reads_elfLoad 7#64).mp h.reads).2 hvalid
    rw [hnum] at htable
    have haddr : phdrAt (field 64 farSegment 32#64) 0 = 64#64 := by decide +kernel
    have hentry : Within 64#64 (phdrAt (field 64 farSegment 32#64) 0) 4 := (htable.2 0 (by decide) (by simp)).1
    rw [haddr, within_iff (by decide) (by decide)] at hentry
    exact absurd hentry (by decide)
  · intro h
    have hfile := h.files hok 0 (by rw [hnum]; decide) (by decide +kernel)
    exact absurd hfile.2 (by decide +kernel)

end RiscvOs.Elf
