import RiscvOs.SimpleFs
set_option autoImplicit false

/-!
The sizes in `sfs_read` and `sfs_write`. Offsets and sizes are unsigned numbers of 32 bits whose
sum wraps, and the result is returned as an `int`.
-/

namespace RiscvOs.SimpleFs

/-- The size of the file in slot `i`. -/
def Fs.fileSize (fs : Fs) (i : Fin 64) : Nat := (fs.inodes i).size.toNat

/-- The bytes of a file that are there to be read from `offset` on, of the `size` asked for. -/
def readable (file offset size : Nat) : Nat := if offset < file then min size (file - offset) else 0

/-- Writing and reading at `offset` go by the exact sum, and what is written can be read back. -/
structure SizesExact (fs : Fs) (i : Fin 64) (ino offset size : U32) : Prop where
  write : 0 ≤ (sfsWrite ino offset size fs).1 →
    (sfsWrite ino offset size fs).2.fileSize i = max (fs.fileSize i) (offset.toNat + size.toNat)
  read : sfsRead ino offset size fs = readable (fs.fileSize i) offset.toNat size.toNat
  readBack : 0 ≤ (sfsWrite ino offset size fs).1 →
    sfsRead ino offset size (sfsWrite ino offset size fs).2 = size.toNat

section Sizes

variable {fs : Fs} {i : Fin 64} {ino offset size : U32}

theorem toInt_cases (x : U32) : (x.toNat < 2^31 ∧ x.toInt = x.toNat) ∨ (2^31 ≤ x.toNat ∧ x.toInt < 0) := by
  have hlt := x.isLt
  rw [BitVec.toInt_eq_toNat_cond]
  split
  · exact .inl ⟨by omega, rfl⟩
  · exact .inr ⟨by omega, by omega⟩

theorem sfsWrite_live (h : slotOf fs ino = some i) : sfsWrite ino offset size fs =
    (size.toInt, fs.setInode i { fs.inodes i with
      size := if offset + size > (fs.inodes i).size then offset + size else (fs.inodes i).size }) := by
  rw [sfsWrite, h]

/-- The size after a write, with the sum as it is computed. -/
theorem fileSize_write (offset size : U32) (h : slotOf fs ino = some i) : (sfsWrite ino offset size fs).2.fileSize i =
    max (fs.fileSize i) ((offset.toNat + size.toNat) % 2^32) := by
  rw [sfsWrite_live h]
  simp only [Fs.fileSize, Fs.setInode, Function.update_self, gt_iff_lt, BitVec.lt_def, BitVec.toNat_add]
  split
  · rw [BitVec.toNat_add]
    omega
  · omega

theorem slotOf_congr {fs' : Fs} (h : ∀ j, (fs'.inodes j).ino = (fs.inodes j).ino) :
    slotOf fs' ino = slotOf fs ino := by
  simp only [slotOf, h]

/-- A write changes no inode number. -/
theorem slotOf_write (h : slotOf fs ino = some i) : slotOf (sfsWrite ino offset size fs).2 ino = some i := by
  rw [← h]
  apply slotOf_congr
  intro j
  rw [sfsWrite_live h]
  by_cases hj : j = i
  · subst hj
    simp [Fs.setInode]
  · simp [Fs.setInode, Function.update_of_ne hj]

/-- What a read can do: there is nothing at the offset, the rest of the file is shorter than what is
asked for, or the sum, as it is computed, is inside the file. -/
inductive ReadCase (file : Nat) (offset size : U32) : Int → Prop
  | behind (hbound : file ≤ offset.toNat) : ReadCase file offset size 0
  | rest {r : U32} (hbound : offset.toNat < file) (hsum : file < (offset.toNat + size.toNat) % 2^32)
      (hr : r.toNat = file - offset.toNat) : ReadCase file offset size r.toInt
  | whole (hbound : offset.toNat < file) (hsum : (offset.toNat + size.toNat) % 2^32 ≤ file) :
      ReadCase file offset size size.toInt

theorem sfsRead_case (offset size : U32) (h : slotOf fs ino = some i) :
    ReadCase (fs.fileSize i) offset size (sfsRead ino offset size fs) := by
  rw [sfsRead, h]
  dsimp only
  by_cases hbound : offset ≥ (fs.inodes i).size
  · rw [if_pos hbound]
    exact .behind hbound
  · rw [if_neg hbound]
    have hlt : offset < (fs.inodes i).size := BitVec.not_le.mp hbound
    by_cases hsum : offset + size > (fs.inodes i).size
    · rw [if_pos hsum]
      refine .rest hlt ?_ (BitVec.toNat_sub_of_le (BitVec.le_of_lt hlt))
      rw [← BitVec.toNat_add]
      exact hsum
    · rw [if_neg hsum]
      refine .whole hlt ?_
      rw [← BitVec.toNat_add]
      exact Nat.not_lt.mp hsum

/-- A read returns the number that it should as long as the sum does not wrap and the number is an
`int`. -/
theorem sfsRead_eq_iff (h : slotOf fs ino = some i) :
    sfsRead ino offset size fs = readable (fs.fileSize i) offset.toNat size.toNat ↔
      (offset.toNat < fs.fileSize i → offset.toNat + size.toNat < 2^32 ∧
        min size.toNat (fs.fileSize i - offset.toNat) < 2^31) := by
  have hcase := sfsRead_case offset size h
  have hfile : fs.fileSize i < 2^32 := (fs.inodes i).size.isLt
  have hoffset := offset.isLt
  have hsize := size.isLt
  unfold readable
  generalize sfsRead ino offset size fs = r at hcase
  cases hcase with
  | behind hbound =>
    rw [if_neg (Nat.not_lt.mpr hbound)]
    exact iff_of_true rfl fun hlt => absurd hlt (Nat.not_lt.mpr hbound)
  | @rest r hbound hsum hr =>
    rw [if_pos hbound]
    rcases toInt_cases r with ⟨hint, he⟩ | ⟨hint, he⟩
    · rw [he]
      omega
    · omega
  | whole hbound hsum =>
    rw [if_pos hbound]
    rcases toInt_cases size with ⟨hint, he⟩ | ⟨hint, he⟩
    · rw [he]
      omega
    · omega

/-- A write that fits can be read back. -/
theorem sfsRead_write (h : slotOf fs ino = some i) (hint : size.toNat < 2^31)
    (hsum : offset.toNat + size.toNat < 2^32) :
    sfsRead ino offset size (sfsWrite ino offset size fs).2 = size.toNat := by
  have hfile := fileSize_write offset size h
  rw [Nat.mod_eq_of_lt hsum] at hfile
  rw [(sfsRead_eq_iff (slotOf_write h)).mpr (by omega), readable]
  split
  · omega
  · omega

end Sizes

/-- The sizes are exact as long as the sum stays below 2^32 wherever it is used, and what a read
returns is an `int`. -/
theorem sizes_exact_iff {fs : Fs} {i : Fin 64} {ino : U32} (h : slotOf fs ino = some i) (offset size : U32) :
    SizesExact fs i ino offset size ↔ (size.toNat < 2^31 → offset.toNat + size.toNat < 2^32) ∧
      (offset.toNat < fs.fileSize i → offset.toNat + size.toNat < 2^32 ∧
        min size.toNat (fs.fileSize i - offset.toNat) < 2^31) := by
  have hret : (sfsWrite ino offset size fs).1 = size.toInt := by rw [sfsWrite_live h]
  have hnonneg : 0 ≤ (sfsWrite ino offset size fs).1 ↔ size.toNat < 2^31 := by
    rw [hret]
    rcases toInt_cases size with ⟨hint, he⟩ | ⟨hint, he⟩ <;> omega
  have hfile : fs.fileSize i < 2^32 := (fs.inodes i).size.isLt
  constructor
  · intro hexact
    refine ⟨?_, (sfsRead_eq_iff h).mp hexact.read⟩
    intro hint
    have hwrite := hexact.write (hnonneg.mpr hint)
    rw [fileSize_write offset size h] at hwrite
    omega
  · rintro ⟨hwrite, hread⟩
    refine ⟨?_, (sfsRead_eq_iff h).mpr hread, ?_⟩
    · intro hok
      rw [fileSize_write offset size h, Nat.mod_eq_of_lt (hwrite (hnonneg.mp hok))]
    · intro hok
      have hint := hnonneg.mp hok
      exact sfsRead_write h hint (hwrite hint)

/-- A file of 100 bytes in slot 0. -/
def hundredBytes : Fs where
  superblock := ⟨sfsMagic, sfsBlockSize, 16#32, 64#32, 16#32, 63#32⟩
  inodes := fun i => if i.val = 0 then ⟨1#32, 1#32, 100#32, fun _ => 0#32, fun _ => 0#8⟩
    else ⟨0#32, 0#32, 0#32, fun _ => 0#32, fun _ => 0#8⟩
  dataBlocks := 0x80400000#64

/-- 100 bytes at offset 50. -/
theorem sizes_exact_hundred : slotOf hundredBytes 1#32 = some 0 ∧ SizesExact hundredBytes 0 1#32 50#32 100#32 := by
  have hslot : slotOf hundredBytes 1#32 = some 0 := by decide +kernel
  exact ⟨hslot, (sizes_exact_iff hslot 50#32 100#32).mpr (by decide +kernel)⟩

/-- A write of two bytes at the last offset returns 2; the file stays as it is, and none of the two
can be read. -/
theorem sizes_exact_last_offset : slotOf hundredBytes 1#32 = some 0 ∧
    (sfsWrite 1#32 0xFFFFFFFF#32 2#32 hundredBytes).1 = 2 ∧
    (sfsWrite 1#32 0xFFFFFFFF#32 2#32 hundredBytes).2.fileSize 0 = 100 ∧
    sfsRead 1#32 0xFFFFFFFF#32 2#32 (sfsWrite 1#32 0xFFFFFFFF#32 2#32 hundredBytes).2 = 0 ∧
    ¬ SizesExact hundredBytes 0 1#32 0xFFFFFFFF#32 2#32 := by
  have hret : (sfsWrite 1#32 0xFFFFFFFF#32 2#32 hundredBytes).1 = 2 := by decide +kernel
  have hread : sfsRead 1#32 0xFFFFFFFF#32 2#32 (sfsWrite 1#32 0xFFFFFFFF#32 2#32 hundredBytes).2 = 0 := by
    decide +kernel
  refine ⟨by decide +kernel, hret, by decide +kernel, hread, ?_⟩
  intro h
  have hback := h.readBack (by rw [hret]; decide)
  rw [hread] at hback
  exact absurd hback (by decide)

end RiscvOs.SimpleFs
