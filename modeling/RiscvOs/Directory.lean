import RiscvOs.SimpleFs
import RiscvOs.SlotMaps
import RiscvOs.Runs
set_option autoImplicit false

/-!
The inode table as a directory: a finite map from names to what is known about a file. The
names are read off the slots in use, so whatever a deleted file has left in its slot is not
seen.
-/

namespace RiscvOs.SimpleFs
open WordMemory PageAlloc CStrings SlotMaps Runs

structure FileEntry where
  ino : U32
  type : U32
  size : U32
  deriving DecidableEq

abbrev Dir := FinMap (List Byte) FileEntry

def Unused (d : Dir) (ino : Nat) : Prop := ∀ t ∈ d.keys, (d.value t).ino ≠ BitVec.ofNat 32 ino

structure SmallestUnused (d : Dir) (ino : Nat) : Prop where
  range : 1 ≤ ino ∧ ino ≤ 64
  unused : Unused d ino
  least : ∀ k, 1 ≤ k → k < ino → ¬ Unused d k

/-- The entry that an inode stands for, when it is in use. -/
def slotEntry (x : Inode) : Option (List Byte × FileEntry) :=
  if x.ino = 0#32 then none else some (text sfsMaxFilename x.name, ⟨x.ino, x.type, x.size⟩)

def Fs.slots (fs : Fs) (i : Fin 64) : Option (List Byte × FileEntry) := slotEntry (fs.inodes i)

/-- What may stand in slot `i`. -/
structure SlotOk (i : Fin 64) (x : Inode) : Prop where
  ino : x.ino = 0#32 ∨ x.ino = inoOf i
  name : x.ino ≠ 0#32 → ∃ t, Spells x.name t ∧ t.length ≤ 27
  blocks : x.ino ≠ 0#32 → ∀ j, x.blocks j = 0#32

/-- The slots in use are the entries of the directory `d`, each once; `n` is the number of
blocks that the file system was formatted with. -/
structure Represents (n : U32) (fs : Fs) (d : Dir) : Prop where
  slot : ∀ i, SlotOk i (fs.inodes i)
  lists : Lists fs.slots d
  freeInodes : fs.superblock.numFreeInodes.toNat + d.keys.card = 64
  freeBlocks : fs.superblock.numFreeBlocks = n

section Numbers

theorem inoOf_toNat (i : Fin 64) : (inoOf i).toNat = i.val + 1 := by
  have hi := i.isLt
  rw [inoOf, BitVec.toNat_ofNat]
  omega

theorem inoOf_ne_zero (i : Fin 64) : inoOf i ≠ 0#32 := by
  intro h
  have hn := congrArg BitVec.toNat h
  rw [inoOf_toNat, BitVec.toNat_ofNat] at hn
  omega

theorem inoOf_inj {i j : Fin 64} (h : inoOf i = inoOf j) : i = j := by
  have hn := congrArg BitVec.toNat h
  rw [inoOf_toNat, inoOf_toNat] at hn
  omega

theorem inoOf_toInt (i : Fin 64) : (inoOf i).toInt = ((i.val + 1 : Nat) : Int) := by
  have hi := i.isLt
  rw [BitVec.toInt_eq_toNat_of_lt, inoOf_toNat]
  rw [inoOf_toNat]
  omega

end Numbers

section Slots

variable {x : Inode} {i : Fin 64} {fs : Fs} {t : List Byte} {e : FileEntry}

theorem slotEntry_none : slotEntry x = none ↔ x.ino = 0#32 := by
  unfold slotEntry
  split <;> simp [*]

theorem slotEntry_live (hx : x.ino ≠ 0#32) :
    slotEntry x = some (text sfsMaxFilename x.name, ⟨x.ino, x.type, x.size⟩) := if_neg hx

theorem slotEntry_resize (hx : x.ino ≠ 0#32) (z : U32) :
    slotEntry { x with size := z } = some (text sfsMaxFilename x.name, ⟨x.ino, x.type, z⟩) := if_neg hx

theorem slotEntry_some (h : slotEntry x = some (t, e)) :
    x.ino ≠ 0#32 ∧ text sfsMaxFilename x.name = t ∧ e = ⟨x.ino, x.type, x.size⟩ := by
  have hx : x.ino ≠ 0#32 := by
    intro hz
    rw [slotEntry_none.mpr hz] at h
    cases h
  rw [slotEntry_live hx] at h
  cases h
  exact ⟨hx, rfl, rfl⟩

theorem SlotOk.spells (hx : SlotOk i x) (hlive : x.ino ≠ 0#32) :
    Spells x.name (text sfsMaxFilename x.name) ∧ (text sfsMaxFilename x.name).length < sfsMaxFilename := by
  obtain ⟨t, ht, hlen⟩ := hx.name hlive
  have hlt : t.length < sfsMaxFilename := Nat.lt_succ_of_le hlen
  rw [ht.text_eq hlt]
  exact ⟨ht, hlt⟩

theorem SlotOk.free (hino : x.ino = 0#32) : SlotOk i x where
  ino := .inl hino
  name h := absurd hino h
  blocks h := absurd hino h

theorem slots_setInode : (fs.setInode i x).slots = Function.update fs.slots i (slotEntry x) := by
  funext j
  by_cases hj : j = i
  · subst hj
    simp [Fs.slots, Fs.setInode]
  · simp [Fs.slots, Fs.setInode, hj]

end Slots

section Find

variable {n : U32} {fs : Fs} {d : Dir} {name : Nat → Byte} {t : List Byte} {i : Fin 64}

theorem find_finRange {k : Nat} {p : Fin k → Bool} {i : Fin k}
    (h : (List.finRange k).find? p = some i) : p i = true ∧ ∀ j < i, p j = false := by
  obtain ⟨hi, m, hm, he, hbefore⟩ := List.find?_eq_some_iff_getElem.mp h
  rw [List.getElem_finRange] at he
  refine ⟨hi, ?_⟩
  intro j hj
  have hjm : j.val < m := by
    rw [← he] at hj
    simpa [Fin.lt_def] using hj
  simpa using hbefore j.val hjm

/-- The number in a slot in use. -/
theorem Represents.ino (h : Represents n fs d) {e : FileEntry} (hi : fs.slots i = some (t, e)) :
    (d.value t).ino = inoOf i := by
  obtain ⟨hlive, _, rfl⟩ := slotEntry_some hi
  rw [h.lists.value i t _ hi]
  exact (h.slot i).ino.resolve_left hlive

theorem findFree_none (h : Represents n fs d) : findFree fs = none ↔ d.keys.card = 64 := by
  rw [h.lists.full_iff, findFree, List.find?_eq_none]
  constructor
  · intro hall i
    have hi := hall i (List.mem_finRange i)
    rw [Option.isSome_iff_ne_none, Ne, Fs.slots, slotEntry_none]
    simpa using hi
  · intro hall i _
    have hi := hall i
    rw [Option.isSome_iff_ne_none, Ne, Fs.slots, slotEntry_none] at hi
    simpa using hi

/-- The free slot that `sfs_create` takes has the smallest number. -/
theorem findFree_some (h : Represents n fs d) (hi : findFree fs = some i) :
    fs.slots i = none ∧ SmallestUnused d (i.val + 1) := by
  obtain ⟨hfree, hbefore⟩ := find_finRange hi
  have hnone : fs.slots i = none := slotEntry_none.mpr (by simpa using hfree)
  have hlt := i.isLt
  refine ⟨hnone, by omega, ?_, ?_⟩
  · intro t ht he
    obtain ⟨j, e, hj⟩ := (h.lists.keys t).mp ht
    have hji : j = i := inoOf_inj ((h.ino hj).symm.trans he)
    rw [hji, hnone] at hj
    cases hj
  · intro k hk hki hunused
    have hklt : k - 1 < 64 := by omega
    have hlive : (fs.inodes ⟨k - 1, hklt⟩).ino ≠ 0#32 := by
      have hlt : (⟨k - 1, hklt⟩ : Fin 64) < i := by
        rw [Fin.lt_def]
        show k - 1 < i.val
        omega
      simpa using hbefore _ hlt
    have hj : fs.slots ⟨k - 1, hklt⟩ = some _ := slotEntry_live hlive
    apply hunused _ ((h.lists.keys _).mpr ⟨_, _, hj⟩)
    rw [h.ino hj, inoOf]
    show BitVec.ofNat 32 (k - 1 + 1) = _
    rw [Nat.sub_add_cancel hk]

theorem sameName_live (h : Represents n fs d) (hi : (fs.inodes i).ino ≠ 0#32) (ht : Spells name t) :
    sameName sfsMaxFilename (fs.inodes i).name name = true ↔ text sfsMaxFilename (fs.inodes i).name = t := by
  obtain ⟨hs, hlen⟩ := (h.slot i).spells hi
  exact hs.sameName_iff ht hlen

theorem findInode_some (h : Represents n fs d) (ht : Spells name t) (hi : findInode fs name = some i) :
    ∃ e, fs.slots i = some (t, e) := by
  have hmatch := (find_finRange hi).1
  simp only [Bool.and_eq_true, decide_eq_true_eq] at hmatch
  rw [Fs.slots, slotEntry_live hmatch.1, (sameName_live h hmatch.1 ht).mp hmatch.2]
  exact ⟨_, rfl⟩

theorem findInode_none (h : Represents n fs d) (ht : Spells name t) :
    findInode fs name = none ↔ t ∉ d.keys := by
  constructor
  · intro hn hmem
    obtain ⟨i, e, hi⟩ := (h.lists.keys t).mp hmem
    obtain ⟨hlive, hname, _⟩ := slotEntry_some hi
    have hno := List.find?_eq_none.mp hn i (List.mem_finRange i)
    exact hno (by simp [(sameName_live h hlive ht).mpr hname, hlive])
  · intro hmem
    cases hf : findInode fs name with
    | none => rfl
    | some i =>
      obtain ⟨e, hi⟩ := findInode_some h ht hf
      exact absurd ((h.lists.keys t).mpr ⟨i, e, hi⟩) hmem

end Find

section Operations

variable {n : U32} {fs : Fs} {d : Dir} {name : Nat → Byte} {t : List Byte} {type ino : U32} {i : Fin 64}

/-- Another inode in slot `i`, with the counters that go with it. -/
theorem Represents.store (h : Represents n fs d) {x : Inode} {sb : Superblock} {d' : Dir}
    (hx : SlotOk i x) (hl : Lists (Function.update fs.slots i (slotEntry x)) d')
    (hfree : sb.numFreeInodes.toNat + d'.keys.card = 64) (hblocks : sb.numFreeBlocks = n) :
    Represents n { fs.setInode i x with superblock := sb } d' where
  slot := by
    intro j
    by_cases hj : j = i
    · subst hj
      simpa [Fs.setInode] using hx
    · simpa [Fs.setInode, hj] using h.slot j
  lists := by
    rw [← slots_setInode] at hl
    exact hl
  freeInodes := hfree
  freeBlocks := hblocks

/-- The inode holds the name, cut off after 27 characters. -/
theorem newInode_spells (old : Inode) (ht : Spells name t) :
    Spells (newInode old i name type).name (t.take 27) := by
  have hcopy := copyName_spells name old.name (j := 0) 27 (by simpa only [Nat.zero_add] using ht)
  simp only [Nat.zero_add] at hcopy
  exact hcopy

theorem newInode_ok (old : Inode) (ht : Spells name t) : SlotOk i (newInode old i name type) where
  ino := .inr rfl
  name _ := ⟨t.take 27, newInode_spells old ht, List.length_take_le ..⟩
  blocks _ _ := rfl

theorem newInode_entry (old : Inode) (ht : Spells name t) :
    slotEntry (newInode old i name type) = some (t.take 27, ⟨inoOf i, type, 0#32⟩) := by
  have hlt : (t.take 27).length < sfsMaxFilename := Nat.lt_succ_of_le (List.length_take_le ..)
  rw [slotEntry_live (inoOf_ne_zero i), (newInode_spells old ht).text_eq hlt]
  rfl

/-- A file is created in the first free slot, unless its name is found or there is none. -/
theorem sfsCreate_eq (type : U32) (hfind : findInode fs name = none) (hfree : findFree fs = some i) :
    sfsCreate name type fs = ((inoOf i).toInt,
      { fs.setInode i (newInode (fs.inodes i) i name type) with superblock := { fs.superblock with
          numFreeInodes := fs.superblock.numFreeInodes - 1#32 } }) := by
  rw [sfsCreate, if_neg (not_not.mpr hfind), hfree]
  simp [Fs.setInode, newInode]

theorem sfsCreate_fails (h : Represents n fs d) (ht : Spells name t) (hd : t ∈ d.keys ∨ d.keys.card = 64) :
    sfsCreate name type fs = (-1, fs) := by
  unfold sfsCreate
  split
  · rfl
  · next hnone =>
    have hmem := (findInode_none h ht).mp (not_not.mp hnone)
    rw [(findFree_none h).mpr (hd.resolve_left hmem)]

/-- A new file takes the free slot with the smallest number. -/
theorem sfsCreate_adds (type : U32) (h : Represents n fs d) (ht : Spells name t) (hlen : t.length ≤ 27)
    (hnew : t ∉ d.keys) (hcard : d.keys.card ≠ 64) :
    ∃ k : Nat, SmallestUnused d k ∧ (sfsCreate name type fs).1 = k ∧
      Represents n (sfsCreate name type fs).2 (d.insert t ⟨BitVec.ofNat 32 k, type, 0#32⟩) := by
  obtain ⟨i, hi⟩ := Option.ne_none_iff_exists'.mp (mt (findFree_none h).mp hcard)
  obtain ⟨hfree, hleast⟩ := findFree_some h hi
  rw [sfsCreate_eq type ((findInode_none h ht).mpr hnew) hi]
  refine ⟨i.val + 1, hleast, inoOf_toInt i, h.store (newInode_ok _ ht) ?_ ?_ h.freeBlocks⟩
  · rw [newInode_entry _ ht, List.take_of_length_le hlen]
    exact h.lists.insert hfree hnew _
  · have hold := h.freeInodes
    have hle := h.lists.card_le
    simp only [FinMap.insert, Finset.card_insert_of_notMem hnew, BitVec.toNat_sub, BitVec.toNat_ofNat]
    omega

theorem freeBlocks_zero {blocks : Fin 12 → U32} (h : ∀ j, blocks j = 0#32) (free : U32) :
    freeBlocks blocks free = free := by
  unfold freeBlocks
  generalize List.finRange 12 = js
  induction js with
  | nil => rfl
  | cons j js ih => simpa [h j] using ih

theorem sfsDelete_absent (h : Represents n fs d) (ht : Spells name t) (hd : t ∉ d.keys) :
    sfsDelete name fs = (-1, fs) := by
  rw [sfsDelete, (findInode_none h ht).mpr hd]

theorem sfsDelete_removes (h : Represents n fs d) (ht : Spells name t) (hd : t ∈ d.keys) :
    (sfsDelete name fs).1 = 0 ∧ Represents n (sfsDelete name fs).2 (d.erase t) := by
  have hfound : findInode fs name ≠ none := by
    rw [Ne, findInode_none h ht, not_not]
    exact hd
  obtain ⟨i, hi⟩ := Option.ne_none_iff_exists'.mp hfound
  obtain ⟨e, hslot⟩ := findInode_some h ht hi
  have hlive := (slotEntry_some hslot).1
  simp only [sfsDelete, hi, freeBlocks_zero ((h.slot i).blocks hlive), true_and]
  refine h.store (SlotOk.free rfl) ?_ ?_ h.freeBlocks
  · rw [slotEntry_none.mpr rfl]
    exact h.lists.erase hslot
  · have hold := h.freeInodes
    have hpos : 0 < d.keys.card := Finset.card_pos.mpr ⟨t, hd⟩
    simp only [FinMap.erase, Finset.card_erase_of_mem hd, BitVec.toNat_add, BitVec.toNat_ofNat]
    omega

theorem slotOf_some (h : slotOf fs ino = some i) : ino ≠ 0#32 ∧ (fs.inodes i).ino = ino := by
  unfold slotOf at h
  split at h
  · cases h
  · next hrange =>
    dsimp only at h
    split at h
    · cases h
    · next hino =>
      cases h
      exact ⟨fun hz => hrange (.inl hz), not_not.mp hino⟩

/-- `sfs_write` gives the file with the number `ino` another size, or does nothing. -/
theorem sfsWrite_resizes (offset size : U32) (h : Represents n fs d) :
    (sfsWrite ino offset size fs).2 = fs ∨
      ∃ i t z, (fs.inodes i).ino = ino ∧ t ∈ d.keys ∧ (d.value t).ino = ino ∧
        (sfsWrite ino offset size fs).2 = fs.setInode i { fs.inodes i with size := z } ∧
        Represents n (sfsWrite ino offset size fs).2 (d.set t { d.value t with size := z }) := by
  unfold sfsWrite
  cases hslot : slotOf fs ino with
  | none => exact .inl rfl
  | some i =>
    obtain ⟨hne, hino⟩ := slotOf_some hslot
    have hlive : (fs.inodes i).ino ≠ 0#32 := by
      rw [hino]
      exact hne
    have hi : fs.slots i = some _ := slotEntry_live hlive
    have hvalue := h.lists.value i _ _ hi
    refine .inr ⟨i, _, _, hino, (h.lists.keys _).mpr ⟨i, _, hi⟩, ?_, rfl, ?_⟩
    · rw [hvalue]
      exact hino
    · refine h.store ⟨(h.slot i).ino, (h.slot i).name, (h.slot i).blocks⟩ ?_ h.freeInodes h.freeBlocks
      rw [slotEntry_resize hlive, hvalue]
      exact h.lists.set hi _

end Operations

section Runs

inductive FsCall where
  | create (name : Nat → Byte) (type : U32)
  | delete (name : Nat → Byte)
  | read (ino offset size : U32)
  | write (ino offset size : U32)

/-- Names are C strings that fit an inode with their terminator. -/
def FsCall.Ok (_ : Fs) : FsCall → Prop
  | .create name _ | .delete name => ∃ t, Spells name t ∧ t.length ≤ 27
  | .read .. | .write .. => True

/-- What a call returns, and the file system after it. -/
def Fs.call (fs : Fs) : FsCall → Int × Fs
  | .create name type => sfsCreate name type fs
  | .delete name => sfsDelete name fs
  | .read ino offset size => (sfsRead ino offset size fs, fs)
  | .write ino offset size => sfsWrite ino offset size fs

def Fs.exec (fs : Fs) (c : FsCall) : Fs := (fs.call c).2

/-- The calls on `fs` are those of the directory `d`. -/
structure ServesDirectory (n : U32) (fs : Fs) (d : Dir) : Prop where
  represents : Represents n fs d
  entries : d.keys.card ≤ 64
  create : ∀ name type t, Spells name t → t.length ≤ 27 →
    (sfsCreate name type fs = (-1, fs) ↔ t ∈ d.keys ∨ d.keys.card = 64) ∧
    (¬ (t ∈ d.keys ∨ d.keys.card = 64) →
      ∃ k : Nat, SmallestUnused d k ∧ (sfsCreate name type fs).1 = k ∧
        Represents n (sfsCreate name type fs).2 (d.insert t ⟨BitVec.ofNat 32 k, type, 0#32⟩))
  delete : ∀ name t, Spells name t → t.length ≤ 27 →
    (t ∈ d.keys → (sfsDelete name fs).1 = 0 ∧ Represents n (sfsDelete name fs).2 (d.erase t)) ∧
    (t ∉ d.keys → sfsDelete name fs = (-1, fs))
  read : ∀ ino offset size, (fs.call (.read ino offset size)).2 = fs
  write : ∀ ino offset size, (sfsWrite ino offset size fs).2 = fs ∨
    ∃ i t z, (fs.inodes i).ino = ino ∧ t ∈ d.keys ∧ (d.value t).ino = ino ∧
      (sfsWrite ino offset size fs).2 = fs.setInode i { fs.inodes i with size := z } ∧
      Represents n (sfsWrite ino offset size fs).2 (d.set t { d.value t with size := z })

variable {n : U32} {fs fs' : Fs} {d : Dir}

theorem Represents.serves (h : Represents n fs d) : ServesDirectory n fs d where
  represents := h
  entries := h.lists.card_le
  create := by
    intro name type t ht hlen
    have hadds (hd : ¬ (t ∈ d.keys ∨ d.keys.card = 64)) :=
      sfsCreate_adds type h ht hlen (fun hm => hd (.inl hm)) fun hc => hd (.inr hc)
    refine ⟨⟨?_, sfsCreate_fails h ht⟩, hadds⟩
    intro hfail
    by_contra hd
    obtain ⟨k, _, hk, _⟩ := hadds hd
    rw [hfail] at hk
    omega
  delete := by
    intro name t ht _
    exact ⟨sfsDelete_removes h ht, sfsDelete_absent h ht⟩
  read _ _ _ := rfl
  write _ _ _ := sfsWrite_resizes _ _ h

theorem Represents.exec (h : Represents n fs d) (c : FsCall) (hok : c.Ok fs) :
    ∃ d', Represents n (fs.exec c) d' := by
  cases c with
  | create name type =>
    obtain ⟨t, ht, hlen⟩ := hok
    by_cases hd : t ∈ d.keys ∨ d.keys.card = 64
    · exact ⟨d, by rwa [Fs.exec, Fs.call, sfsCreate_fails h ht hd]⟩
    · obtain ⟨k, _, _, hrep⟩ := (h.serves.create name type t ht hlen).2 hd
      exact ⟨_, hrep⟩
  | delete name =>
    obtain ⟨t, ht, hlen⟩ := hok
    by_cases hd : t ∈ d.keys
    · exact ⟨_, (sfsDelete_removes h ht hd).2⟩
    · exact ⟨d, by rwa [Fs.exec, Fs.call, sfsDelete_absent h ht hd]⟩
  | read ino offset size => exact ⟨d, h⟩
  | write ino offset size =>
    rcases sfsWrite_resizes offset size h with hsame | ⟨i, t, z, _, _, _, _, hrep⟩
    · exact ⟨d, by rwa [Fs.exec, Fs.call, hsame]⟩
    · exact ⟨_, hrep⟩

/-- A file system just formatted is an empty directory. -/
theorem format_represents (l : Layout) (fs : Fs) (mm : Mm) :
    Represents n (sfsFormat l n (sfsInit fs) mm).2.1 (FinMap.empty fun _ => ⟨0#32, 0#32, 0#32⟩) where
  slot _ := SlotOk.free rfl
  lists := by
    have hnone : (sfsFormat l n (sfsInit fs) mm).2.1.slots = fun _ => none := by
      funext i
      exact slotEntry_none.mpr rfl
    rw [hnone]
    exact Lists.empty _
  freeInodes := rfl
  freeBlocks := rfl

/-- Every file system that has been formatted and used serves a directory. -/
theorem simplefs_refines_directory (l : Layout) (fs₀ : Fs) (mm mm' : Mm) (calls : List FsCall)
    (hformat : sfsFormat l n (sfsInit fs₀) mm = (0, fs, mm'))
    (hrun : Run (guarded FsCall.Ok Fs.exec) fs calls fs') : ∃ d, ServesDirectory n fs' d := by
  have hstart := format_represents (n := n) l fs₀ mm
  rw [hformat] at hstart
  have hinv : ∃ d, Represents n fs' d := by
    refine hrun.guarded_invariant (fun fs => ∃ d, Represents n fs d) ?_ ⟨_, hstart⟩
    rintro fs c ⟨d, hd⟩ hok
    exact hd.exec c hok
  obtain ⟨d, hd⟩ := hinv
  exact ⟨d, hd.serves⟩

/-- In a table of stale bytes, a file `a` is written and deleted and a file `b` takes its slot. -/
theorem simplefs_refines_directory_reuse :
    let l : Layout := ⟨0x80200000#64, 0x80300000#64⟩
    let mm : Mm := ⟨fun _ => 0#64, 0#64, 0#64, 0x80200000#64⟩
    let junk : Inode := ⟨7#32, 7#32, 7#32, fun _ => 7#32, fun _ => 7#8⟩
    let r := sfsFormat l 16#32 (sfsInit ⟨⟨0#32, 0#32, 0#32, 0#32, 0#32, 0#32⟩, fun _ => junk, 0#64⟩) mm
    let name (c : Char) (i : Nat) : Byte := if i = 0 then byte c else 0#8
    let calls := [.create (name 'a') 1#32, .write 1#32 0#32 5#32, .delete (name 'a'), .create (name 'b') 1#32]
    ∃ d, ServesDirectory 16#32 (calls.foldl Fs.exec r.2.1) d := by
  intro l mm junk r name calls
  have hformat : r = (0, r.2.1, r.2.2) := by
    have hr : r.1 = 0 := by decide
    rw [← hr]
  have hname (c : Char) (hc : byte c ≠ 0#8) : ∃ t, Spells (name c) t ∧ t.length ≤ 27 :=
    ⟨[byte c], ⟨rfl, hc, rfl⟩, by simp⟩
  refine simplefs_refines_directory l _ mm r.2.2 calls hformat (run_guarded_iff.mpr ⟨?_, rfl⟩)
  exact ⟨hname 'a' (by decide), trivial, hname 'a' (by decide), hname 'b' (by decide), trivial⟩

end Runs

end RiscvOs.SimpleFs
