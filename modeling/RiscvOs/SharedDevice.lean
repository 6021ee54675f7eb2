import RiscvOs.TestDevice
import RiscvOs.SharedFiles
import RiscvOs.Vfs
set_option autoImplicit false

/-!
The test device as the VFS shows it: a byte string of at most 1024 bytes that all files opened
on `/testdev` share, each with its own offset.
-/

namespace RiscvOs.TestDevice
open WordMemory PageAlloc CStrings Runs SharedFiles VirtualFs

/-- `testdev_ops`; `testdev_open` and `testdev_close` only return 0. -/
def testdevOps : FileOps TestDev where
  openHook := some fun file dev => ⟨0#32, [], file, dev⟩
  close := some fun file dev => ⟨0#32, [], file, dev⟩
  read := some fun file count dev =>
    let r := testdevRead dev ⟨file.offset⟩ count
    ⟨r.ret, r.data, { file with offset := r.file.offset }, dev⟩
  write := some fun file buf count dev =>
    let r := testdevWrite dev ⟨file.offset⟩ buf count
    ⟨r.ret, [], { file with offset := r.file.offset }, r.dev⟩
  seek := some fun file offset dev =>
    let r := testdevSeek ⟨file.offset⟩ offset
    ⟨r.1, [], { file with offset := r.2.offset }, dev⟩

def testdevName : List Byte := [byte 't', byte 'e', byte 's', byte 't', byte 'd', byte 'e', byte 'v']

theorem testdevName_spells : Spells (cstring testdevName) testdevName := cstring_spells (by decide)

def testdevInit (dev : TestDev) : TestDev := { dev with len := 0#32 }

def testdevRegister (s : Vfs TestDev) : Int × Vfs TestDev :=
  vfsRegisterDevice (cstring testdevName) testdevOps s

/-- The VFS as `kernel_main` sets it up. -/
def boot (s : Vfs TestDev) : Vfs TestDev :=
  let s := vfsInit s
  (testdevRegister { s with dev := testdevInit s.dev }).2

/-- The VFS and the files that are open on the device. -/
structure Clients where
  vfs : Vfs TestDev
  handles : List Word

inductive ClientCall where
  | vfsOpen (path : Nat → Byte) (flags : U32)
  | vfsRead (h : Word) (count : Word)
  | vfsWrite (h : Word) (buf : Nat → Byte) (count : Word)
  | seek (h : Word) (offset : U32)
  | vfsClose (h : Word)

/-- Files are used while they are open, and no offset is set behind the data. -/
def Clients.Ok (s : Clients) : ClientCall → Prop
  | .vfsOpen path _ => Spells path (byte '/' :: testdevName)
  | .vfsRead h _ | .vfsWrite h _ _ | .vfsClose h => h ∈ s.handles
  | .seek h offset => h ∈ s.handles ∧ offset.toNat ≤ s.vfs.dev.len.toNat

def Clients.exec (l : Layout) (s : Clients) : ClientCall → Clients
  | .vfsOpen path flags =>
    let r := VirtualFs.vfsOpen l path flags s.vfs
    ⟨r.2, if r.1 = 0#64 then s.handles else r.1 :: s.handles⟩
  | .vfsRead h count => { s with vfs := (VirtualFs.vfsRead h count s.vfs).2.2 }
  | .vfsWrite h buf count => { s with vfs := (VirtualFs.vfsWrite h buf count s.vfs).2 }
  | .seek h offset => { s with vfs := (fileSeek h offset s.vfs).2 }
  | .vfsClose h => ⟨(VirtualFs.vfsClose h s.vfs).2, s.handles.filter (· ≠ h)⟩

def contents (dev : TestDev) : List Byte := (List.range dev.len.toNat).map dev.buffer

/-- The shared file that the device is. -/
def Clients.view (s : Clients) : SharedFile Byte Word :=
  ⟨contents s.vfs.dev, fun h => if h ∈ s.handles then some (s.vfs.files h).offset.toNat else none⟩

section Device

variable {dev : TestDev} {count : Word}

theorem contents_length : (contents dev).length = dev.len.toNat := by simp [contents]

theorem contents_getElem? (i : Nat) :
    (contents dev)[i]? = if i < dev.len.toNat then some (dev.buffer i) else none := by
  rw [contents, List.getElem?_map]
  split
  · next hi => rw [List.getElem?_range hi, Option.map_some]
  · next hi => rw [List.getElem?_eq_none (by simpa using hi), Option.map_none]

theorem span_map (offset : BitVec 32) (n : Word) (hn : offset.toNat + n.toNat ≤ dev.len.toNat) :
    (span offset n).map dev.buffer = ((contents dev).drop offset.toNat).take n.toNat := by
  refine List.ext_getElem? fun i => ?_
  rw [span, List.map_map, List.getElem?_map, List.getElem?_take]
  split
  · next hi =>
    rw [List.getElem?_range hi, List.getElem?_drop, contents_getElem?, if_pos (by omega)]
    rfl
  · next hi => rw [List.getElem?_eq_none (by simpa using hi), Option.map_none]

theorem count_toInt {n : Word} (hn : n.toNat ≤ 1024) : (n.setWidth 32).toInt = n.toNat := by
  have hnat : (n.setWidth 32).toNat = n.toNat := by
    rw [BitVec.toNat_setWidth]
    omega
  rw [BitVec.toInt_eq_toNat_of_lt, hnat]
  omega

/-- A read within the data. -/
theorem testdevRead_spec (file : File) (count : Word) (hoff : file.offset.toNat ≤ dev.len.toNat)
    (hlen : dev.len.toNat ≤ testdevSize) :
    let r := testdevRead dev file count
    let xs := ((contents dev).drop file.offset.toNat).take count.toNat
    r.data = xs ∧ r.ret.toInt = xs.length ∧ r.file.offset.toNat = file.offset.toNat + xs.length := by
  intro r xs
  have hxs : xs.length = min count.toNat (dev.len.toNat - file.offset.toNat) := by
    rw [List.length_take, List.length_drop, contents_length]
  have hsub : (dev.len - file.offset).toNat = dev.len.toNat - file.offset.toNat := BitVec.toNat_sub_of_le hoff
  simp only [testdevSize] at hlen
  by_cases hz : dev.len - file.offset = 0#32
  · have hr : r = ⟨0#32, [], file, []⟩ := if_pos hz
    rw [hz] at hsub
    have hnil : xs = [] := List.eq_nil_of_length_eq_zero (by simp at hsub; omega)
    rw [hr, hnil]
    exact ⟨rfl, rfl, rfl⟩
  · have hn := clamp_toNat (dev.len - file.offset) count
    rw [hsub] at hn
    have hr : r = _ := if_neg hz
    rw [hr]
    -- the number of bytes that the loop copies
    generalize (if count > (dev.len - file.offset).setWidth 64 then (dev.len - file.offset).setWidth 64
      else count) = n at hn
    refine ⟨?_, ?_, ?_⟩
    · show (span file.offset n).map dev.buffer = xs
      rw [span_map _ _ (by omega), hn, List.take_eq_take_iff, List.length_drop, contents_length]
      omega
    · show (n.setWidth 32).toInt = _
      rw [count_toInt (by omega), hn, hxs]
    · show ((file.offset.setWidth 64 + n).setWidth 32).toNat = _
      rw [advance_toNat]
      omega

theorem copyIn_apply (buffer buf : Nat → Byte) (offset n i : Nat) : copyIn buffer offset buf n i =
    if offset ≤ i ∧ i < offset + n then buf (i - offset) else buffer i := by
  induction n with
  | zero => rw [if_neg (by omega)]; rfl
  | succ n ih =>
    rw [copyIn]
    by_cases hi : i = offset + n
    · subst hi
      rw [Function.update_self, if_pos (by omega), Nat.add_sub_cancel_left]
    · rw [Function.update_of_ne hi, ih]
      refine if_congr ?_ rfl rfl
      omega

/-- The bytes of a buffer that a call is given. -/
def bytesOf (buf : Nat → Byte) (count : Word) : List Byte := (List.range count.toNat).map buf

theorem bytesOf_length (buf : Nat → Byte) : (bytesOf buf count).length = count.toNat := by simp [bytesOf]

theorem bytesOf_getElem? (buf : Nat → Byte) (i : Nat) :
    (bytesOf buf count)[i]? = if i < count.toNat then some (buf i) else none := by
  rw [bytesOf, List.getElem?_map]
  split
  · next hi => rw [List.getElem?_range hi, Option.map_some]
  · next hi => rw [List.getElem?_eq_none (by simpa using hi), Option.map_none]

/-- A write within the data, or right behind it. -/
theorem testdevWrite_spec (file : File) (buf : Nat → Byte) (count : Word) (f : SharedFile Byte Word)
    (hf : f.data = contents dev)
    (hoff : file.offset.toNat ≤ dev.len.toNat) (hlen : dev.len.toNat ≤ testdevSize)
    (hroom : file.offset.toNat < testdevSize) :
    let r := testdevWrite dev file buf count
    let xs := (bytesOf buf count).take (testdevSize - file.offset.toNat)
    contents r.dev = (f.put file.offset.toNat xs).data ∧ r.ret.toInt = xs.length ∧
      r.file.offset.toNat = file.offset.toNat + xs.length := by
  intro r xs
  have hxs : xs.length = min count.toNat (testdevSize - file.offset.toNat) := by
    rw [List.length_take, bytesOf_length, min_comm]
  have hsub := space_toNat (Nat.le_of_lt hroom)
  have hz : BitVec.ofNat 32 testdevSize - file.offset ≠ 0#32 := by
    intro hz
    rw [hz, BitVec.toNat_zero] at hsub
    omega
  have hn := clamp_toNat (BitVec.ofNat 32 testdevSize - file.offset) count
  rw [hsub] at hn
  simp only [r, testdevWrite, if_neg hz]
  -- the number of bytes that the loop copies
  generalize (if count > (BitVec.ofNat 32 testdevSize - file.offset).setWidth 64 then
    (BitVec.ofNat 32 testdevSize - file.offset).setWidth 64 else count) = n at hn ⊢
  have hnew : ((file.offset.setWidth 64 + n).setWidth 32).toNat = file.offset.toNat + xs.length := by
    rw [advance_toNat]
    simp only [testdevSize] at *
    omega
  refine ⟨?_, ?_, hnew⟩
  · refine List.ext_getElem? fun i => ?_
    have hlast : (if (file.offset.setWidth 64 + n).setWidth 32 > dev.len then
        (file.offset.setWidth 64 + n).setWidth 32 else dev.len).toNat =
        max dev.len.toNat (file.offset.toNat + xs.length) := by
      split <;> rename_i hlt <;> rw [gt_iff_lt, BitVec.lt_def, hnew] at hlt <;> omega
    rw [put_getElem? (by rw [hf, contents_length]; exact hoff), hf, contents_getElem?, contents_getElem?]
    simp only [hlast, copyIn_apply, hn, ← hxs]
    by_cases hin : file.offset.toNat ≤ i ∧ i < file.offset.toNat + xs.length
    · rw [if_pos hin, if_pos hin, if_pos (by omega), List.getElem?_take_of_lt (by omega), bytesOf_getElem?,
        if_pos (by omega)]
    · rw [if_neg hin, if_neg hin]
      refine if_congr ?_ rfl rfl
      omega
  · simp only [testdevSize] at *
    rw [count_toInt (by omega), hn, hxs]

end Device

section Clients

variable {l : Layout} {s : Clients} {h : Word}

/-- What holds in every run: the device is found under its name, the files are on the heap and
belong to the device, and no offset is behind the data. -/
structure Served (l : Layout) (s : Clients) : Prop where
  device : ∃ i, (s.vfs.devices i).ops = testdevOps ∧
    ∀ name, Spells name testdevName → findDevice s.vfs name = some i
  heap : l.heapStart.toNat ≤ s.vfs.mm.heapCurrent.toNat ∧ s.vfs.mm.heapCurrent.toNat ≤ l.heapEnd.toNat
  file : ∀ h ∈ s.handles, h ≠ 0#64 ∧ h.toNat < s.vfs.mm.heapCurrent.toNat
  inode : ∀ h ∈ s.handles, (s.vfs.files h).inode.toNat < s.vfs.mm.heapCurrent.toNat ∧
    (s.vfs.inodes (s.vfs.files h).inode).ops = some testdevOps
  len : s.vfs.dev.len.toNat ≤ testdevSize
  offset : ∀ h ∈ s.handles, (s.vfs.files h).offset.toNat ≤ s.vfs.dev.len.toNat

/-- The state after a call on the file `h`. -/
def Clients.after (s : Clients) (h : Word) (dev : TestDev) (offset : U32) : Clients :=
  { s with vfs := { s.vfs with dev := dev }.setFile h { s.vfs.files h with offset := offset } }

section Calls

variable (hs : Served l s) (hh : h ∈ s.handles)
include hs hh

theorem Served.vfsRead_eq (count : Word) : VirtualFs.vfsRead h count s.vfs =
    let r := testdevRead s.vfs.dev ⟨(s.vfs.files h).offset⟩ count
    (r.ret, r.data, (s.after h s.vfs.dev r.file.offset).vfs) := by
  rw [VirtualFs.vfsRead, if_neg (hs.file h hh).1, (hs.inode h hh).2]
  rfl

theorem Served.vfsWrite_eq (buf : Nat → Byte) (count : Word) : VirtualFs.vfsWrite h buf count s.vfs =
    let r := testdevWrite s.vfs.dev ⟨(s.vfs.files h).offset⟩ buf count
    (r.ret, (s.after h r.dev r.file.offset).vfs) := by
  rw [VirtualFs.vfsWrite, if_neg (hs.file h hh).1, (hs.inode h hh).2]
  simp only [Option.bind_some, testdevOps, Vfs.apply, Clients.after]

theorem Served.fileSeek_eq (offset : U32) : fileSeek h offset s.vfs =
    let r := testdevSeek ⟨(s.vfs.files h).offset⟩ offset
    (r.1, (s.after h s.vfs.dev r.2.offset).vfs) := by
  rw [fileSeek, (hs.inode h hh).2]
  rfl

theorem Served.after {dev : TestDev} {offset : U32} (hlen : s.vfs.dev.len.toNat ≤ dev.len.toNat)
    (hsize : dev.len.toNat ≤ testdevSize) (hoff : offset.toNat ≤ dev.len.toNat) :
    Served l (s.after h dev offset) := by
  have hfiles (k : Word) : (s.after h dev offset).vfs.files k =
      if k = h then { s.vfs.files h with offset := offset } else s.vfs.files k := Function.update_apply ..
  refine ⟨hs.device, hs.heap, hs.file, ?_, hsize, ?_⟩
  · intro k hk
    rw [hfiles]
    split
    · exact hs.inode h hh
    · exact hs.inode k hk
  · intro k hk
    rw [hfiles]
    split
    · exact hoff
    · exact Nat.le_trans (hs.offset k hk) hlen

omit hs in
theorem view_after (dev : TestDev) (offset : U32) : (s.after h dev offset).view =
    { s.view with data := contents dev }.moveTo h offset.toNat := by
  have hfiles (k : Word) : (s.after h dev offset).vfs.files k =
      if k = h then { s.vfs.files h with offset := offset } else s.vfs.files k := Function.update_apply ..
  simp only [Clients.view, SharedFile.moveTo, SharedFile.mk.injEq]
  refine ⟨rfl, ?_⟩
  funext k
  rw [Function.update_apply, hfiles]
  by_cases hk : k = h
  · rw [if_pos hk, if_pos hk, hk]
    exact if_pos hh
  · rw [if_neg hk, if_neg hk]
    rfl

end Calls

/-- The heap grows, and what is on it stays. -/
structure Grown (l : Layout) (v w : Vfs TestDev) : Prop where
  devices : w.devices = v.devices
  dev : w.dev = v.dev
  cur : v.mm.heapCurrent.toNat ≤ w.mm.heapCurrent.toNat
  stop : w.mm.heapCurrent.toNat ≤ l.heapEnd.toNat
  files : ∀ p : Word, p.toNat < v.mm.heapCurrent.toNat → w.files p = v.files p
  inodes : ∀ p : Word, p.toNat < v.mm.heapCurrent.toNat → (w.inodes p).ops = (v.inodes p).ops

theorem Served.grow (hs : Served l s) {v : Vfs TestDev} (hv : Grown l s.vfs v) :
    Served l ⟨v, s.handles⟩ ∧ Clients.view ⟨v, s.handles⟩ = s.view := by
  have hfiles (h : Word) (hh : h ∈ s.handles) : v.files h = s.vfs.files h := hv.files h (hs.file h hh).2
  refine ⟨⟨?_, ⟨Nat.le_trans hs.heap.1 hv.cur, hv.stop⟩, ?_, ?_, ?_, ?_⟩, ?_⟩
  · obtain ⟨i, hops, hfind⟩ := hs.device
    refine ⟨i, ?_, fun name hname => ?_⟩
    · rw [hv.devices]
      exact hops
    · rw [← hfind name hname, findDevice, findDevice, hv.devices]
  · intro h hh
    exact ⟨(hs.file h hh).1, Nat.lt_of_lt_of_le (hs.file h hh).2 hv.cur⟩
  · intro h hh
    obtain ⟨hp, hops⟩ := hs.inode h hh
    rw [hfiles h hh, hv.inodes _ hp]
    exact ⟨Nat.lt_of_lt_of_le hp hv.cur, hops⟩
  · rw [hv.dev]
    exact hs.len
  · intro h hh
    rw [hv.dev, hfiles h hh]
    exact hs.offset h hh
  · simp only [Clients.view, hv.dev, SharedFile.mk.injEq, true_and]
    funext h
    split
    · next hh => rw [hfiles h hh]
    · rfl

/-- A file that was just made joins the open ones. -/
theorem Served.add (hs : Served l s) {p : Word} (hne : p ≠ 0#64)
    (hp : p.toNat < s.vfs.mm.heapCurrent.toNat)
    (hinode : (s.vfs.files p).inode.toNat < s.vfs.mm.heapCurrent.toNat)
    (hops : (s.vfs.inodes (s.vfs.files p).inode).ops = some testdevOps)
    (hoff : (s.vfs.files p).offset = 0#32) :
    Served l ⟨s.vfs, p :: s.handles⟩ ∧ Clients.view ⟨s.vfs, p :: s.handles⟩ = s.view.moveTo p 0 := by
  refine ⟨⟨hs.device, hs.heap, ?_, ?_, hs.len, ?_⟩, ?_⟩
  · exact List.forall_mem_cons.mpr ⟨⟨hne, hp⟩, hs.file⟩
  · exact List.forall_mem_cons.mpr ⟨⟨hinode, hops⟩, hs.inode⟩
  · refine List.forall_mem_cons.mpr ⟨?_, hs.offset⟩
    rw [hoff]
    exact Nat.zero_le _
  · simp only [Clients.view, SharedFile.moveTo, SharedFile.mk.injEq, true_and]
    funext k
    rw [Function.update_apply]
    by_cases hk : k = p
    · rw [if_pos hk, hk, if_pos List.mem_cons_self, hoff]
      rfl
    · rw [if_neg hk]
      simp only [List.mem_cons, hk, false_or]

section Open

variable {mm : Mm}

/-- `kmalloc` fails, or returns the old end of the heap and moves it up. -/
theorem kmalloc_grows (hl : l.Linked) (size : Word) (hsize : size.toNat < 2^32)
    (hstart : l.heapStart.toNat ≤ mm.heapCurrent.toNat) (hend : mm.heapCurrent.toNat ≤ l.heapEnd.toNat) :
    kmalloc l size mm = (0#64, mm) ∨
      ∃ cur, kmalloc l size mm = (mm.heapCurrent, { mm with heapCurrent := cur }) ∧ mm.heapCurrent ≠ 0#64 ∧
        mm.heapCurrent.toNat < cur.toNat ∧ cur.toNat ≤ l.heapEnd.toNat := by
  rcases kmalloc_case hsize hend hl.ram with he | ⟨cur, he, hne, hcur, hle⟩
  · exact .inl he
  · refine .inr ⟨cur, he, ?_, by omega, hle⟩
    intro hz
    have hk := hl.kernel
    rw [hz, BitVec.toNat_zero] at hstart
    omega

theorem skipSlash_spells {path : Nat → Byte} {t : List Byte} (hpath : Spells path (byte '/' :: t)) :
    Spells (skipSlash path) t := by
  rw [skipSlash, if_pos hpath.1]
  exact hpath.2.2

/-- `testdev_open` changes nothing. -/
theorem openDevice_eq (p : Word) (v : Vfs TestDev) : openDevice p testdevOps v = (p, v) := by
  have hself : v.setFile p (v.files p) = v := by
    rw [Vfs.setFile, Function.update_eq_self]
  exact congrArg (Prod.mk p) hself

/-- The inode of a new file, once the heap has room for it. -/
theorem vfsCreateInode_case (hl : l.Linked) {v : Vfs TestDev} (type : U32)
    (hstart : l.heapStart.toNat ≤ v.mm.heapCurrent.toNat) (hend : v.mm.heapCurrent.toNat ≤ l.heapEnd.toNat) :
    vfsCreateInode l type v = (0#64, v) ∨
      ∃ cur, vfsCreateInode l type v = (v.mm.heapCurrent,
          { v with mm := { v.mm with heapCurrent := cur }, nextIno := v.nextIno + 1#32 }.setInode v.mm.heapCurrent
            ⟨v.nextIno, type, 0#32, 1#32, none, 0#64⟩) ∧ v.mm.heapCurrent ≠ 0#64 ∧
        v.mm.heapCurrent.toNat < cur.toNat ∧ cur.toNat ≤ l.heapEnd.toNat := by
  unfold vfsCreateInode
  rcases kmalloc_grows hl 32#64 (by decide) hstart hend with he | ⟨cur, he, hne, hlt, hle⟩
  · rw [he]
    exact .inl rfl
  · rw [he]
    exact .inr ⟨cur, if_neg hne, hne, hlt, hle⟩

/-- A new file of the device at the end of the heap, with its inode behind it. -/
structure Opened (l : Layout) (v : Vfs TestDev) (p : Word) (w : Vfs TestDev) : Prop where
  grown : Grown l v w
  ptr : p = v.mm.heapCurrent
  notNull : p ≠ 0#64
  room : p.toNat < w.mm.heapCurrent.toNat
  inode : (w.files p).inode.toNat < w.mm.heapCurrent.toNat
  ops : (w.inodes (w.files p).inode).ops = some testdevOps
  offset : (w.files p).offset = 0#32

/-- `vfs_open` finds no room for the file or for its inode, or it makes both. -/
theorem vfsOpen_case (hl : l.Linked) {v : Vfs TestDev} {path : Nat → Byte} {i : Fin 16}
    (hfind : findDevice v (skipSlash path) = some i) (hops : (v.devices i).ops = testdevOps)
    (hstart : l.heapStart.toNat ≤ v.mm.heapCurrent.toNat) (hend : v.mm.heapCurrent.toNat ≤ l.heapEnd.toNat)
    (flags : U32) :
    let r := VirtualFs.vfsOpen l path flags v
    (r.1 = 0#64 ∧ Grown l v r.2) ∨ Opened l v r.1 r.2 := by
  intro r
  have hold {p : Word} (hp : p.toNat < v.mm.heapCurrent.toNat) : p ≠ v.mm.heapCurrent := by
    rintro rfl
    exact absurd hp (Nat.lt_irrefl _)
  have hr : r = VirtualFs.vfsOpen l path flags v := rfl
  rw [VirtualFs.vfsOpen, hfind] at hr
  dsimp only at hr
  rcases kmalloc_grows hl 16#64 (by decide) hstart hend with he | ⟨cur, he, hne, hlt, hle⟩
  · rw [he, if_pos rfl] at hr
    rw [hr]
    exact .inl ⟨rfl, rfl, rfl, Nat.le_refl _, hend, fun _ _ => rfl, fun _ _ => rfl⟩
  · rw [he, if_neg hne] at hr
    rcases vfsCreateInode_case hl (v := { v with mm := { v.mm with heapCurrent := cur } }) vfsDev
      (Nat.le_trans hstart (Nat.le_of_lt hlt)) hle with hq | ⟨last, hq, hqne, hqlt, hqle⟩
    · simp only [hq, if_true] at hr
      rw [hr]
      refine .inl ⟨rfl, rfl, rfl, Nat.le_of_lt hlt, hle, ?_, fun _ _ => rfl⟩
      intro p hp
      exact Function.update_of_ne (hold hp) ..
    · simp only [hq, hqne, if_false] at hr
      dsimp only [Vfs.setFile, Vfs.setInode] at hr
      rw [hops, openDevice_eq] at hr
      have hlast : v.mm.heapCurrent.toNat < last.toNat := Nat.lt_trans hlt hqlt
      rw [hr]
      refine .inr ⟨⟨rfl, rfl, Nat.le_of_lt hlast, hqle, ?_, ?_⟩, rfl, hne, hlast, ?_, ?_, ?_⟩
      · intro p hp
        simp only [Function.update_of_ne (hold hp)]
      · intro p hp
        have hpne : p ≠ cur := by
          rintro rfl
          exact absurd hp (Nat.not_lt.mpr (Nat.le_of_lt hlt))
        simp only [Function.update_of_ne hpne]
      · simp only [Function.update_self]
        exact hqlt
      · simp only [Function.update_self]
      · simp only [Function.update_self]

/-- A file is opened at offset 0, unless the heap is full. -/
theorem Served.vfsOpen (hs : Served l s) (hl : l.Linked) {path : Nat → Byte}
    (hpath : Spells path (byte '/' :: testdevName)) (flags : U32) :
    let r := VirtualFs.vfsOpen l path flags s.vfs
    (r.1 = 0#64 ∧ Served l ⟨r.2, s.handles⟩ ∧ Clients.view ⟨r.2, s.handles⟩ = s.view) ∨
    (r.1 ≠ 0#64 ∧ r.1 ∉ s.handles ∧ Served l ⟨r.2, r.1 :: s.handles⟩ ∧
      Clients.view ⟨r.2, r.1 :: s.handles⟩ = s.view.moveTo r.1 0) := by
  intro r
  obtain ⟨i, hops, hfind⟩ := hs.device
  obtain ⟨hstart, hend⟩ := hs.heap
  rcases vfsOpen_case hl (hfind _ (skipSlash_spells hpath)) hops hstart hend flags with ⟨hnull, hgrown⟩ | hopened
  · exact .inl ⟨hnull, hs.grow hgrown⟩
  · have hfresh : r.1 ∉ s.handles := by
      intro hh
      have hlt := (hs.file _ hh).2
      rw [hopened.ptr] at hlt
      exact absurd hlt (Nat.lt_irrefl _)
    obtain ⟨hserved, hview⟩ := hs.grow hopened.grown
    have hadd := hserved.add hopened.notNull hopened.room hopened.inode hopened.ops hopened.offset
    rw [hview] at hadd
    exact .inr ⟨hopened.notNull, hfresh, hadd⟩

/-- Only the reference count of an inode changes when it is given up. -/
theorem vfsDestroyInode_keeps (p : Word) (v : Vfs TestDev) :
    (vfsDestroyInode p v).devices = v.devices ∧ (vfsDestroyInode p v).dev = v.dev ∧
    (vfsDestroyInode p v).mm = v.mm ∧ (vfsDestroyInode p v).files = v.files ∧
    ∀ q, ((vfsDestroyInode p v).inodes q).ops = (v.inodes q).ops := by
  have hops (q : Word) : (Function.update v.inodes p { v.inodes p with ref := (v.inodes p).ref - 1#32 } q).ops =
      (v.inodes q).ops := by
    rw [Function.update_apply]
    split
    · next hq => rw [hq]
    · rfl
  unfold vfsDestroyInode
  split
  · exact ⟨rfl, rfl, rfl, rfl, fun _ => rfl⟩
  · dsimp only [Vfs.setInode]
    split <;> exact ⟨rfl, rfl, rfl, rfl, hops⟩

theorem Served.drop (hs : Served l s) (h : Word) : Served l ⟨s.vfs, s.handles.filter (· ≠ h)⟩ ∧
    Clients.view ⟨s.vfs, s.handles.filter (· ≠ h)⟩ =
      { s.view with cursor := Function.update s.view.cursor h none } := by
  have hsub {k : Word} (hk : k ∈ s.handles.filter (· ≠ h)) : k ∈ s.handles := List.mem_of_mem_filter hk
  refine ⟨⟨hs.device, hs.heap, fun k hk => hs.file k (hsub hk), fun k hk => hs.inode k (hsub hk), hs.len,
    fun k hk => hs.offset k (hsub hk)⟩, ?_⟩
  simp only [Clients.view, SharedFile.mk.injEq, true_and]
  funext k
  rw [Function.update_apply]
  by_cases hk : k = h
  · rw [if_pos hk, hk]
    simp
  · rw [if_neg hk]
    simp [hk]

/-- A closed file leaves the others as they are. -/
theorem Served.vfsClose (hs : Served l s) {h : Word} (hh : h ∈ s.handles) :
    Served l (s.exec l (.vfsClose h)) ∧
    (s.exec l (.vfsClose h)).view = { s.view with cursor := Function.update s.view.cursor h none } := by
  have hclose : VirtualFs.vfsClose h s.vfs =
      (0, { vfsDestroyInode (s.vfs.files h).inode s.vfs with
        mm := kfree h (vfsDestroyInode (s.vfs.files h).inode s.vfs).mm }) := by
    have hself : s.vfs.setFile h (s.vfs.files h) = s.vfs := by
      rw [Vfs.setFile, Function.update_eq_self]
    rw [VirtualFs.vfsClose, if_neg (hs.file h hh).1, (hs.inode h hh).2]
    simp only [Option.bind_some, testdevOps, Vfs.apply, hself]
  obtain ⟨hdevices, hdev, hmm, hfiles, hinodes⟩ := vfsDestroyInode_keeps (s.vfs.files h).inode s.vfs
  have hkept : Grown l s.vfs (VirtualFs.vfsClose h s.vfs).2 := by
    rw [hclose, kfree]
    refine ⟨hdevices, hdev, ?_, ?_, fun p _ => by rw [hfiles], fun p _ => hinodes p⟩
    · exact Nat.le_of_eq (by rw [hmm])
    · rw [hmm]
      exact hs.heap.2
  obtain ⟨hserved, hview⟩ := hs.grow hkept
  rw [← hview]
  exact hserved.drop h

end Open

section Steps

variable {o : Nat}

theorem view_cursor : s.view.cursor h = some o ↔ h ∈ s.handles ∧ (s.vfs.files h).offset.toNat = o := by
  simp only [Clients.view]
  split
  · next hh => simp [hh]
  · next hh => simp [hh]

theorem Served.read (hs : Served l s) (hc : s.view.cursor h = some o) (count : Word) :
    (VirtualFs.vfsRead h count s.vfs).2.1 = (s.view.read h o count.toNat).1 ∧
    (VirtualFs.vfsRead h count s.vfs).1.toInt = (s.view.read h o count.toNat).1.length ∧
    (s.exec l (.vfsRead h count)).view = (s.view.read h o count.toNat).2 ∧
    Served l (s.exec l (.vfsRead h count)) := by
  obtain ⟨hh, rfl⟩ := view_cursor.mp hc
  obtain ⟨hdata, hret, hoff⟩ := testdevRead_spec ⟨(s.vfs.files h).offset⟩ count
    (hs.offset h hh) hs.len
  have hexec : s.exec l (.vfsRead h count) = s.after h s.vfs.dev
      (testdevRead s.vfs.dev ⟨(s.vfs.files h).offset⟩ count).file.offset := by
    rw [Clients.exec, hs.vfsRead_eq hh]
    rfl
  rw [hexec, hs.vfsRead_eq hh, view_after hh, hoff]
  refine ⟨hdata, hret, rfl, hs.after hh (Nat.le_refl _) hs.len ?_⟩
  have hle : (s.vfs.files h).offset.toNat ≤ s.vfs.dev.len.toNat := hs.offset h hh
  rw [hoff, List.length_take, List.length_drop, contents_length]
  dsimp only
  omega

theorem Served.write (hs : Served l s) (hc : s.view.cursor h = some o) (ho : o < testdevSize)
    (buf : Nat → Byte) (count : Word) :
    (VirtualFs.vfsWrite h buf count s.vfs).1.toInt = (s.view.write testdevSize h o (bytesOf buf count)).1 ∧
    (s.exec l (.vfsWrite h buf count)).view = (s.view.write testdevSize h o (bytesOf buf count)).2 ∧
    Served l (s.exec l (.vfsWrite h buf count)) := by
  obtain ⟨hh, rfl⟩ := view_cursor.mp hc
  obtain ⟨hdata, hret, hoff⟩ := testdevWrite_spec ⟨(s.vfs.files h).offset⟩ buf count
    s.view rfl (hs.offset h hh) hs.len ho
  have hexec : s.exec l (.vfsWrite h buf count) = s.after h
      (testdevWrite s.vfs.dev ⟨(s.vfs.files h).offset⟩ buf count).dev
      (testdevWrite s.vfs.dev ⟨(s.vfs.files h).offset⟩ buf count).file.offset := by
    rw [Clients.exec, hs.vfsWrite_eq hh]
    simp only [Clients.after]
  have hle : (s.vfs.files h).offset.toNat ≤ s.view.data.length := by
    rw [Clients.view, contents_length]
    exact hs.offset h hh
  have hlen := congrArg List.length hdata
  rw [contents_length, put_length hle] at hlen
  have hroom : ((bytesOf buf count).take (testdevSize - (s.vfs.files h).offset.toNat)).length ≤
      testdevSize - (s.vfs.files h).offset.toNat := List.length_take_le ..
  have hview : s.view.data.length = s.vfs.dev.len.toNat := contents_length
  have hsize := hs.len
  rw [hexec, hs.vfsWrite_eq hh, view_after hh, hoff, hdata]
  dsimp only [SharedFile.write]
  refine ⟨hret, ?_, hs.after hh ?_ ?_ ?_⟩
  · dsimp only [SharedFile.put]
  · rw [hlen, hview]
    exact Nat.le_max_left ..
  · rw [hlen, hview]
    dsimp only at *
    omega
  · rw [hlen, hoff]
    exact Nat.le_max_right ..

/-- At the end of the buffer nothing is written. -/
theorem Served.full (hs : Served l s) (hc : s.view.cursor h = some testdevSize) (buf : Nat → Byte)
    (count : Word) : VirtualFs.vfsWrite h buf count s.vfs = (-1#32, s.vfs) := by
  obtain ⟨hh, ho⟩ := view_cursor.mp hc
  have hoff : (s.vfs.files h).offset = BitVec.ofNat 32 testdevSize := BitVec.eq_of_toNat_eq ho
  have hwrite : testdevWrite s.vfs.dev ⟨(s.vfs.files h).offset⟩ buf count =
      ⟨-1#32, s.vfs.dev, ⟨(s.vfs.files h).offset⟩, []⟩ := by
    rw [testdevWrite]
    exact if_pos (by rw [hoff, BitVec.sub_self])
  have hself : s.vfs.setFile h (s.vfs.files h) = s.vfs := by
    rw [Vfs.setFile, Function.update_eq_self]
  rw [hs.vfsWrite_eq hh, hwrite]
  exact congrArg (Prod.mk _) hself

theorem Served.seek (hs : Served l s) (hc : s.view.cursor h = some o) {offset : U32}
    (hoffset : offset.toNat ≤ s.vfs.dev.len.toNat) :
    (fileSeek h offset s.vfs).1 = 0#32 ∧ (s.exec l (.seek h offset)).view = s.view.moveTo h offset.toNat ∧
    Served l (s.exec l (.seek h offset)) := by
  obtain ⟨hh, rfl⟩ := view_cursor.mp hc
  have hseek : testdevSeek ⟨(s.vfs.files h).offset⟩ offset = (0#32, ⟨offset⟩) := by
    refine if_neg ?_
    have hsize := hs.len
    rw [gt_iff_lt, BitVec.lt_def]
    simp only [testdevSize, BitVec.toNat_ofNat] at *
    omega
  have hexec : s.exec l (.seek h offset) = s.after h s.vfs.dev offset := by
    rw [Clients.exec, hs.fileSeek_eq hh, hseek]
    rfl
  rw [hexec, hs.fileSeek_eq hh, hseek, view_after hh]
  exact ⟨rfl, rfl, hs.after hh (Nat.le_refl _) hs.len hoffset⟩

end Steps

section Runs

theorem Served.exec (hs : Served l s) (hl : l.Linked) {c : ClientCall} (hok : s.Ok c) : Served l (s.exec l c) := by
  cases c with
  | vfsOpen path flags =>
    rcases hs.vfsOpen hl hok flags with ⟨hz, hserved, _⟩ | ⟨hne, _, hserved, _⟩
    · rw [Clients.exec, if_pos hz]
      exact hserved
    · rw [Clients.exec, if_neg hne]
      exact hserved
  | vfsRead h count => exact (hs.read (view_cursor.mpr ⟨hok, rfl⟩) count).2.2.2
  | vfsWrite h buf count =>
    by_cases ho : (s.vfs.files h).offset.toNat < testdevSize
    · exact (hs.write (view_cursor.mpr ⟨hok, rfl⟩) ho buf count).2.2
    · have hfull : (s.vfs.files h).offset.toNat = testdevSize :=
        Nat.le_antisymm (Nat.le_trans (hs.offset h hok) hs.len) (Nat.not_lt.mp ho)
      rw [Clients.exec, hs.full (view_cursor.mpr ⟨hok, hfull⟩)]
      exact hs
  | seek h offset => exact (hs.seek (view_cursor.mpr ⟨hok.1, rfl⟩) hok.2).2.2
  | vfsClose h => exact (hs.vfsClose hok).1

/-- Once registered, the device is the one that its name finds. -/
theorem boot_served {v : Vfs TestDev} (hstart : l.heapStart.toNat ≤ v.mm.heapCurrent.toNat)
    (hend : v.mm.heapCurrent.toNat ≤ l.heapEnd.toNat) : Served l ⟨boot v, []⟩ := by
  have hregister : boot v = { vfsInit v with
      dev := testdevInit v.dev
      devices := Function.update (vfsInit v).devices 0
        ⟨copyName (cstring testdevName) 31 0 (v.devices 0).name, testdevOps, true⟩ } := by
    rfl
  have hcopy := copyName_spells (cstring testdevName) (v.devices 0).name (j := 0) 31
    (by simpa only [Nat.zero_add] using testdevName_spells)
  simp only [Nat.zero_add] at hcopy
  refine ⟨⟨0, ?_, ?_⟩, ⟨hstart, hend⟩, by simp, by simp, Nat.zero_le _, by simp⟩
  · rw [hregister]
    simp only [Function.update_self]
  · intro name hspells
    rw [hregister, findDevice, List.finRange_succ]
    refine List.find?_cons_of_pos ?_
    simp only [Function.update_self, Bool.true_and]
    exact (hcopy.sameName_iff hspells (by decide)).mpr rfl

/-- The calls on `s` are those of a shared file of at most 1024 bytes. -/
structure SharesFile (l : Layout) (s : Clients) : Prop where
  length : s.view.data.length = s.vfs.dev.len.toNat ∧ s.vfs.dev.len.toNat ≤ testdevSize
  cursors : ∀ h o, s.view.cursor h = some o → o ≤ s.view.data.length
  opens : ∀ path flags, Spells path (byte '/' :: testdevName) →
    let p := (VirtualFs.vfsOpen l path flags s.vfs).1
    let t := s.exec l (.vfsOpen path flags)
    (p = 0#64 ∧ t.view = s.view) ∨ (p ≠ 0#64 ∧ s.view.cursor p = none ∧ t.view = s.view.moveTo p 0)
  reads : ∀ h o count, s.view.cursor h = some o →
    let r := VirtualFs.vfsRead h count s.vfs
    r.2.1 = (s.view.read h o count.toNat).1 ∧ r.1.toInt = r.2.1.length ∧
      (s.exec l (.vfsRead h count)).view = (s.view.read h o count.toNat).2
  writes : ∀ h o buf count, s.view.cursor h = some o → o < testdevSize →
    (VirtualFs.vfsWrite h buf count s.vfs).1.toInt = (s.view.write testdevSize h o (bytesOf buf count)).1 ∧
      (s.exec l (.vfsWrite h buf count)).view = (s.view.write testdevSize h o (bytesOf buf count)).2
  full : ∀ h buf count, s.view.cursor h = some testdevSize →
    VirtualFs.vfsWrite h buf count s.vfs = (-1#32, s.vfs)
  seeks : ∀ h o offset, s.view.cursor h = some o → offset.toNat ≤ s.view.data.length →
    (fileSeek h offset s.vfs).1 = 0#32 ∧ (s.exec l (.seek h offset)).view = s.view.moveTo h offset.toNat
  roundTrip : ∀ h h' o o' buf count, s.view.cursor h = some o → o < testdevSize → s.view.cursor h' = some o' →
    let t := (s.exec l (.vfsWrite h buf count)).exec l (.seek h' (BitVec.ofNat 32 o))
    (VirtualFs.vfsRead h' count t.vfs).2.1 = (bytesOf buf count).take (testdevSize - o)

theorem Served.cursor_le (hs : Served l s) {o : Nat} (hc : s.view.cursor h = some o) : o ≤ s.vfs.dev.len.toNat := by
  obtain ⟨hh, rfl⟩ := view_cursor.mp hc
  exact hs.offset h hh

theorem Served.roundTrip (hs : Served l s) {h' : Word} {o o' : Nat} (buf : Nat → Byte) (count : Word)
    (hc : s.view.cursor h = some o) (ho : o < testdevSize) (hc' : s.view.cursor h' = some o') :
    let t := (s.exec l (.vfsWrite h buf count)).exec l (.seek h' (BitVec.ofNat 32 o))
    (VirtualFs.vfsRead h' count t.vfs).2.1 = (bytesOf buf count).take (testdevSize - o) := by
  intro t
  obtain ⟨_, hview, hwritten⟩ := hs.write hc ho buf count
  have hle : o ≤ s.view.data.length := by
    rw [Clients.view, contents_length]
    exact hs.cursor_le hc
  have hoff : (BitVec.ofNat 32 o).toNat = o := by
    simp only [testdevSize] at ho
    rw [BitVec.toNat_ofNat]
    omega
  obtain ⟨o₁, hc₁⟩ : ∃ o₁, (s.exec l (.vfsWrite h buf count)).view.cursor h' = some o₁ := by
    rw [hview]
    by_cases hh : h' = h
    · rw [hh]
      exact ⟨_, Function.update_self ..⟩
    · exact ⟨o', (Function.update_of_ne hh ..).trans hc'⟩
  have hbound : (BitVec.ofNat 32 o).toNat ≤ (s.exec l (.vfsWrite h buf count)).vfs.dev.len.toNat := by
    rw [hoff, ← contents_length]
    show o ≤ (s.exec l (.vfsWrite h buf count)).view.data.length
    rw [hview]
    exact Nat.le_trans hle (Nat.le_trans (Nat.le_max_left ..) (Nat.le_of_eq (put_length hle).symm))
  obtain ⟨_, hseek, hback⟩ := hwritten.seek hc₁ hbound
  rw [hoff] at hseek
  have hcursor : t.view.cursor h' = some o := by
    rw [hseek]
    exact Function.update_self ..
  rw [(hback.read hcursor count).1, hseek, hview]
  have hput := slice_put testdevSize (bytesOf buf count) hle (by
    rw [Clients.view, contents_length]
    exact hs.len)
  rw [bytesOf_length] at hput
  exact hput

theorem Served.shares (hs : Served l s) (hl : l.Linked) : SharesFile l s where
  length := ⟨contents_length, hs.len⟩
  cursors h o hc := by
    rw [Clients.view, contents_length]
    exact hs.cursor_le hc
  opens path flags hpath := by
    rcases hs.vfsOpen hl hpath flags with ⟨hz, _, hview⟩ | ⟨hne, hnew, _, hview⟩
    · refine .inl ⟨hz, ?_⟩
      rw [Clients.exec, if_pos hz]
      exact hview
    · refine .inr ⟨hne, if_neg hnew, ?_⟩
      rw [Clients.exec, if_neg hne]
      exact hview
  reads h o count hc := by
    obtain ⟨hdata, hret, hview, _⟩ := hs.read hc count
    refine ⟨hdata, ?_, hview⟩
    rw [hdata]
    exact hret
  writes h o buf count hc ho := by
    obtain ⟨hret, hview, _⟩ := hs.write hc ho buf count
    exact ⟨hret, hview⟩
  full h buf count hc := hs.full hc buf count
  seeks h o offset hc hoffset := by
    rw [Clients.view, contents_length] at hoffset
    obtain ⟨hret, hview, _⟩ := hs.seek hc hoffset
    exact ⟨hret, hview⟩
  roundTrip h h' o o' buf count hc ho hc' := hs.roundTrip buf count hc ho hc'

/-- In every run of the files open on it, the test device is a shared file. -/
theorem testdev_shared_file (hl : l.Linked) {v : Vfs TestDev}
    (hstart : l.heapStart.toNat ≤ v.mm.heapCurrent.toNat) (hend : v.mm.heapCurrent.toNat ≤ l.heapEnd.toNat)
    {calls : List ClientCall} (hrun : Run (guarded Clients.Ok (Clients.exec l)) ⟨boot v, []⟩ calls s) :
    SharesFile l s := by
  have hserved : Served l s :=
    hrun.guarded_invariant (Served l) (fun _ _ hs hok => hs.exec hl hok) (boot_served hstart hend)
  exact hserved.shares hl

/-- `"/testdev"` -/
def testdevPath : Nat → Byte := cstring (byte '/' :: testdevName)

theorem testdevPath_spells : Spells testdevPath (byte '/' :: testdevName) := cstring_spells (by decide)

/-- Twenty bytes written through one file, and another at the sixth of them. -/
theorem testdev_shared_file_two :
    let v : Vfs TestDev := ⟨fun _ => ⟨fun _ => 7#8, testdevOps, true⟩, 1#32, mmInit smallLayout fun _ => 7#64,
      fun _ => ⟨7#32, 7#32, 7#32, 7#32, none, 7#64⟩, fun _ => ⟨7#64, 7#32, 7#32⟩, ⟨fun _ => 7#8, 9#32⟩⟩
    let calls := [.vfsOpen testdevPath 0#32, .vfsOpen testdevPath 0#32,
      .vfsWrite 0x80600000#64 (fun i => BitVec.ofNat 8 i) 20#64, .seek 0x80600030#64 5#32]
    let s := calls.foldl (Clients.exec smallLayout) ⟨boot v, []⟩
    s.handles = [0x80600030#64, 0x80600000#64] ∧ s.view.data.length = 20 ∧ SharesFile smallLayout s := by
  intro v calls s
  have hl : smallLayout.Linked := ⟨by decide +kernel, by decide +kernel, by decide +kernel, by decide +kernel⟩
  have hrun : Run (guarded Clients.Ok (Clients.exec smallLayout)) ⟨boot v, []⟩ calls s := by
    refine run_guarded_iff.mpr ⟨⟨testdevPath_spells, testdevPath_spells, ?_, ⟨?_, ?_⟩, trivial⟩, rfl⟩
    · show 0x80600000#64 ∈ Clients.handles _
      decide +kernel
    · show 0x80600030#64 ∈ Clients.handles _
      decide +kernel
    · decide +kernel
  refine ⟨by decide +kernel, by decide +kernel, ?_⟩
  exact testdev_shared_file hl (Nat.le_refl _) (by decide +kernel) hrun

end Runs

end Clients

end RiscvOs.TestDevice
