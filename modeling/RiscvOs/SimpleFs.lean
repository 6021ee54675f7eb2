import RiscvOs.CStrings
import RiscvOs.PageAlloc
set_option autoImplicit false

/-!
The simple file system of `kernel/fs/simplefs.c`: a superblock and a table of 64 inodes in
memory, each with its name in place. All counters and sizes are of 32 bits; the data
region comes from `kmalloc` and is never touched.
-/

namespace RiscvOs.SimpleFs
open WordMemory PageAlloc CStrings

abbrev U32 := BitVec 32

def sfsMagic : U32 := 0x53465331#32
def sfsBlockSize : U32 := 4096#32
def sfsMaxFiles : Nat := 64
def sfsMaxFilename : Nat := 28

structure Superblock where
  magic : U32
  blockSize : U32
  numBlocks : U32
  numInodes : U32
  numFreeBlocks : U32
  numFreeInodes : U32
  deriving DecidableEq

structure Inode where
  ino : U32
  type : U32
  size : U32
  blocks : Fin 12 → U32
  name : Nat → Byte

structure Fs where
  superblock : Superblock
  inodes : Fin 64 → Inode
  dataBlocks : Word

def Fs.setInode (fs : Fs) (i : Fin 64) (x : Inode) : Fs :=
  { fs with inodes := Function.update fs.inodes i x }

def sfsInit (fs : Fs) : Fs :=
  { fs with inodes := fun i => { fs.inodes i with ino := 0#32, type := 0#32, size := 0#32 } }

/-- `sfs_format`, which also moves the heap of `kmalloc`. -/
def sfsFormat (l : Layout) (numBlocks : U32) (fs : Fs) (mm : Mm) : Int × Fs × Mm :=
  let r := kmalloc l ((numBlocks * sfsBlockSize).setWidth 64) mm
  let fs := { fs with
    superblock := ⟨sfsMagic, sfsBlockSize, numBlocks, BitVec.ofNat 32 sfsMaxFiles, numBlocks,
      BitVec.ofNat 32 sfsMaxFiles⟩
    dataBlocks := r.1 }
  (if r.1 = 0#64 then -1 else 0, fs, r.2)

def findInode (fs : Fs) (name : Nat → Byte) : Option (Fin 64) :=
  (List.finRange 64).find? fun i =>
    decide ((fs.inodes i).ino ≠ 0#32) && sameName sfsMaxFilename (fs.inodes i).name name

/-- The free inode that `sfs_create` takes. -/
def findFree (fs : Fs) : Option (Fin 64) :=
  (List.finRange 64).find? fun i => decide ((fs.inodes i).ino = 0#32)

/-- The number of slot `i`. -/
def inoOf (i : Fin 64) : U32 := BitVec.ofNat 32 (i.val + 1)

def newInode (old : Inode) (i : Fin 64) (name : Nat → Byte) (type : U32) : Inode where
  ino := inoOf i
  type := type
  size := 0#32
  blocks := fun _ => 0#32
  name := copyName name (sfsMaxFilename - 1) 0 old.name

def sfsCreate (name : Nat → Byte) (type : U32) (fs : Fs) : Int × Fs :=
  if findInode fs name ≠ none then (-1, fs)
  else
    match findFree fs with
    | none => (-1, fs)
    | some i =>
      let fs := fs.setInode i (newInode (fs.inodes i) i name type)
      ((fs.inodes i).ino.toInt,
        { fs with superblock := { fs.superblock with
            numFreeInodes := fs.superblock.numFreeInodes - 1#32 } })

/-- The loop of `sfs_delete` over the blocks of an inode. -/
def freeBlocks (blocks : Fin 12 → U32) (free : U32) : U32 :=
  (List.finRange 12).foldl (fun free j => if blocks j ≠ 0#32 then free + 1#32 else free) free

def sfsDelete (name : Nat → Byte) (fs : Fs) : Int × Fs :=
  match findInode fs name with
  | none => (-1, fs)
  | some i =>
    let inode := fs.inodes i
    (0, { fs.setInode i { inode with ino := 0#32, type := 0#32, size := 0#32 } with
      superblock := { fs.superblock with
        numFreeBlocks := freeBlocks inode.blocks fs.superblock.numFreeBlocks
        numFreeInodes := fs.superblock.numFreeInodes + 1#32 } })

/-- The slot `&inodes[ino - 1]` of a number that passes the checks of `sfs_read` and `sfs_write`. -/
def slotOf (fs : Fs) (ino : U32) : Option (Fin 64) :=
  if ino = 0#32 ∨ ino > BitVec.ofNat 32 sfsMaxFiles then none
  else
    let i := Fin.ofNat 64 (ino - 1#32).toNat
    if (fs.inodes i).ino ≠ ino then none else some i

def sfsRead (ino offset size : U32) (fs : Fs) : Int :=
  match slotOf fs ino with
  | none => -1
  | some i =>
    let inode := fs.inodes i
    if offset ≥ inode.size then 0
    else (if offset + size > inode.size then inode.size - offset else size).toInt

def sfsWrite (ino offset size : U32) (fs : Fs) : Int × Fs :=
  match slotOf fs ino with
  | none => (-1, fs)
  | some i =>
    let inode := fs.inodes i
    (size.toInt, fs.setInode i
      { inode with size := if offset + size > inode.size then offset + size else inode.size })

end RiscvOs.SimpleFs
