import RiscvOs.CStrings
import RiscvOs.Heap
set_option autoImplicit false

/-!
The device layer of `kernel/fs/vfs.c`: a registry of devices by name, and files and inodes on
the heap of `kmalloc`. A table of file operations stands for the pointer to it; `δ` is the
state of the drivers, which the operations change. Files and inodes are kept by their
addresses.
-/

namespace RiscvOs.VirtualFs
open WordMemory PageAlloc CStrings

abbrev U32 := BitVec 32

def vfsDev : U32 := 3#32

structure OpenFile where
  inode : Word
  offset : U32
  flags : U32

/-- What an operation returns, the bytes it has copied out, and what it has changed. -/
structure Outcome (δ : Type) where
  ret : U32
  data : List Byte
  file : OpenFile
  dev : δ

structure FileOps (δ : Type) where
  openHook : Option (OpenFile → δ → Outcome δ)
  close : Option (OpenFile → δ → Outcome δ)
  read : Option (OpenFile → Word → δ → Outcome δ)
  write : Option (OpenFile → (Nat → Byte) → Word → δ → Outcome δ)
  seek : Option (OpenFile → U32 → δ → Outcome δ)

structure Inode (δ : Type) where
  ino : U32
  type : U32
  size : U32
  ref : U32
  ops : Option (FileOps δ)
  privateData : Word

structure Device (δ : Type) where
  name : Nat → Byte
  ops : FileOps δ
  used : Bool

structure Vfs (δ : Type) where
  devices : Fin 16 → Device δ
  nextIno : U32
  mm : Mm
  inodes : Word → Inode δ
  files : Word → OpenFile
  dev : δ

variable {δ : Type}

def vfsInit (s : Vfs δ) : Vfs δ := { s with devices := fun i => { s.devices i with used := false } }

def Vfs.setInode (s : Vfs δ) (p : Word) (x : Inode δ) : Vfs δ := { s with inodes := Function.update s.inodes p x }

def Vfs.setFile (s : Vfs δ) (p : Word) (f : OpenFile) : Vfs δ := { s with files := Function.update s.files p f }

/-- `vfs_create_inode`, with `sizeof(inode_t)` of 32 bytes. -/
def vfsCreateInode (l : Layout) (type : U32) (s : Vfs δ) : Word × Vfs δ :=
  let r := kmalloc l 32#64 s.mm
  let s := { s with mm := r.2 }
  if r.1 = 0#64 then (0#64, s)
  else (r.1, { s with nextIno := s.nextIno + 1#32 }.setInode r.1 ⟨s.nextIno, type, 0#32, 1#32, none, 0#64⟩)

def vfsDestroyInode (p : Word) (s : Vfs δ) : Vfs δ :=
  if p = 0#64 then s
  else
    let s := s.setInode p { s.inodes p with ref := (s.inodes p).ref - 1#32 }
    if (s.inodes p).ref = 0#32 then { s with mm := kfree p s.mm } else s

def vfsRegisterDevice (name : Nat → Byte) (ops : FileOps δ) (s : Vfs δ) : Int × Vfs δ :=
  match (List.finRange 16).find? fun i => !(s.devices i).used with
  | none => (-1, s)
  | some i =>
    (0, { s with devices := Function.update s.devices i ⟨copyName name 31 0 (s.devices i).name, ops, true⟩ })

def findDevice (s : Vfs δ) (name : Nat → Byte) : Option (Fin 16) :=
  (List.finRange 16).find? fun i => (s.devices i).used && sameName 32 (s.devices i).name name

/-- The path without a leading slash. -/
def skipSlash (path : Nat → Byte) : Nat → Byte :=
  if path 0 = byte '/' then fun i => path (i+1) else path

/-- The part of `vfs_open` from the device's own `open` on. -/
def openDevice (p : Word) (ops : FileOps δ) (s : Vfs δ) : Word × Vfs δ :=
  match ops.openHook with
  | none => (p, s)
  | some hook =>
    let r := hook (s.files p) s.dev
    let s := { s with dev := r.dev }.setFile p r.file
    if r.ret ≠ 0#32 then
      let s := vfsDestroyInode (s.files p).inode s
      (0#64, { s with mm := kfree p s.mm })
    else (p, s)

/-- `vfs_open`, with `sizeof(file_t)` of 16 bytes. -/
def vfsOpen (l : Layout) (path : Nat → Byte) (flags : U32) (s : Vfs δ) : Word × Vfs δ :=
  match findDevice s (skipSlash path) with
  | none => (0#64, s)
  | some i =>
    let r := kmalloc l 16#64 s.mm
    let s := { s with mm := r.2 }
    if r.1 = 0#64 then (0#64, s)
    else
      let q := vfsCreateInode l vfsDev s
      let s := q.2.setFile r.1 { s.files r.1 with inode := q.1 }
      if q.1 = 0#64 then (0#64, { s with mm := kfree r.1 s.mm })
      else
        let s := s.setInode q.1 { s.inodes q.1 with ops := some (s.devices i).ops }
        openDevice r.1 (s.devices i).ops (s.setFile r.1 ⟨q.1, 0#32, flags⟩)

/-- What every call on a file of the VFS does with the operation that it has found. -/
def Vfs.apply (s : Vfs δ) (p : Word) (f : OpenFile → δ → Outcome δ) : U32 × List Byte × Vfs δ :=
  let r := f (s.files p) s.dev
  (r.ret, r.data, { s with dev := r.dev }.setFile p r.file)

def vfsRead (p : Word) (count : Word) (s : Vfs δ) : U32 × List Byte × Vfs δ :=
  if p = 0#64 then (-1#32, [], s)
  else
    match (s.inodes (s.files p).inode).ops.bind FileOps.read with
    | none => (-1#32, [], s)
    | some read => s.apply p fun file => read file count

def vfsWrite (p : Word) (buf : Nat → Byte) (count : Word) (s : Vfs δ) : U32 × Vfs δ :=
  if p = 0#64 then (-1#32, s)
  else
    match (s.inodes (s.files p).inode).ops.bind FileOps.write with
    | none => (-1#32, s)
    | some write =>
      let r := s.apply p fun file => write file buf count
      (r.1, r.2.2)

def vfsClose (p : Word) (s : Vfs δ) : Int × Vfs δ :=
  if p = 0#64 then (-1, s)
  else
    let s := match (s.inodes (s.files p).inode).ops.bind FileOps.close with
      | none => s
      | some close => (s.apply p close).2.2
    let s := vfsDestroyInode (s.files p).inode s
    (0, { s with mm := kfree p s.mm })

/-- `file->inode->ops->seek(file, offset)` where there is such an operation. -/
def fileSeek (p : Word) (offset : U32) (s : Vfs δ) : U32 × Vfs δ :=
  match (s.inodes (s.files p).inode).ops.bind FileOps.seek with
  | none => (0#32, s)
  | some seek =>
    let r := s.apply p fun file => seek file offset
    (r.1, r.2.2)

end RiscvOs.VirtualFs
