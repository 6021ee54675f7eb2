import RiscvOs.Uart
import RiscvOs.ByteMemory
import RiscvOs.SchedulerCalls
import RiscvOs.Vfs
set_option autoImplicit false

/-!
The system calls of `kernel/syscall/syscall.c`. A buffer or a path is an address in the memory of
the caller, which is apart from the data of the kernel; a file descriptor is the address of the
file.
-/

namespace RiscvOs.Syscalls
open WordMemory CStrings ByteMemory PageAlloc Scheduler VirtualFs Uart Runs

inductive Syscall where
  | sysRead | sysWrite | sysFork | sysExec | sysExit | sysOpen | sysClose | sysGetpid | sysYield
  | unknown
  deriving DecidableEq

/-- The numbers of `syscall.h`. -/
def syscallOf (num : Word) : Syscall :=
  if num = 0#64 then .sysRead
  else if num = 1#64 then .sysWrite
  else if num = 2#64 then .sysFork
  else if num = 3#64 then .sysExec
  else if num = 4#64 then .sysExit
  else if num = 5#64 then .sysOpen
  else if num = 6#64 then .sysClose
  else if num = 7#64 then .sysGetpid
  else if num = 8#64 then .sysYield
  else .unknown

/-- `SYSCALL_ERROR` -/
def syscallError : Word := -1#64

structure SysState (δ : Type) where
  sched : Sched
  vfs : Vfs δ
  user : Bytes
  console : Console

variable {δ : Type}

def SysState.printf (fmt : String) (args : List Arg) (s : SysState δ) : SysState δ :=
  { s with console := s.console.printf fmt args }

/-- The loop of `SYS_READ` from index `i` on, for at most `n` rounds. -/
def readLoop (typed : Nat → Byte) (buf : Word) : Nat → Nat → SysState δ → Nat × SysState δ
  | 0, i, s => (i, s)
  | n+1, i, s =>
    let r := s.console.uartGetc typed
    let s := { s with console := r.2, user := Function.update s.user (offset buf i) r.1 }
    if s.user (offset buf i) = byte '\n' then (i+1, s) else readLoop typed buf n (i+1) s

/-- The loop of `SYS_WRITE`, of `n` rounds. -/
def writeLoop (user : Bytes) (buf : Word) (n : Nat) (s : Console) : Console :=
  (List.range n).foldl (fun s i => s.uartPutc (user (offset buf i))) s

/-- What `kmalloc` prints. -/
def kmallocPrints (l : Layout) (size : Word) (mm : Mm) : List Output :=
  if size ≠ 0#64 ∧ (kmalloc l size mm).1 = 0#64 then [.printf "[MM] Heap exhausted!\n" []] else []

/-- What `vfs_open` prints. -/
def vfsOpenPrints (l : Layout) (path : Nat → Byte) (s : Vfs δ) : List Output :=
  match findDevice s (skipSlash path) with
  | none => [.printf "[VFS] File not found: %s\n" [.str (skipSlash path)]]
  | some _ =>
    let r := kmalloc l 16#64 s.mm
    kmallocPrints l 16#64 s.mm ++ if r.1 = 0#64 then [] else kmallocPrints l 32#64 r.2

def currentProc (s : Sched) : ProcPtr := s.cpu.current

def syscallHandler (l : Layout) (typed : Nat → Byte) (num arg0 arg1 _arg2 : Word) (s : SysState δ) :
    Word × SysState δ :=
  match syscallOf num with
  | .sysRead =>
    let r := readLoop typed arg0 arg1.toNat 0 s
    (BitVec.ofNat 64 r.1, r.2)
  | .sysWrite => (arg1, { s with console := writeLoop s.user arg0 arg1.toNat s.console })
  | .sysFork => (syscallError, s.printf "[SYSCALL] fork() not implemented\n" [])
  | .sysExec => (syscallError, s.printf "[SYSCALL] exec() not implemented\n" [])
  | .sysExit => (0#64, s.printf "[SYSCALL] Process exit with code %u\n" [num32 (arg0.setWidth 32)])
  | .sysOpen =>
    let path (i : Nat) : Byte := s.user (offset arg0 i)
    let r := vfsOpen l path (arg1.setWidth 32) s.vfs
    (if r.1 = 0#64 then syscallError else r.1,
      { s with vfs := r.2, console := { s.console with out := s.console.out ++ vfsOpenPrints l path s.vfs } })
  | .sysClose =>
    let r := vfsClose arg0 s.vfs
    (BitVec.ofInt 64 r.1, { s with vfs := r.2 })
  | .sysGetpid =>
    match currentProc s.sched with
    | some p => ((s.sched.procs p).pid, s)
    | none => (0#64, s)
  | .sysYield => (0#64, { s with sched := schedYield s.sched })
  | .unknown => (syscallError, s.printf "[SYSCALL] Unknown syscall: %u\n" [num32 (num.setWidth 32)])

/-- The calls of the running processes, and what happens between two of them: the kernel calls its
scheduler, and a process stores to its memory. -/
inductive SysEvent where
  | syscall (num arg0 arg1 arg2 : Word)
  | sched (c : SchedCall)
  | store (a : Word) (c : Byte)

def SysState.step (l : Layout) (typed : Nat → Byte) (s : SysState δ) : SysEvent → Word × SysState δ
  | .syscall num arg0 arg1 arg2 => syscallHandler l typed num arg0 arg1 arg2 s
  | .sched c => (0#64, { s with sched := s.sched.exec c })
  | .store a c => (0#64, { s with user := Function.update s.user a c })

def SysState.exec (l : Layout) (typed : Nat → Byte) (s : SysState δ) (e : SysEvent) : SysState δ :=
  (s.step l typed e).2

/-- The `n` bytes of a buffer. -/
def bufferBytes (user : Bytes) (buf : Word) (n : Nat) : List Byte := (List.range n).map fun i => user (offset buf i)

/-- What a `SYS_READ` leaves in the buffer it was given, up to the length that it returns. -/
def delivered (l : Layout) (typed : Nat → Byte) (s : SysState δ) (e : SysEvent) : List Byte × SysState δ :=
  let r := s.step l typed e
  match e with
  | .syscall num buf _ _ => (if syscallOf num = .sysRead then bufferBytes r.2.user buf r.1.toNat else [], r.2)
  | .sched _ | .store _ _ => ([], r.2)

/-- What is in the buffer of a `SYS_WRITE`. -/
def written (l : Layout) (typed : Nat → Byte) (s : SysState δ) (e : SysEvent) : List Byte × SysState δ :=
  let r := s.step l typed e
  match e with
  | .syscall num buf len _ => (if syscallOf num = .sysWrite then bufferBytes s.user buf len.toNat else [], r.2)
  | .sched _ | .store _ _ => ([], r.2)

/-- The next line of an input, with its newline, cut to `n` characters. -/
def takeLine : Nat → (Nat → Byte) → List Byte
  | 0, _ => []
  | n+1, a => if a 0 = byte '\n' then [a 0] else a 0 :: takeLine n fun i => a (i+1)

section Streams

variable {l : Layout} {typed : Nat → Byte} {s : SysState δ}

theorem takeLine_length_le (n : Nat) (a : Nat → Byte) : (takeLine n a).length ≤ n := by
  induction n generalizing a with
  | zero => exact Nat.le_refl 0
  | succ n ih =>
    rw [takeLine]
    split
    · exact Nat.succ_le_succ (Nat.zero_le n)
    · exact Nat.succ_le_succ (ih _)

theorem takeLine_segment (n k : Nat) :
    takeLine n (fun i => typed (k + i)) = stretch typed k (takeLine n fun i => typed (k + i)).length := by
  induction n generalizing k with
  | zero => rfl
  | succ n ih =>
    have hshift : (fun i => typed (k + (i + 1))) = fun i => typed (k + 1 + i) := shift_succ typed k
    rw [takeLine, Nat.add_zero]
    split
    · rfl
    · rw [List.length_cons, stretch_succ, hshift, ← ih]

/-- The first round of a store loop, and the rest. -/
theorem storeLoop_front {ι β : Type} [DecidableEq ι] (f : Nat → ι) (g : Nat → β) (n : Nat) (m : ι → β) :
    storeLoop f g (n+1) m = storeLoop (fun j => f (j+1)) (fun j => g (j+1)) n (Function.update m (f 0) (g 0)) := by
  simp only [storeLoop, List.range_succ_eq_map, List.foldl_cons, List.foldl_map, Nat.succ_eq_add_one]

/-- The loop of a read takes a line off the input and stores it from index `i` on. -/
theorem readLoop_eq (buf : Word) (n i : Nat) (s : SysState δ) :
    let line := takeLine n fun j => typed (s.console.taken + j)
    readLoop typed buf n i s = (i + line.length,
      { s with
        user := storeLoop (fun j => offset buf (i + j)) (fun j => typed (s.console.taken + j)) line.length s.user
        console := { s.console with taken := s.console.taken + line.length } }) := by
  induction n generalizing i s with
  | zero => rfl
  | succ n ih =>
    have hshift : (fun j => typed (s.console.taken + (j + 1))) = fun j => typed (s.console.taken + 1 + j) :=
      shift_succ typed s.console.taken
    have hindex : (fun j => offset buf (i + (j + 1))) = fun j => offset buf (i + 1 + j) := by
      funext j
      rw [Nat.add_right_comm, Nat.add_assoc]
    rw [readLoop, takeLine]
    simp only [Console.uartGetc, Function.update_self, Nat.add_zero]
    by_cases hc : typed s.console.taken = byte '\n'
    · rw [if_pos hc, if_pos hc]
      rfl
    · rw [if_neg hc, if_neg hc, ih]
      simp only [List.length_cons, storeLoop_front, hshift, hindex, Nat.add_zero, Nat.add_assoc, Nat.add_comm 1]

theorem offset_inj {buf : Word} {i j : Nat} (hi : i < 2^64) (hj : j < 2^64) (h : offset buf i = offset buf j) :
    i = j := by
  have hn := congrArg BitVec.toNat (BitVec.add_right_inj buf |>.mp h)
  rwa [BitVec.toNat_ofNat, BitVec.toNat_ofNat, Nat.mod_eq_of_lt hi, Nat.mod_eq_of_lt hj] at hn

theorem bufferBytes_stored {user : Bytes} {buf : Word} {g : Nat → Byte} {k : Nat} (hk : k ≤ 2^64) :
    bufferBytes (storeLoop (offset buf) g k user) buf k = (List.range k).map g := by
  refine List.map_congr_left fun j hj => ?_
  have hlt := List.mem_range.mp hj
  refine storeLoop_at (f := offset buf) hlt ?_
  intro i hi he
  exact offset_inj (by omega) (by omega) he

/-- A read takes the next line off the input, no longer than its buffer, and returns its length. -/
theorem sysRead_eq {num : Word} (hnum : syscallOf num = .sysRead) (buf len x : Word) (s : SysState δ) :
    let line := takeLine len.toNat fun j => typed (s.console.taken + j)
    syscallHandler l typed num buf len x s = (BitVec.ofNat 64 line.length,
      { s with
        user := storeLoop (offset buf) (fun j => typed (s.console.taken + j)) line.length s.user
        console := { s.console with taken := s.console.taken + line.length } }) := by
  intro line
  simp only [syscallHandler, hnum, readLoop_eq, Nat.zero_add, line]

theorem read_delivers {num : Word} (hnum : syscallOf num = .sysRead) (buf len x : Word) :
    (delivered l typed s (.syscall num buf len x)).1 = takeLine len.toNat fun j => typed (s.console.taken + j) := by
  have hle := takeLine_length_le len.toNat fun j => typed (s.console.taken + j)
  have hlen := len.isLt
  simp only [delivered, SysState.step, if_pos hnum, sysRead_eq hnum, BitVec.toNat_ofNat]
  rw [Nat.mod_eq_of_lt (by omega), bufferBytes_stored (by omega), takeLine_segment]
  simp [stretch]

theorem writeLoop_eq (user : Bytes) (buf : Word) (n : Nat) (c : Console) :
    writeLoop user buf n c = { c with out := c.out ++ (bufferBytes user buf n).map Output.putc } := by
  induction n with
  | zero => simp [writeLoop, bufferBytes]
  | succ n ih =>
    simp only [writeLoop, List.range_succ, List.foldl_append, List.foldl_cons, List.foldl_nil] at ih ⊢
    rw [ih]
    simp [bufferBytes, Console.uartPutc, List.range_succ]

theorem chars_append (xs : List Output) (c : Console) :
    Console.chars { c with out := c.out ++ xs } = c.chars ++ xs.flatMap Output.char := List.flatMap_append

theorem kmallocPrints_char (size : Word) (mm : Mm) : (kmallocPrints l size mm).flatMap Output.char = [] := by
  unfold kmallocPrints
  split <;> rfl

theorem vfsOpenPrints_char (path : Nat → Byte) (v : Vfs δ) : (vfsOpenPrints l path v).flatMap Output.char = [] := by
  unfold vfsOpenPrints
  split
  · rfl
  · dsimp only
    rw [List.flatMap_append, kmallocPrints_char, List.nil_append]
    split
    · rfl
    · exact kmallocPrints_char _ _

/-- Only a read takes characters off the input. -/
theorem delivered_step (e : SysEvent) :
    (delivered l typed s e).1 = stretch typed s.console.taken (delivered l typed s e).1.length ∧
    (delivered l typed s e).2.console.taken = s.console.taken + (delivered l typed s e).1.length := by
  cases e with
  | sched c => exact ⟨rfl, rfl⟩
  | store a c => exact ⟨rfl, rfl⟩
  | syscall num buf len x =>
    by_cases hnum : syscallOf num = .sysRead
    · rw [read_delivers hnum]
      refine ⟨takeLine_segment _ _, ?_⟩
      simp only [delivered, SysState.step, sysRead_eq hnum]
    · have hnone : (delivered l typed s (.syscall num buf len x)).1 = [] := if_neg hnum
      rw [hnone]
      refine ⟨rfl, ?_⟩
      cases hcall : syscallOf num with
      | sysRead => exact absurd hcall hnum
      | sysWrite => simp [delivered, SysState.step, syscallHandler, hcall, writeLoop_eq]
      | sysGetpid =>
        simp only [delivered, SysState.step, syscallHandler, hcall]
        split <;> rfl
      | _ => simp [delivered, SysState.step, syscallHandler, hcall, SysState.printf, Console.printf]

/-- Only a write puts single characters out. -/
theorem written_step (e : SysEvent) :
    (written l typed s e).2.console.chars = s.console.chars ++ (written l typed s e).1 := by
  cases e with
  | sched c => exact (List.append_nil _).symm
  | store a c => exact (List.append_nil _).symm
  | syscall num buf len x =>
    by_cases hnum : syscallOf num = .sysWrite
    · simp only [written, SysState.step, syscallHandler, hnum, if_true, writeLoop_eq, chars_append, List.flatMap_map]
      congr 1
      exact List.flatMap_singleton' _
    · have hnone : (written l typed s (.syscall num buf len x)).1 = [] := if_neg hnum
      rw [hnone, List.append_nil]
      cases hcall : syscallOf num with
      | sysWrite => exact absurd hcall hnum
      | sysRead =>
        simp only [written, SysState.step, sysRead_eq hcall]
        rfl
      | sysOpen =>
        simp only [written, SysState.step, syscallHandler, hcall, chars_append, vfsOpenPrints_char, List.append_nil]
      | sysClose => simp only [written, SysState.step, syscallHandler, hcall]
      | sysYield => simp only [written, SysState.step, syscallHandler, hcall]
      | sysGetpid =>
        simp only [written, SysState.step, syscallHandler, hcall]
        split <;> rfl
      | _ =>
        simp only [written, SysState.step, syscallHandler, hcall, SysState.printf, Console.printf, chars_append]
        exact List.append_nil _

theorem takeLine_ends (n : Nat) (a : Nat → Byte) : byte '\n' ∉ (takeLine n a).dropLast ∧
    ((takeLine n a).length = n ∨ (takeLine n a).getLast? = some (byte '\n')) := by
  induction n generalizing a with
  | zero => exact ⟨List.not_mem_nil, .inl rfl⟩
  | succ n ih =>
    obtain ⟨hno, hend⟩ := ih fun i => a (i+1)
    rw [takeLine]
    split
    · next hc => exact ⟨List.not_mem_nil, .inr (congrArg some hc)⟩
    · next hc =>
      generalize takeLine n (fun i => a (i+1)) = line at hno hend
      cases line with
      | nil => exact ⟨List.not_mem_nil, hend.imp (congrArg Nat.succ) fun he => absurd he (by simp)⟩
      | cons c cs =>
        refine ⟨?_, hend.imp (congrArg Nat.succ) fun he => ?_⟩
        · rw [List.dropLast_cons_cons, List.mem_cons, not_or]
          exact ⟨Ne.symm hc, hno⟩
        · rwa [List.getLast?_cons_cons]

/-- In every run of system calls the reads together take a stretch of the input, each character
once and in order; each of them takes the next line, or as much of it as its buffer holds. The
writes together put out what was in their buffers. -/
theorem console_streams (l : Layout) (typed : Nat → Byte) (s : SysState δ) (events : List SysEvent) :
    let t := events.foldl (SysState.exec l typed) s
    let lines := (trace (delivered l typed) events s).1
    lines.flatten = stretch typed s.console.taken (t.console.taken - s.console.taken) ∧
    (∀ (k : Nat) (num buf len x : Word), events[k]? = some (.syscall num buf len x) → syscallOf num = .sysRead →
      ∃ line, lines[k]? = some line ∧ byte '\n' ∉ line.dropLast ∧
        (line.length = len.toNat ∨ line.getLast? = some (byte '\n'))) ∧
    t.console.chars = s.console.chars ++ (trace (written l typed) events s).1.flatten := by
  intro t lines
  have hstate (f : SysState δ → SysEvent → List Byte × SysState δ) (hf : ∀ s e, (f s e).2 = s.exec l typed e) :
      (trace f events s).2 = t := by
    rw [trace_state]
    exact congrArg (fun g => events.foldl g s) (funext fun s => funext fun e => hf s e)
  have hdelivered := hstate (delivered l typed) fun s e => by cases e <;> rfl
  have hwritten := hstate (written l typed) fun s e => by cases e <;> rfl
  refine ⟨?_, ?_, ?_⟩
  · obtain ⟨hstream, hpos⟩ := trace_stretch (p := fun s : SysState δ => s.console.taken)
      (fun s e => delivered_step (l := l) (s := s) e) events s
    rw [hdelivered] at hpos
    rw [hstream, hpos]
    simp
  · intro k num buf len x hk hnum
    have hread := trace_getElem? (delivered l typed) events s k
    rw [hk, Option.map_some, read_delivers hnum] at hread
    exact ⟨_, hread, takeLine_ends len.toNat _⟩
  · have hlog := trace_log (f := written l typed) (g := fun s => s.console.chars)
      (fun s e => written_step (s := s) e) events s
    rwa [hwritten] at hlog

end Streams

section Descriptors

variable {l : Layout} {typed : Nat → Byte} {s : SysState δ} {v : Vfs δ}

/-- The heap pointer is inside the heap. -/
def HeapBounded (l : Layout) (mm : Mm) : Prop :=
  l.heapStart.toNat ≤ mm.heapCurrent.toNat ∧ mm.heapCurrent.toNat ≤ l.heapEnd.toNat

/-- The descriptor that a `SYS_OPEN` returns. -/
def opened (l : Layout) (typed : Nat → Byte) (s : SysState δ) (e : SysEvent) : List Nat × SysState δ :=
  let r := s.step l typed e
  match e with
  | .syscall num _ _ _ => (if syscallOf num = .sysOpen ∧ r.1 ≠ syscallError then [r.1.toNat] else [], r.2)
  | .sched _ | .store _ _ => ([], r.2)

theorem vfsDestroyInode_mm (p : Word) (v : Vfs δ) : (vfsDestroyInode p v).mm = v.mm := by
  unfold vfsDestroyInode
  split
  · rfl
  · dsimp only
    split <;> rfl

theorem openDevice_mm (p : Word) (ops : FileOps δ) (v : Vfs δ) :
    ((openDevice p ops v).1 = p ∨ (openDevice p ops v).1 = 0#64) ∧ (openDevice p ops v).2.mm = v.mm := by
  unfold openDevice
  split
  · exact ⟨.inl rfl, rfl⟩
  · dsimp only
    split
    · exact ⟨.inr rfl, vfsDestroyInode_mm _ _⟩
    · exact ⟨.inl rfl, rfl⟩

/-- A closed file gives nothing back to the heap. -/
theorem vfsClose_mm (p : Word) (v : Vfs δ) : (vfsClose p v).2.mm = v.mm := by
  unfold vfsClose
  split
  · rfl
  · dsimp only
    split <;> exact vfsDestroyInode_mm _ _

theorem heapCurrent_ne_zero (hl : l.Linked) {mm : Mm} (h : HeapBounded l mm) : mm.heapCurrent ≠ 0#64 := by
  intro hz
  have hlow := h.1
  have hkernel := hl.kernel
  rw [hz, BitVec.toNat_zero] at hlow
  omega

theorem vfsCreateInode_heap (hl : l.Linked) (type : U32) (hv : HeapBounded l v.mm) :
    let r := vfsCreateInode l type v
    (r.1 = 0#64 ∧ r.2.mm = v.mm) ∨ (r.1 ≠ 0#64 ∧ r.2.mm.heapCurrent.toNat = v.mm.heapCurrent.toNat + 32 ∧
      HeapBounded l r.2.mm) := by
  intro r
  have hr : r = vfsCreateInode l type v := rfl
  rw [vfsCreateInode] at hr
  dsimp only at hr
  have hne := heapCurrent_ne_zero hl hv
  rcases kmalloc_case (l := l) (s := v.mm) (show (32#64).toNat < 2^32 by decide) hv.2 hl.ram with
    he | ⟨cur, he, _, hcur, hle⟩
  · rw [he, if_pos rfl] at hr
    rw [hr]
    exact .inl ⟨rfl, rfl⟩
  · rw [he, if_neg hne] at hr
    rw [hr]
    have hsize : (32#64).toNat = 32 := rfl
    rw [hsize] at hcur
    have hlow := hv.1
    exact .inr ⟨hne, hcur, by show l.heapStart.toNat ≤ cur.toNat; omega, hle⟩

/-- A new file takes 48 bytes of the heap, for itself and for its inode. -/
theorem vfsOpen_heap (hl : l.Linked) (path : Nat → Byte) (flags : U32) (hv : HeapBounded l v.mm) :
    let r := vfsOpen l path flags v
    HeapBounded l r.2.mm ∧ v.mm.heapCurrent.toNat ≤ r.2.mm.heapCurrent.toNat ∧ (r.1 = 0#64 ∨
      r.1 = v.mm.heapCurrent ∧ v.mm.heapCurrent.toNat + 48 ≤ r.2.mm.heapCurrent.toNat) := by
  intro r
  have hr : r = vfsOpen l path flags v := rfl
  rw [vfsOpen] at hr
  cases hfind : findDevice v (skipSlash path) with
  | none =>
    rw [hfind] at hr
    rw [hr]
    exact ⟨hv, Nat.le_refl _, .inl rfl⟩
  | some i =>
    rw [hfind] at hr
    dsimp only at hr
    rcases kmalloc_case (l := l) (s := v.mm) (show (16#64).toNat < 2^32 by decide) hv.2 hl.ram with
      he | ⟨cur, he, _, hcur, hle⟩
    · rw [he, if_pos rfl] at hr
      rw [hr]
      exact ⟨hv, Nat.le_refl _, .inl rfl⟩
    · have hsize : (16#64).toNat = 16 := rfl
      rw [hsize] at hcur
      have hlow := hv.1
      have hmid : HeapBounded l { v.mm with heapCurrent := cur } := ⟨by show _ ≤ cur.toNat; omega, hle⟩
      have hinode := vfsCreateInode_heap hl (v := { v with mm := { v.mm with heapCurrent := cur } }) vfsDev hmid
      rw [he] at hr
      dsimp only at hr
      generalize vfsCreateInode l vfsDev { v with mm := { v.mm with heapCurrent := cur } } = q at hr hinode
      rw [if_neg (heapCurrent_ne_zero hl hv)] at hr
      rcases hinode with ⟨hnull, hmm⟩ | ⟨hne, hnew, hbounded⟩
      · have hheap : r.2.mm = { v.mm with heapCurrent := cur } := by
          rw [hr, if_pos hnull]
          exact hmm
        have hzero : r.1 = 0#64 := by rw [hr, if_pos hnull]
        rw [hheap]
        exact ⟨hmid, by show _ ≤ cur.toNat; omega, .inl hzero⟩
      · rw [if_neg hne] at hr
        obtain ⟨ops, w, hw, hmm⟩ : ∃ ops w, r = openDevice v.mm.heapCurrent ops w ∧ w.mm = q.2.mm := ⟨_, _, hr, rfl⟩
        obtain ⟨hret, hkept⟩ := openDevice_mm v.mm.heapCurrent ops w
        rw [← hw] at hret hkept
        rw [hkept, hmm]
        have hgrown : v.mm.heapCurrent.toNat + 48 ≤ q.2.mm.heapCurrent.toNat := by
          rw [hnew]
          show _ ≤ cur.toNat + 32
          omega
        exact ⟨hbounded, by omega, hret.symm.imp_right fun he => ⟨he, hgrown⟩⟩

/-- No other call moves the heap. -/
theorem opened_other (typed : Nat → Byte) {num arg0 arg1 : Word} (x : Word) (hnum : syscallOf num ≠ .sysOpen) :
    (opened l typed s (.syscall num arg0 arg1 x)).2.vfs.mm = s.vfs.mm := by
  cases hcall : syscallOf num with
  | sysOpen => exact absurd hcall hnum
  | sysRead => simp only [opened, SysState.step, sysRead_eq hcall]
  | sysClose =>
    simp only [opened, SysState.step, syscallHandler, hcall]
    exact vfsClose_mm arg0 s.vfs
  | sysGetpid =>
    simp only [opened, SysState.step, syscallHandler, hcall]
    split <;> rfl
  | _ => simp only [opened, SysState.step, syscallHandler, hcall, SysState.printf]

/-- Only an open moves the heap, and a descriptor is where its file and inode lie. -/
theorem opened_step (hl : l.Linked) (hs : HeapBounded l s.vfs.mm) (e : SysEvent) :
    HeapBounded l (opened l typed s e).2.vfs.mm ∧
    (((opened l typed s e).1 = [] ∧
        s.vfs.mm.heapCurrent.toNat ≤ (opened l typed s e).2.vfs.mm.heapCurrent.toNat) ∨
      ((opened l typed s e).1 = [s.vfs.mm.heapCurrent.toNat] ∧
        s.vfs.mm.heapCurrent.toNat + 48 ≤ (opened l typed s e).2.vfs.mm.heapCurrent.toNat)) := by
  have hidle {t : SysState δ} (ht : t.vfs.mm = s.vfs.mm) :
      HeapBounded l t.vfs.mm ∧ s.vfs.mm.heapCurrent.toNat ≤ t.vfs.mm.heapCurrent.toNat := by
    rw [ht]
    exact ⟨hs, Nat.le_refl _⟩
  cases e with
  | sched c => exact ⟨hs, .inl ⟨rfl, Nat.le_refl _⟩⟩
  | store a c => exact ⟨hs, .inl ⟨rfl, Nat.le_refl _⟩⟩
  | syscall num arg0 arg1 x =>
    by_cases hnum : syscallOf num = .sysOpen
    · obtain ⟨hbounded, hle, hcase⟩ := vfsOpen_heap hl (fun i => s.user (offset arg0 i)) (arg1.setWidth 32) hs
      have hvfs : (opened l typed s (.syscall num arg0 arg1 x)).2.vfs =
          (vfsOpen l (fun i => s.user (offset arg0 i)) (arg1.setWidth 32) s.vfs).2 := by
        simp only [opened, SysState.step, syscallHandler, hnum]
      have hfd : (opened l typed s (.syscall num arg0 arg1 x)).1 =
          let r := (vfsOpen l (fun i => s.user (offset arg0 i)) (arg1.setWidth 32) s.vfs).1
          let fd := if r = 0#64 then syscallError else r
          if fd ≠ syscallError then [fd.toNat] else [] := by
        simp only [opened, SysState.step, syscallHandler, hnum, true_and]
      rw [hvfs, hfd]
      refine ⟨hbounded, ?_⟩
      rcases hcase with hnull | ⟨hptr, hgrown⟩
      · rw [hnull]
        exact .inl ⟨rfl, hle⟩
      · have herror : s.vfs.mm.heapCurrent ≠ syscallError := by
          intro he
          have hhigh := hs.2
          have hram := hl.ram
          rw [he] at hhigh
          exact absurd (Nat.le_trans hhigh hram) (by decide)
        rw [hptr]
        dsimp only
        rw [if_neg (heapCurrent_ne_zero hl hs), if_pos herror]
        exact .inr ⟨rfl, hgrown⟩
    · have hnone : (opened l typed s (.syscall num arg0 arg1 x)).1 = [] := if_neg fun hb => hnum hb.1
      obtain ⟨hbounded, hle⟩ := hidle (opened_other typed x hnum)
      exact ⟨hbounded, .inl ⟨hnone, hle⟩⟩

/-- In every run of system calls the descriptors that are returned lie 48 bytes apart in the heap,
whatever is closed in between: none is returned twice, and the heap sets an end to their number. -/
theorem descriptors_spaced (hl : l.Linked) (hs : HeapBounded l s.vfs.mm) (events : List SysEvent) :
    let fds := (trace (opened l typed) events s).1.flatten
    fds.Pairwise (fun x y => x + 48 ≤ y) ∧ (∀ x ∈ fds, l.heapStart.toNat ≤ x ∧ x + 48 ≤ l.heapEnd.toNat) ∧
      48 * fds.length ≤ l.heapEnd.toNat - s.vfs.mm.heapCurrent.toNat := by
  intro fds
  obtain ⟨hbounded, hspaced, hwithin, hcount⟩ := trace_spaced (I := fun s : SysState δ => HeapBounded l s.vfs.mm)
    (m := fun s => s.vfs.mm.heapCurrent.toNat) (d := 48)
    (fun s e hs => opened_step hl hs e) events hs
  refine ⟨hspaced, ?_, ?_⟩
  · intro x hx
    obtain ⟨hlow, hhigh⟩ := hwithin x hx
    exact ⟨Nat.le_trans hs.1 hlow, Nat.le_trans hhigh hbounded.2⟩
  · have hend := hbounded.2
    have hroom := Nat.le_trans hcount hend
    exact (Nat.le_sub_iff_add_le' hs.2).mpr hroom

/-- A device `d` is opened, closed and opened again. -/
theorem descriptors_spaced_reopened :
    let ops : FileOps Unit := ⟨none, none, none, none, none⟩
    let v : Vfs Unit := ⟨fun _ => ⟨cstring [byte 'd'], ops, true⟩, 1#32, mmInit smallLayout fun _ => 7#64,
      fun _ => ⟨7#32, 7#32, 7#32, 7#32, none, 7#64⟩, fun _ => ⟨7#64, 7#32, 7#32⟩, ()⟩
    let s : SysState Unit := ⟨Sched.start, v, fun a => cstring [byte '/', byte 'd'] a.toNat, ⟨0, []⟩⟩
    let fds := (trace (opened smallLayout fun _ => byte 'x')
      [.syscall 5#64 0#64 0#64 0#64, .syscall 6#64 0x80600000#64 0#64 0#64, .syscall 5#64 0#64 0#64 0#64] s).1.flatten
    fds = [0x80600000, 0x80600030] ∧ fds.Pairwise (fun x y => x + 48 ≤ y) := by
  intro ops v s fds
  have hl : smallLayout.Linked := ⟨by decide, by decide, by decide, by decide⟩
  have hspaced := @descriptors_spaced _ smallLayout (fun _ => byte 'x') s hl
    ⟨Nat.le_refl _, by decide⟩
    [.syscall 5#64 0#64 0#64 0#64, .syscall 6#64 0x80600000#64 0#64 0#64, .syscall 5#64 0#64 0#64 0#64]
  exact ⟨by decide +kernel, hspaced.1⟩

end Descriptors

end RiscvOs.Syscalls
