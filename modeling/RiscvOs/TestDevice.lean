import RiscvOs.WordMemory
import RiscvOs.Runs
set_option autoImplicit false

/-!
The test device of `drivers/testdev/testdev.c`: one buffer and one length for any number
of open files, each with an offset of its own. Lengths and offsets are 32-bit unsigned
integers whose differences wrap around; every access to the buffer records the indices
it uses.
-/

namespace RiscvOs.TestDevice
open WordMemory Runs

def testdevSize : Nat := 1024

/-- `buffer` has the bytes from the start of `testdev_buffer` on, also those behind its end. -/
structure TestDev where
  buffer : Nat → BitVec 8
  len : BitVec 32

structure File where
  offset : BitVec 32
  deriving DecidableEq

/-- The indices that a copy loop of `count` rounds uses. -/
def span (offset : BitVec 32) (count : Word) : List Nat :=
  (List.range count.toNat).map (offset.toNat + ·)

/-- The copy loop of `testdev_write` after `n` rounds. -/
def copyIn (buffer : Nat → BitVec 8) (offset : Nat) (buf : Nat → BitVec 8) : Nat → Nat → BitVec 8
  | 0 => buffer
  | n+1 => Function.update (copyIn buffer offset buf n) (offset + n) (buf n)

structure ReadResult where
  ret : BitVec 32
  data : List (BitVec 8)
  file : File
  used : List Nat

def testdevRead (dev : TestDev) (file : File) (count : Word) : ReadResult :=
  let available := dev.len - file.offset
  if available = 0#32 then ⟨0#32, [], file, []⟩
  else
    let count := if count > available.setWidth 64 then available.setWidth 64 else count
    let used := span file.offset count
    ⟨count.setWidth 32, used.map dev.buffer, ⟨(file.offset.setWidth 64 + count).setWidth 32⟩, used⟩

structure WriteResult where
  ret : BitVec 32
  dev : TestDev
  file : File
  used : List Nat

def testdevWrite (dev : TestDev) (file : File) (buf : Nat → BitVec 8) (count : Word) : WriteResult :=
  let space := BitVec.ofNat 32 testdevSize - file.offset
  if space = 0#32 then ⟨-1#32, dev, file, []⟩
  else
    let count := if count > space.setWidth 64 then space.setWidth 64 else count
    let offset := (file.offset.setWidth 64 + count).setWidth 32
    ⟨count.setWidth 32,
      ⟨copyIn dev.buffer file.offset.toNat buf count.toNat,
        if offset > dev.len then offset else dev.len⟩,
      ⟨offset⟩, span file.offset count⟩

def testdevSeek (file : File) (offset : BitVec 32) : BitVec 32 × File :=
  if offset > BitVec.ofNat 32 testdevSize then (-1#32, file) else (0#32, ⟨offset⟩)

/-- The device, the files open on it and all indices of the buffer used so far. -/
structure DevSys where
  dev : TestDev
  files : List File
  used : List Nat

inductive DevCall where
  | vfsOpen
  | read (h : Nat) (count : Word)
  | write (h : Nat) (buf : Nat → BitVec 8) (count : Word)
  | seek (h : Nat) (offset : BitVec 32)

def DevSys.exec (s : DevSys) : DevCall → DevSys
  | .vfsOpen => { s with files := s.files ++ [⟨0#32⟩] }
  | .read h count =>
    match s.files[h]? with
    | none => s
    | some file =>
      let r := testdevRead s.dev file count
      { s with files := s.files.set h r.file, used := s.used ++ r.used }
  | .write h buf count =>
    match s.files[h]? with
    | none => s
    | some file =>
      let r := testdevWrite s.dev file buf count
      ⟨r.dev, s.files.set h r.file, s.used ++ r.used⟩
  | .seek h offset =>
    match s.files[h]? with
    | none => s
    | some file => { s with files := s.files.set h (testdevSeek file offset).2 }

/-- The device after `testdev_init`, whatever the buffer holds. -/
def DevSys.start (buffer : Nat → BitVec 8) : DevSys := ⟨⟨buffer, 0#32⟩, [], []⟩

/-- Nothing outside the buffer was used, and the length and the offsets are within it. -/
structure Safe (s : DevSys) : Prop where
  used : ∀ i ∈ s.used, i < testdevSize
  len : s.dev.len.toNat ≤ testdevSize
  files : ∀ f ∈ s.files, f.offset.toNat ≤ testdevSize

/-- A read of `count` bytes that starts within the data or ends within the buffer. -/
def Fits (dev : TestDev) (file : File) (count : Word) : Prop :=
  file.offset.toNat ≤ dev.len.toNat ∨ file.offset.toNat + count.toNat ≤ testdevSize

instance (dev : TestDev) (file : File) (count : Word) : Decidable (Fits dev file count) :=
  inferInstanceAs (Decidable (_ ∨ _))

def ReadFits (s : DevSys) : DevCall → Prop
  | .read h count => ∀ f ∈ s.files[h]?, Fits s.dev f count
  | _ => True

instance (s : DevSys) : (c : DevCall) → Decidable (ReadFits s c)
  | .vfsOpen => inferInstanceAs (Decidable True)
  | .read h count => inferInstanceAs (Decidable (∀ f ∈ s.files[h]?, Fits s.dev f count))
  | .write _ _ _ => inferInstanceAs (Decidable True)
  | .seek _ _ => inferInstanceAs (Decidable True)

section Steps

variable {dev : TestDev} {file : File} {count : Word}

theorem mem_span {offset : BitVec 32} {count : Word} {i : Nat} :
    i ∈ span offset count ↔ offset.toNat ≤ i ∧ i < offset.toNat + count.toNat := by
  simp only [span, List.mem_map, List.mem_range]
  constructor
  · intro h
    obtain ⟨k, hk, rfl⟩ := h
    omega
  · intro h
    exact ⟨i - offset.toNat, by omega, by omega⟩

theorem span_lt {offset : BitVec 32} {count : Word} {n : Nat} :
    (∀ i ∈ span offset count, i < n) ↔ count.toNat = 0 ∨ offset.toNat + count.toNat ≤ n := by
  simp only [mem_span]
  constructor
  · intro h
    by_cases hz : count.toNat = 0
    · exact .inl hz
    · have hlast := h (offset.toNat + count.toNat - 1)
      omega
  · intro h i hi
    omega

theorem clamp_toNat (n : BitVec 32) (count : Word) :
    (if count > n.setWidth 64 then n.setWidth 64 else count).toNat = min count.toNat n.toNat := by
  have hn : (n.setWidth 64).toNat = n.toNat := by
    rw [BitVec.toNat_setWidth]
    omega
  split
  · rename_i h
    rw [gt_iff_lt, BitVec.lt_def, hn] at h
    omega
  · rename_i h
    rw [gt_iff_lt, BitVec.lt_def, hn] at h
    omega

theorem advance_toNat (offset : BitVec 32) (count : Word) :
    ((offset.setWidth 64 + count).setWidth 32).toNat = (offset.toNat + count.toNat) % 2^32 := by
  have ho := offset.isLt
  simp only [BitVec.toNat_setWidth, BitVec.toNat_add]
  omega

theorem sub_toNat (a b : BitVec 32) : (a - b).toNat = (a.toNat + 2^32 - b.toNat) % 2^32 := by
  have hb := b.isLt
  rw [BitVec.toNat_sub]
  omega

/-- The room that a write finds behind the offset. -/
theorem space_toNat (hoff : file.offset.toNat ≤ testdevSize) :
    (BitVec.ofNat 32 testdevSize - file.offset).toNat = testdevSize - file.offset.toNat := by
  have hsize : (BitVec.ofNat 32 testdevSize).toNat = testdevSize := by decide
  have hle : file.offset ≤ BitVec.ofNat 32 testdevSize := by
    rw [BitVec.le_def, hsize]
    exact hoff
  rw [BitVec.toNat_sub_of_le hle, hsize]

/-- A read stays within the buffer exactly when it fits. -/
theorem read_safe_iff (hlen : dev.len.toNat ≤ testdevSize)
    (hoff : file.offset.toNat ≤ testdevSize) :
    ((∀ i ∈ (testdevRead dev file count).used, i < testdevSize) ∧
      (testdevRead dev file count).file.offset.toNat ≤ testdevSize) ↔ Fits dev file count := by
  unfold testdevRead Fits
  have hsub := sub_toNat dev.len file.offset
  by_cases hz : dev.len - file.offset = 0#32
  · rw [hz, BitVec.toNat_zero] at hsub
    simp only [testdevSize] at *
    simp only [if_pos hz, List.not_mem_nil, false_implies, implies_true, true_and]
    omega
  · have hne : (dev.len - file.offset).toNat ≠ 0 := by
      intro h
      exact hz (BitVec.eq_of_toNat_eq h)
    simp only [if_neg hz, span_lt, advance_toNat, clamp_toNat]
    simp only [testdevSize] at *
    omega

theorem write_safe (buf : Nat → BitVec 8) (count : Word) (hlen : dev.len.toNat ≤ testdevSize)
    (hoff : file.offset.toNat ≤ testdevSize) :
    (∀ i ∈ (testdevWrite dev file buf count).used, i < testdevSize) ∧
      (testdevWrite dev file buf count).dev.len.toNat ≤ testdevSize ∧
      (testdevWrite dev file buf count).file.offset.toNat ≤ testdevSize := by
  unfold testdevWrite
  have hsub := space_toNat hoff
  by_cases hz : BitVec.ofNat 32 testdevSize - file.offset = 0#32
  · simp only [if_pos hz]
    exact ⟨by simp, hlen, hoff⟩
  · simp only [if_neg hz, span_lt]
    have hnew := clamp_toNat (BitVec.ofNat 32 testdevSize - file.offset) count
    -- the number of bytes that the loop copies
    generalize (if count > (BitVec.ofNat 32 testdevSize - file.offset).setWidth 64 then
      (BitVec.ofNat 32 testdevSize - file.offset).setWidth 64 else count) = n at *
    have hadv : file.offset.toNat + n.toNat ≤ testdevSize := by omega
    have hoffset : ((file.offset.setWidth 64 + n).setWidth 32).toNat ≤ testdevSize := by
      rw [advance_toNat]
      exact Nat.le_trans (Nat.mod_le _ _) hadv
    refine ⟨.inr hadv, ?_, hoffset⟩
    split
    · exact hoffset
    · exact hlen

theorem seek_safe (hoff : file.offset.toNat ≤ testdevSize) (offset : BitVec 32) :
    (testdevSeek file offset).2.offset.toNat ≤ testdevSize := by
  unfold testdevSeek
  split
  · exact hoff
  · rename_i h
    rw [gt_iff_lt, BitVec.lt_def] at h
    simpa [testdevSize] using h

end Steps

section Runs

variable {s : DevSys}

theorem Safe.start (buffer : Nat → BitVec 8) : Safe (DevSys.start buffer) :=
  ⟨by simp [DevSys.start], by simp [DevSys.start], by simp [DevSys.start]⟩

theorem Safe.file (h : Safe s) {k : Nat} {f : File} (hf : s.files[k]? = some f) :
    f.offset.toNat ≤ testdevSize :=
  h.files f (List.mem_of_getElem? hf)

/-- One file gets another offset and some more indices are used. -/
theorem Safe.set (h : Safe s) {dev : TestDev} {f : File} (k : Nat) (used : List Nat)
    (hlen : dev.len.toNat ≤ testdevSize) (hf : f.offset.toNat ≤ testdevSize)
    (hused : ∀ i ∈ used, i < testdevSize) : Safe ⟨dev, s.files.set k f, s.used ++ used⟩ := by
  refine ⟨?_, hlen, ?_⟩
  · intro i hi
    rcases List.mem_append.mp hi with hi | hi
    · exact h.used i hi
    · exact hused i hi
  · intro g hg
    rcases List.mem_or_eq_of_mem_set hg with hg | rfl
    · exact h.files g hg
    · exact hf

theorem Safe.read_iff (h : Safe s) {k : Nat} {f : File} (hf : s.files[k]? = some f)
    (count : Word) : Safe (s.exec (.read k count)) ↔ Fits s.dev f count := by
  rw [← read_safe_iff h.len (h.file hf)]
  simp only [DevSys.exec, hf]
  constructor
  · intro hs
    refine ⟨fun i hi => hs.used i (List.mem_append_right _ hi), ?_⟩
    apply hs.files
    exact List.mem_iff_getElem?.mpr ⟨k, by simp [(List.getElem?_eq_some_iff.mp hf).1]⟩
  · intro hr
    exact h.set k _ h.len hr.2 hr.1

theorem Safe.exec {c : DevCall} (h : Safe s) (hok : ReadFits s c) : Safe (s.exec c) := by
  cases c with
  | vfsOpen =>
    refine ⟨h.used, h.len, ?_⟩
    intro f hf
    rcases List.mem_append.mp hf with hf | hf
    · exact h.files f hf
    · simp [List.mem_singleton.mp hf]
  | read k count =>
    cases hf : s.files[k]? with
    | none => simpa [DevSys.exec, hf] using h
    | some f => exact (h.read_iff hf count).mpr (hok f hf)
  | write k buf count =>
    cases hf : s.files[k]? with
    | none => simpa [DevSys.exec, hf] using h
    | some f =>
      obtain ⟨hused, hlen, hoff⟩ := write_safe buf count h.len (h.file hf)
      simp only [DevSys.exec, hf]
      exact h.set k _ hlen hoff hused
  | seek k offset =>
    cases hf : s.files[k]? with
    | none => simpa [DevSys.exec, hf] using h
    | some f =>
      have hset := h.set k [] h.len (seek_safe (h.file hf) offset) (by simp)
      simpa [DevSys.exec, hf] using hset

end Runs

/-- In every run whose reads start within the data or end within the buffer, nothing outside
the buffer is used and the length and the offsets stay within it; a read that does neither
leaves the buffer. -/
theorem testdev_safe_iff {buffer : Nat → BitVec 8} {calls : List DevCall} {s : DevSys}
    (h : Run (guarded ReadFits DevSys.exec) (DevSys.start buffer) calls s) :
    Safe s ∧ ∀ k f count, s.files[k]? = some f →
      (Safe (s.exec (.read k count)) ↔ Fits s.dev f count) := by
  have hs : Safe s := by
    refine h.guarded_invariant Safe ?_ (Safe.start buffer)
    intro s c hs hok
    exact hs.exec hok
  exact ⟨hs, fun k f count hf => hs.read_iff hf count⟩

/-- Twenty bytes written through one file and read through another. -/
theorem testdev_safe_iff_two : ∃ s, Run (guarded ReadFits DevSys.exec) (DevSys.start fun _ => 0#8)
      [.vfsOpen, .vfsOpen, .write 0 (fun i => BitVec.ofNat 8 i) 20#64, .read 1 15#64] s ∧
    s.files = [⟨20#32⟩, ⟨15#32⟩] ∧ Safe s ∧ Safe (s.exec (.read 1 100#64)) := by
  have hrun := run_guarded_iff.mpr ⟨show Admissible ReadFits DevSys.exec (DevSys.start fun _ => 0#8)
    [.vfsOpen, .vfsOpen, .write 0 (fun i => BitVec.ofNat 8 i) 20#64, .read 1 15#64]
    by decide +kernel, rfl⟩
  obtain ⟨hsafe, hread⟩ := testdev_safe_iff hrun
  refine ⟨_, hrun, by decide +kernel, hsafe, ?_⟩
  exact (hread 1 ⟨15#32⟩ 100#64 (by decide +kernel)).mpr (by decide +kernel)

/-- Behind the data the number of available bytes wraps around. -/
theorem testdev_read_leaves_buffer :
    ∃ s, Run (guarded (fun _ _ => True) DevSys.exec) (DevSys.start fun _ => 0#8)
      [.vfsOpen, .seek 0 1000#32, .read 0 100#64] s ∧
    1024 ∈ s.used ∧ s.files = [⟨1100#32⟩] ∧ ¬ Safe s := by
  refine ⟨_, run_unguarded _ _, by decide +kernel, by decide +kernel, ?_⟩
  intro h
  exact absurd (h.used 1024 (by decide +kernel)) (by decide)

end RiscvOs.TestDevice
