import RiscvOs.CStrings
import RiscvOs.Devices
set_option autoImplicit false

/-!
The shell of `kernel/main.c`: a line editor over a buffer that is never cleared, and a
dispatcher that compares the buffer with the keywords byte by byte.
-/

namespace RiscvOs.Shell
open CStrings Devices WordMemory PageAlloc Vm Runs

def shellBufferSize : Nat := 128

/-- `buffer` and `pos` of `run_shell`. -/
structure Editor where
  buffer : Nat → Byte
  pos : Nat

/-- What the shell does to the devices. -/
inductive Event where
  | getc
  | putc (c : Byte)
  | poweroff (v : BitVec 32)

/-- `printf` of a text without conversions. -/
def printf (text : List Char) : List Event :=
  text.flatMap fun c => if c = '\n' then [.putc (byte '\r'), .putc (byte '\n')] else [.putc (byte c)]

inductive Command where
  | help | ps | sched | info | testdev | test | reboot
  | echo (text : Nat → Byte)
  | unknown (text : Nat → Byte)

/-- The comparison of the buffer with a keyword and its terminator. -/
def isCommand (buffer : Nat → Byte) (kw : List Char) : Bool := startsWith buffer (kw.map byte ++ [0#8])

def dispatch (e : Editor) : Command :=
  if isCommand e.buffer ['h', 'e', 'l', 'p'] then .help
  else if isCommand e.buffer ['p', 's'] then .ps
  else if isCommand e.buffer ['s', 'c', 'h', 'e', 'd'] then .sched
  else if isCommand e.buffer ['i', 'n', 'f', 'o'] then .info
  else if isCommand e.buffer ['t', 'e', 's', 't', 'd', 'e', 'v'] then .testdev
  else if isCommand e.buffer ['t', 'e', 's', 't'] then .test
  else if startsWith e.buffer (['e', 'c', 'h', 'o'].map byte) && 4 < e.pos && e.buffer 4 == byte ' ' then
    .echo fun i => e.buffer (5 + i)
  else if isCommand e.buffer ['r', 'e', 'b', 'o', 'o', 't'] then .reboot
  else .unknown e.buffer

/-- The part of the line reader for a character that does not end the line. -/
def editKey (e : Editor) (c : Byte) : Editor × List Event :=
  if c = 8#8 ∨ c = 127#8 then
    if 0 < e.pos then ({ e with pos := e.pos - 1 }, printf ['\x08', ' ', '\x08']) else (e, [])
  else if 32#8 ≤ c ∧ c < 127#8 then
    if e.pos < shellBufferSize - 1 then
      (⟨Function.update e.buffer e.pos c, e.pos + 1⟩, [.putc c])
    else (e, [])
  else (e, [])

def isEnter (c : Byte) : Bool := c == 13#8 || c == 10#8

section Loop

-- The characters each command prints.
variable (out : Command → List Byte)

def runCommand (cmd : Command) : List Event :=
  (out cmd).map .putc ++ match cmd with
    | .reboot => [.poweroff 0x5555#32]
    | _ => []

/-- One character: an edit, or the end of the line, the command and the next prompt. -/
def shellStep (e : Editor) (c : Byte) : Editor × List Event :=
  if isEnter c then
    let e := { e with buffer := Function.update e.buffer e.pos 0#8 }
    ({ e with pos := 0 }, .getc :: printf ['\n'] ++
      (if e.pos = 0 then [] else runCommand out (dispatch e)) ++ printf ['>', ' '])
  else
    let r := editKey e c
    (r.1, .getc :: r.2)

def shellLoop : Editor → List Byte → List Event
  | _, [] => []
  | e, c :: cs => (shellStep out e c).2 ++ shellLoop (shellStep out e c).1 cs

/-- The shell from its start on, over the characters typed; `buffer` has any contents. -/
def runShell (buffer : Nat → Byte) (typed : List Byte) : List Event :=
  printf "[SHELL] Starting simple shell\n".toList ++
    printf "Type 'help' for available commands\n".toList ++ printf ['>', ' '] ++
    shellLoop out ⟨buffer, 0⟩ typed

end Loop

section Editing

/-- What a key does to the text of the line. -/
def typeKey (text : List Byte) (c : Byte) : List Byte :=
  if c = 8#8 ∨ c = 127#8 then text.dropLast
  else if (32#8 ≤ c ∧ c < 127#8) ∧ text.length < shellBufferSize - 1 then text ++ [c]
  else text

/-- The texts of the lines that were ended, the first of them going on from `text`. -/
def typedLines : List Byte → List Byte → List (List Byte)
  | _, [] => []
  | text, c :: cs => if isEnter c then text :: typedLines [] cs else typedLines (typeKey text c) cs

/-- The text is in the buffer up to `pos`. -/
structure Editor.Holds (e : Editor) (text : List Byte) : Prop where
  pos : e.pos = text.length
  short : text.length < shellBufferSize
  get : ∀ i, (hi : i < text.length) → e.buffer i = text[i]
  nonzero : 0#8 ∉ text

variable {e : Editor} {text : List Byte}

theorem Editor.Holds.empty (buffer : Nat → Byte) : Editor.Holds ⟨buffer, 0⟩ [] :=
  ⟨rfl, by decide, by simp, by simp⟩

theorem Editor.Holds.erase (h : e.Holds text) : Editor.Holds ⟨e.buffer, e.pos - 1⟩ text.dropLast := by
  have hlen := h.short
  refine ⟨?_, ?_, ?_, fun hm => h.nonzero ((List.dropLast_sublist text).subset hm)⟩
  · rw [h.pos, List.length_dropLast]
  · rw [List.length_dropLast]
    omega
  · intro i hi
    rw [List.length_dropLast] at hi
    rw [List.getElem_dropLast]
    exact h.get i (by omega)

theorem Editor.Holds.insert (h : e.Holds text) {c : Byte} (hc : c ≠ 0#8)
    (hroom : text.length < shellBufferSize - 1) :
    Editor.Holds ⟨Function.update e.buffer e.pos c, e.pos + 1⟩ (text ++ [c]) := by
  refine ⟨?_, ?_, ?_, ?_⟩
  · rw [List.length_append, h.pos]
    rfl
  · simp only [List.length_append, List.length_cons, List.length_nil, shellBufferSize] at *
    omega
  · intro i hi
    rw [h.pos]
    by_cases he : i = text.length
    · subst he
      simp
    · rw [List.length_append, List.length_singleton] at hi
      have hlt : i < text.length := by omega
      rw [List.getElem_append_left hlt, ← h.get i hlt]
      exact Function.update_of_ne he ..
  · simpa [h.nonzero] using Ne.symm hc

theorem Editor.Holds.editKey (h : e.Holds text) (c : Byte) : (editKey e c).1.Holds (typeKey text c) := by
  by_cases hdel : c = 8#8 ∨ c = 127#8
  · rw [Shell.editKey, typeKey, if_pos hdel, if_pos hdel]
    by_cases hpos : 0 < e.pos
    · rw [if_pos hpos]
      exact h.erase
    · have hnil : text = [] := List.length_eq_zero_iff.mp (by have hp := h.pos; omega)
      rw [if_neg hpos]
      simpa [hnil] using h
  · by_cases hprint : 32#8 ≤ c ∧ c < 127#8
    · have hc : c ≠ 0#8 := by
        rintro rfl
        exact absurd hprint.1 (by decide)
      rw [Shell.editKey, typeKey, if_neg hdel, if_neg hdel, if_pos hprint, h.pos]
      by_cases hroom : text.length < shellBufferSize - 1
      · rw [if_pos hroom, if_pos ⟨hprint, hroom⟩, ← h.pos]
        exact h.insert hc hroom
      · rw [if_neg hroom, if_neg fun hb => hroom hb.2]
        exact h
    · rw [Shell.editKey, typeKey, if_neg hdel, if_neg hdel, if_neg hprint, if_neg fun hb => hprint hb.1]
      exact h

/-- At the end of the line the buffer is the C string of the text. -/
theorem Editor.Holds.spells (h : e.Holds text) : Spells (Function.update e.buffer e.pos 0#8) text := by
  refine .of_get h.nonzero ?_ ?_
  · intro i hi
    rw [Function.update_of_ne (by rw [h.pos]; omega)]
    exact h.get i hi
  · rw [h.pos, Function.update_self]

end Editing

section Reboot

def rebootText : List Byte := ['r', 'e', 'b', 'o', 'o', 't'].map byte

theorem isCommand_iff {buffer : Nat → Byte} {text : List Byte} (h : Spells buffer text) {kw : List Char}
    (hkw : 0#8 ∉ kw.map byte) : isCommand buffer kw = true ↔ text = kw.map byte :=
  h.startsWith_iff hkw

/-- Only the line `reboot` is dispatched to the command of this name. -/
theorem dispatch_reboot_iff {e : Editor} {text : List Byte} (h : Spells e.buffer text) :
    dispatch e = .reboot ↔ text = rebootText := by
  constructor
  · intro hd
    simp only [dispatch] at hd
    repeat' split at hd
    all_goals first
      | cases hd; done
      | exact (isCommand_iff h (by decide)).mp ‹_›
  · intro ht
    have hother (kw : List Char) (hkw : 0#8 ∉ kw.map byte) (hne : rebootText ≠ kw.map byte) :
        isCommand e.buffer kw = false := by
      rw [Bool.eq_false_iff, ne_eq, isCommand_iff h hkw, ht]
      exact hne
    have hfirst : e.buffer 0 = byte 'r' := by
      subst ht
      exact h.1
    have hecho : startsWith e.buffer (['e', 'c', 'h', 'o'].map byte) = false := by
      simp [startsWith, hfirst, byte]
    have hreboot : isCommand e.buffer ['r', 'e', 'b', 'o', 'o', 't'] = true :=
      (isCommand_iff h (by decide)).mpr ht
    simp only [dispatch, hother ['h', 'e', 'l', 'p'] (by decide) (by decide),
      hother ['p', 's'] (by decide) (by decide), hother ['s', 'c', 'h', 'e', 'd'] (by decide) (by decide),
      hother ['i', 'n', 'f', 'o'] (by decide) (by decide),
      hother ['t', 'e', 's', 't', 'd', 'e', 'v'] (by decide) (by decide),
      hother ['t', 'e', 's', 't'] (by decide) (by decide), hecho, hreboot]
    simp

def Event.isPoweroff : Event → Bool
  | .poweroff _ => true
  | _ => false

@[simp] theorem isPoweroff_getc : Event.getc.isPoweroff = false := rfl

@[simp] theorem isPoweroff_putc (c : Byte) : (Event.putc c).isPoweroff = false := rfl

@[simp] theorem isPoweroff_poweroff (v : BitVec 32) : (Event.poweroff v).isPoweroff = true := rfl

@[simp] theorem printf_any (text : List Char) : (printf text).any Event.isPoweroff = false := by
  simp only [printf, List.any_flatMap, List.any_eq_false]
  intro c _
  split <;> simp

@[simp] theorem editKey_any (e : Editor) (c : Byte) : (editKey e c).2.any Event.isPoweroff = false := by
  simp only [editKey]
  repeat' split
  all_goals simp

variable {out : Command → List Byte} {e : Editor} {text : List Byte}

theorem runCommand_any {cmd : Command} :
    (runCommand out cmd).any Event.isPoweroff = true ↔ cmd = .reboot := by
  cases cmd <;> simp [runCommand]

theorem shellStep_holds (out : Command → List Byte) (h : e.Holds text) (c : Byte) :
    (shellStep out e c).1.Holds (if isEnter c then [] else typeKey text c) := by
  by_cases hc : isEnter c = true
  · simp only [shellStep, hc, if_true]
    exact .empty _
  · simp only [shellStep, hc, Bool.false_eq_true, if_false]
    exact h.editKey c

theorem shellStep_any (h : e.Holds text) (c : Byte) :
    (shellStep out e c).2.any Event.isPoweroff = true ↔ isEnter c = true ∧ text = rebootText := by
  by_cases hc : isEnter c = true
  · have hd := dispatch_reboot_iff (e := { e with buffer := Function.update e.buffer e.pos 0#8 }) h.spells
    by_cases hpos : e.pos = 0
    · have hnil : text = [] := List.length_eq_zero_iff.mp (h.pos ▸ hpos)
      simp [shellStep, hc, hpos, hnil, rebootText]
    · simp only [shellStep, hc, hpos, if_true, if_false, List.cons_append, List.any_cons, List.any_append,
        isPoweroff_getc, printf_any, Bool.false_or, Bool.or_false, runCommand_any, hd, true_and]
  · simp [shellStep, hc, -List.any_eq_true]

/-- The shell writes to the test device exactly when a line `reboot` is typed. -/
theorem shellLoop_any (out : Command → List Byte) {typed : List Byte} (h : e.Holds text) :
    (shellLoop out e typed).any Event.isPoweroff = true ↔ rebootText ∈ typedLines text typed := by
  induction typed generalizing e text with
  | nil => simp [shellLoop, typedLines]
  | cons c cs ih =>
    have hrec := ih (shellStep_holds out h c)
    rw [shellLoop, List.any_append, Bool.or_eq_true, shellStep_any h c, hrec, typedLines]
    by_cases hc : isEnter c = true
    · simp [hc, eq_comm]
    · simp [hc]

theorem runShell_any (out : Command → List Byte) (buffer : Nat → Byte) (typed : List Byte) :
    (runShell out buffer typed).any Event.isPoweroff = true ↔ rebootText ∈ typedLines [] typed := by
  rw [← shellLoop_any out (.empty buffer)]
  simp [runShell]

end Reboot

section Mapped

/-- What the device code of the kernel can be called for. -/
inductive DeviceOp where
  | uartPutc | uartGetc | plicInit | plicClaim | rtcGetTime
  | plicEnable (irq : BitVec 32)
  | plicDisable (irq : BitVec 32)
  | plicComplete (irq : BitVec 32)
  | shell (buffer : Nat → Byte) (typed : List Byte)

def Event.accesses : Event → List Access
  | .getc => Devices.uartGetc
  | .putc _ => Devices.uartPutc
  | .poweroff _ => [store qemuVirtTest 4]

def DeviceOp.accesses (out : Command → List Byte) : DeviceOp → List Access
  | .uartPutc => Devices.uartPutc
  | .uartGetc => Devices.uartGetc
  | .plicInit => Devices.plicInit
  | .plicClaim => Devices.plicClaim
  | .rtcGetTime => Devices.rtcGetTime
  | .plicEnable irq => Devices.plicEnable irq
  | .plicDisable irq => Devices.plicDisable irq
  | .plicComplete _ => Devices.plicComplete
  | .shell buffer typed => (runShell out buffer typed).flatMap Event.accesses

def DeviceOp.IrqBelow (n : Nat) : DeviceOp → Prop
  | .plicEnable irq | .plicDisable irq | .plicComplete irq => irq.toNat < n
  | _ => True

/-- Neither the clock is read nor a line `reboot` typed. -/
def DeviceOp.LeavesOutRtcAndReboot : DeviceOp → Prop
  | .rtcGetTime => False
  | .shell _ typed => rebootText ∉ typedLines [] typed
  | _ => True

theorem rtc_not_inMap : ¬ (load rtcBase 4).InMap := not_inMap (by decide) (by decide)

theorem poweroff_not_inMap : ¬ (store qemuVirtTest 4).InMap := not_inMap (by decide) (by decide)

theorem event_inMap_iff (ev : Event) : (∀ a ∈ ev.accesses, a.InMap) ↔ ev.isPoweroff = false := by
  cases ev with
  | getc => simpa [Event.accesses] using fun a ha => uart_inMap a (List.mem_append_right _ ha)
  | putc c => simpa [Event.accesses] using fun a ha => uart_inMap a (List.mem_append_left _ ha)
  | poweroff v => simpa [Event.accesses] using poweroff_not_inMap

theorem accesses_inMap_iff (out : Command → List Byte) (op : DeviceOp) (hirq : op.IrqBelow 1024) :
    (∀ a ∈ op.accesses out, a.InMap) ↔ op.LeavesOutRtcAndReboot := by
  have huart := uart_inMap
  have hplic (irq : BitVec 32) (h : irq.toNat < 1024) := plic_inMap h
  simp only [List.forall_mem_append] at huart hplic
  cases op with
  | uartPutc => exact iff_of_true huart.1 trivial
  | uartGetc => exact iff_of_true huart.2 trivial
  | plicInit => exact iff_of_true (hplic 0#32 (by decide)).1.1.1.1 trivial
  | plicEnable irq => exact iff_of_true (hplic irq hirq).1.1.1.2 trivial
  | plicDisable irq => exact iff_of_true (hplic irq hirq).1.1.2 trivial
  | plicClaim => exact iff_of_true (hplic 0#32 (by decide)).1.2 trivial
  | plicComplete irq => exact iff_of_true (hplic irq hirq).2 trivial
  | rtcGetTime => exact iff_of_false (fun h => rtc_not_inMap (h _ (.head _))) id
  | shell buffer typed =>
    have hany := runShell_any out buffer typed
    simp only [DeviceOp.accesses, DeviceOp.LeavesOutRtcAndReboot, ← hany, List.forall_mem_flatMap,
      event_inMap_iff]
    simp

/-- After `kvminit`, and whatever the clients of the allocator do, an access is translated to
itself when it is in one of the ranges. -/
theorem mapped_iff {l : Layout} {mem : Mem} {pt : Word} {mm : Mm} {calls : List AllocCall} {s : AllocSys}
    (hl : l.InRam) (hret : kvminit (mmInit l mem) = .ret (pt, mm))
    (hrun : Run (guarded AllocSys.Ok AllocSys.exec) ⟨mm, []⟩ calls s) (a : Access) :
    Mapped s.mm (kvminithart pt) a ↔ a.InMap := by
  have hinv := hrun.guarded_invariant (KernelInv (roundUp l.heapEnd.toNat) pt)
    (fun s c hs hok => hs.exec hl.roundUp_pos hok) (kvminit_inv hl hret)
  exact identityMap_mapped_iff (hinv.identityMap hl.roundUp_pos) (satpRoot_kvminithart hinv.root_isPage) a

/-- The kernel page table covers every register that the device code uses, but for the clock
of `rtc_get_time` and the test device of `reboot`. -/
theorem device_registers_mapped_iff {l : Layout} {mem : Mem} {pt : Word} {mm : Mm}
    {calls : List AllocCall} {s : AllocSys} (hl : l.InRam)
    (hret : kvminit (mmInit l mem) = .ret (pt, mm))
    (hrun : Run (guarded AllocSys.Ok AllocSys.exec) ⟨mm, []⟩ calls s) (out : Command → List Byte)
    (op : DeviceOp) (hirq : op.IrqBelow 1024) :
    (∀ a ∈ op.accesses out, Mapped s.mm (kvminithart pt) a) ↔ op.LeavesOutRtcAndReboot := by
  simp only [mapped_iff hl hret hrun]
  exact accesses_inMap_iff out op hirq

theorem device_registers_mapped_irq10 : ∃ pt mm, kvminit (mmInit bootLayout fun _ => 7#64) = .ret (pt, mm) ∧
    ∀ a ∈ DeviceOp.accesses (fun _ => []) (.plicEnable 10#32), Mapped mm (kvminithart pt) a := by
  have hl : bootLayout.InRam := by decide
  obtain ⟨pt, mm, hret⟩ := kvminit_returns hl (fun _ => 7#64) (by decide)
  have hrun : Run (guarded AllocSys.Ok AllocSys.exec) ⟨mm, []⟩ [] ⟨mm, []⟩ := rfl
  exact ⟨pt, mm, hret, (device_registers_mapped_iff hl hret hrun (fun _ => []) (.plicEnable 10#32)
    (show 10 < 1024 by decide)).mpr trivial⟩

/-- After boot, `rtc_get_time` and the typed line `reboot` both use an address without a mapping. -/
theorem rtc_and_reboot_unmapped : ∃ pt mm, kvminit (mmInit bootLayout fun _ => 7#64) = .ret (pt, mm) ∧
    (∃ a ∈ DeviceOp.accesses (fun _ => []) .rtcGetTime, ¬ Mapped mm (kvminithart pt) a) ∧
    ∃ a ∈ DeviceOp.accesses (fun _ => []) (.shell (fun _ => 0#8) (rebootText ++ [13#8])),
      ¬ Mapped mm (kvminithart pt) a := by
  have hl : bootLayout.InRam := by decide
  obtain ⟨pt, mm, hret⟩ := kvminit_returns hl (fun _ => 7#64) (by decide)
  have hrun : Run (guarded AllocSys.Ok AllocSys.exec) ⟨mm, []⟩ [] ⟨mm, []⟩ := rfl
  have hmapped (a : Access) := mapped_iff hl hret hrun a
  refine ⟨pt, mm, hret, ?_, ?_⟩
  · exact ⟨load rtcBase 4, .head _, (not_congr (hmapped _)).mpr rtc_not_inMap⟩
  · have hbad := (not_congr (accesses_inMap_iff (fun _ => [])
      (.shell (fun _ => 0#8) (rebootText ++ [13#8])) trivial)).mpr (fun h => h (by decide))
    simp only [← hmapped] at hbad
    simpa using hbad

end Mapped

end RiscvOs.Shell
