import RiscvOs.KernelBoot
import RiscvOs.ShellLines
set_option autoImplicit false

/-!
Sessions of the shell: whatever is typed and whatever traps come in between, the kernel keeps what
its boot has set up until it halts. What halts it is an exception, also the one that `reboot` causes.
-/

namespace RiscvOs.KernelMain
open WordMemory CStrings PageAlloc Scheduler Uart Traps Syscalls

section Device

open TestDevice VirtualFs

variable {l : Layout} {δ : Type}

theorem vfsCreateInode_samePages (l : Layout) (type : VirtualFs.U32) (v : Vfs δ) :
    Vm.SamePages v.mm (vfsCreateInode l type v).2.mm := by
  simp only [vfsCreateInode]
  split <;> exact Vm.kmalloc_samePages l _ _

/-- `vfs_open` takes from the heap only. -/
theorem vfsOpen_samePages (l : Layout) (path : Nat → Byte) (flags : VirtualFs.U32) (v : Vfs δ) :
    Vm.SamePages v.mm (vfsOpen l path flags v).2.mm := by
  unfold vfsOpen
  split
  · exact .refl _
  · dsimp only
    have hfile := Vm.kmalloc_samePages l 16#64 v.mm
    -- the allocator must not be run
    generalize kmalloc l 16#64 v.mm = r at hfile ⊢
    have hinode := hfile.trans (vfsCreateInode_samePages l vfsDev { v with mm := r.2 })
    generalize vfsCreateInode l vfsDev { v with mm := r.2 } = q at hinode ⊢
    split
    · exact hfile
    · split
      · exact hinode
      · rw [(openDevice_mm _ _ _).2]
        exact hinode

theorem vfsClose_dev {s : Clients} {h : Word} (hs : Served l s) (hh : h ∈ s.handles) :
    (VirtualFs.vfsClose h s.vfs).2.dev = s.vfs.dev := by
  have hself : s.vfs.setFile h (s.vfs.files h) = s.vfs := by rw [Vfs.setFile, Function.update_eq_self]
  have hclose : VirtualFs.vfsClose h s.vfs = (0, { vfsDestroyInode (s.vfs.files h).inode s.vfs with
      mm := kfree h (vfsDestroyInode (s.vfs.files h).inode s.vfs).mm }) := by
    rw [VirtualFs.vfsClose, if_neg (hs.file h hh).1, (hs.inode h hh).2]
    simp only [Option.bind_some, testdevOps, Vfs.apply, hself]
  rw [hclose]
  exact (vfsDestroyInode_keeps (s.vfs.files h).inode s.vfs).2.1

/-- No call on an open file takes anything from the allocators. -/
theorem exec_mm {s : Clients} {h : Word} (hs : Served l s) (hh : h ∈ s.handles) :
    (∀ buf count, (vfsWrite h buf count s.vfs).2.mm = s.vfs.mm) ∧
    (∀ count, (vfsRead h count s.vfs).2.2.mm = s.vfs.mm ∧ (vfsRead h count s.vfs).2.2.dev = s.vfs.dev) ∧
    ∀ offset, (fileSeek h offset s.vfs).2.mm = s.vfs.mm ∧ (fileSeek h offset s.vfs).2.dev = s.vfs.dev := by
  refine ⟨fun buf count => ?_, fun count => ?_, fun offset => ?_⟩
  · rw [hs.vfsWrite_eq hh]
    rfl
  · rw [hs.vfsRead_eq hh]
    exact ⟨rfl, rfl⟩
  · rw [hs.fileSeek_eq hh]
    exact ⟨rfl, rfl⟩

theorem bytesOf_testData : bytesOf (cstring testData) (BitVec.ofNat 64 testData.length) = testData := by decide

/-- The test of the device when no call on the file fails. -/
theorem testdevIo_eq {k : Kernel} {file : Word} {w q : VirtualFs.U32 × Vfs TestDev}
    {r : VirtualFs.U32 × List Byte × Vfs TestDev}
    (hw : vfsWrite file (cstring testData) (BitVec.ofNat 64 testData.length) k.vfs = w) (hwrite : ¬ w.1.toInt < 0)
    (hq : fileSeek file 0#32 w.2 = q) (hseek : q.1 = 0#32) (hr : vfsRead file 64#64 q.2 = r)
    (hread : ¬ r.1.toInt < 0) :
    ∃ console, testdevIo file k = { k with vfs := (VirtualFs.vfsClose file r.2.2).2, console := console } := by
  simp only [testdevIo, Kernel.printf, Kernel.printAll, Kernel.vfsClose, hw, hwrite, hq, hseek, hr, hread, ne_eq,
    not_true, if_false]
  split <;> exact ⟨_, rfl⟩

/-- The test of the device on an open file. -/
theorem testdevIo_spec {k : Kernel} {file : Word} (h : Served l ⟨k.vfs, [file]⟩)
    (hcursor : (Clients.view ⟨k.vfs, [file]⟩).cursor file = some 0) :
    ∃ v console, testdevIo file k = { k with vfs := v, console := console } ∧ Served l ⟨v, []⟩ ∧
      v.mm = k.vfs.mm ∧ contents v.dev = testData ++ (contents k.vfs.dev).drop testData.length := by
  have hmem : file ∈ [file] := List.mem_cons_self
  obtain ⟨hret, hview, h₁⟩ := h.write hcursor (by decide) (cstring testData) (BitVec.ofNat 64 testData.length)
  have hmm₁ := (exec_mm h hmem).1 (cstring testData) (BitVec.ofNat 64 testData.length)
  simp only [Clients.exec] at hview h₁
  dsimp only at hmm₁ hret
  generalize hw : vfsWrite file (cstring testData) (BitVec.ofNat 64 testData.length) k.vfs = w at hret hview h₁ hmm₁
  rw [bytesOf_testData] at hret hview
  have hcursor₁ : (Clients.view ⟨w.2, [file]⟩).cursor file = some testData.length := by
    rw [hview]
    exact Function.update_self ..
  obtain ⟨hseek, hview₂, h₂⟩ := h₁.seek hcursor₁ (show (0#32).toNat ≤ _ from Nat.zero_le _)
  obtain ⟨hmm₂, hdev₂⟩ := (exec_mm h₁ hmem).2.2 0#32
  simp only [Clients.exec] at hview₂ h₂
  dsimp only at hseek hmm₂ hdev₂
  generalize hq : fileSeek file 0#32 w.2 = q at hseek hview₂ h₂ hmm₂ hdev₂
  have hcursor₂ : (Clients.view ⟨q.2, [file]⟩).cursor file = some 0 := by
    rw [hview₂]
    exact Function.update_self ..
  obtain ⟨_, hread, _, h₃⟩ := h₂.read hcursor₂ 64#64
  obtain ⟨hmm₃, hdev₃⟩ := (exec_mm h₂ hmem).2.1 64#64
  simp only [Clients.exec] at h₃
  dsimp only at hread hmm₃ hdev₃
  generalize hr : vfsRead file 64#64 q.2 = r at hread h₃ hmm₃ hdev₃
  obtain ⟨h₄, _⟩ := h₃.vfsClose hmem
  have hdev₄ := vfsClose_dev h₃ hmem
  simp only [Clients.exec] at h₄
  dsimp only at hdev₄
  obtain ⟨console, he⟩ := testdevIo_eq hw (by rw [hret]; omega) hq hseek hr (by rw [hread]; omega)
  refine ⟨_, console, he, by simpa using h₄, by rw [vfsClose_mm, hmm₃, hmm₂, hmm₁], ?_⟩
  have hdata : contents w.2.dev = ((Clients.view ⟨k.vfs, [file]⟩).put 0 testData).data :=
    congrArg SharedFiles.SharedFile.data hview
  rw [hdev₄, hdev₃, hdev₂, hdata]
  simp [SharedFiles.SharedFile.put, Clients.view]

theorem runTestdev_eq (l : Layout) (k : Kernel) {file : Word × Vfs TestDev}
    (hfile : vfsOpen l testdevPath 0#32 k.vfs = file) : ∃ console console', runTestdev l k =
      if file.1 = 0#64 then { k with vfs := file.2, console := console }
      else testdevIo file.1 { k with vfs := file.2, console := console' } := by
  simp only [runTestdev, Kernel.printf, Kernel.printAll, hfile]
  exact ⟨_, _, rfl⟩

/-- The command `testdev` leaves no file open, and its text in the device unless the heap is full. -/
theorem runTestdev_spec {k : Kernel} (hl : l.Linked) (h : Served l ⟨k.vfs, []⟩) :
    ∃ v console, runTestdev l k = { k with vfs := v, console := console } ∧ Served l ⟨v, []⟩ ∧
      Vm.SamePages k.vfs.mm v.mm ∧ (contents v.dev = contents k.vfs.dev ∨
        contents v.dev = testData ++ (contents k.vfs.dev).drop testData.length) := by
  have hpages := vfsOpen_samePages l testdevPath 0#32 k.vfs
  have hopen := h.vfsOpen hl testdevPath_spells 0#32
  dsimp only at hopen
  generalize hfile : vfsOpen l testdevPath 0#32 k.vfs = file at hpages hopen
  obtain ⟨console, console', he⟩ := runTestdev_eq l k hfile
  rcases hopen with ⟨hnull, hserved, hview⟩ | ⟨hne, _, hserved, hview⟩
  · rw [if_pos hnull] at he
    exact ⟨_, _, he, hserved, hpages, .inl (congrArg SharedFiles.SharedFile.data hview)⟩
  · rw [if_neg hne] at he
    obtain ⟨v, console'', hio, hserved', hmm, hdata⟩ := testdevIo_spec
      (k := { k with vfs := file.2, console := console' }) hserved (by rw [hview]; exact Function.update_self ..)
    have hcontents : contents file.2.dev = contents k.vfs.dev := congrArg SharedFiles.SharedFile.data hview
    dsimp only at hmm hdata
    rw [hcontents] at hdata
    exact ⟨v, console'', he.trans hio, hserved', by rw [hmm]; exact hpages, .inr hdata⟩

end Device

section Lasting

variable {l : Layout} {k₀ k : Kernel} {n : Nat}

/-- `n` ticks while no process has the CPU. -/
def ticked (n : Nat) (s : Sched) : Sched := { s with
  globalTicks := s.globalTicks + BitVec.ofNat 64 n
  cpu := { s.cpu with ticks := s.cpu.ticks + BitVec.ofNat 64 n } }

/-- What the shell keeps of the kernel `k₀` that has booted, after `n` timer interrupts. -/
structure Lasting (l : Layout) (k₀ : Kernel) (n : Nat) (k : Kernel) : Prop where
  pagetable : k.kernelPagetable = k₀.kernelPagetable
  space : KernelSpace (roundUp l.heapEnd.toNat) k.kernelPagetable k.vfs.mm
  pages : k.vfs.mm.numFreePages = k₀.vfs.mm.numFreePages
  device : TestDevice.Served l ⟨k.vfs, []⟩
  text : TestDevice.contents k.vfs.dev = [] ∨ TestDevice.contents k.vfs.dev = testData
  fs : k.fs = k₀.fs
  sched : k.sched = ticked n k₀.sched
  stvec : k.stvec = k₀.stvec
  poweredOff : k.poweredOff = false

theorem Lasting.start (h : InOrder l k) : Lasting l k 0 k where
  pagetable := rfl
  space := h.space
  pages := rfl
  device := h.device
  text := by
    left
    rw [TestDevice.contents, h.blank]
    rfl
  fs := rfl
  sched := by simp [ticked]
  stvec := rfl
  poweredOff := h.running.2

theorem Lasting.setConsole (h : Lasting l k₀ n k) (console : Console) : Lasting l k₀ n { k with console := console } :=
  ⟨h.pagetable, h.space, h.pages, h.device, h.text, h.fs, h.sched, h.stvec, h.poweredOff⟩

theorem ticked_succ {s : Sched} (hcur : s.cpu.current = none) : schedTick (ticked n s) = ticked (n+1) s := by
  have hnone : (ticked n s).cpu.current = none := hcur
  rw [schedTick, if_pos hnone, tickHead, hnone]
  simp only [ticked, BitVec.add_assoc, BitVec.ofNat_add]

/-- A trap that is no exception. -/
theorem Lasting.interrupt (h : Lasting l k₀ n k) (hcur : k₀.sched.cpu.current = none) {t : Trap}
    (hint : t.isInterrupt = true) :
    Lasting l k₀ (n + if t.isTimer then 1 else 0) { k with toTrapState := trapHandler t false k.toTrapState } := by
  obtain ⟨_, hsetup, hsched⟩ := trapHandler_interrupt (s := k.toTrapState) hint false
  refine ⟨h.pagetable, h.space, h.pages, h.device, h.text, h.fs, hsched.trans ?_, hsetup.stvec.trans h.stvec,
    h.poweredOff⟩
  rw [h.sched, TrapEvent.schedCalls]
  split
  · exact ticked_succ hcur
  · rfl

/-- An exception halts the kernel and leaves all else. -/
theorem Lasting.exception (h : Lasting l k₀ n k) {t : Trap} (hint : t.isInterrupt = false) :
    Lasting l k₀ n { k with toTrapState := trapHandler t false k.toTrapState } := by
  obtain ⟨_, hsetup, hsched, _⟩ := trapHandler_exception (s := k.toTrapState) hint false
  exact ⟨h.pagetable, h.space, h.pages, h.device, h.text, h.fs, hsched.trans h.sched, hsetup.stvec.trans h.stvec,
    h.poweredOff⟩

theorem Lasting.identityMap (hr : l.InRam) (hpaging : k₀.sched.satp = satpOf k₀.kernelPagetable)
    (h : Lasting l k₀ n k) : Vm.IdentityMap k.vfs.mm (satpRoot k.sched.satp) := by
  have hsatp : k.sched.satp = satpOf k.kernelPagetable := by
    rw [h.sched, h.pagetable]
    exact hpaging
  rw [hsatp]
  exact h.space.identityMap hr.roundUp_pos

/-- The store of `reboot` has no page: it is an exception. -/
theorem rebootStore_eq (hr : l.InRam) (hpaging : k₀.sched.satp = satpOf k₀.kernelPagetable)
    (h : Lasting l k₀ n k) (sepc : Word) : rebootStore sepc k =
      { k with toTrapState := trapHandler ⟨15#64, sepc, qemuVirtTest⟩ false k.toTrapState } := by
  have hinvalid : Vm.pteValid (Vm.leafPte k.vfs.mm (satpRoot k.sched.satp) qemuVirtTest) = false := by
    rw [Bool.eq_false_iff, ne_eq, (h.identityMap hr hpaging).valid]
    simp only [Vm.RamAddr, Vm.DeviceAddr, qemuVirtTest, BitVec.toNat_ofNat]
    omega
  rw [rebootStore]
  simp only [hinvalid, Bool.false_and, Bool.false_eq_true, if_false]

/-- `reboot` halts the kernel as an exception does, and every other command lets the shell go on. -/
theorem Lasting.runCommand (hr : l.InRam) (hl : l.Linked) (hpaging : k₀.sched.satp = satpOf k₀.kernelPagetable)
    (h : Lasting l k₀ n k) (halive : k.halted = false) (sepc : Word) (c : Shell.Command) :
    Lasting l k₀ n (runCommand l sepc k c) ∧ ((runCommand l sepc k c).halted = true ↔ c = .reboot) ∧
      ((runCommand l sepc k c).halted = true →
        panicText "Unhandled exception" <:+ (runCommand l sepc k c).console.out) := by
  cases c with
  | help | ps | sched | info | echo line | unknown line =>
    refine ⟨h.setConsole _, ?_, fun hhalted => absurd (halive.symm.trans hhalted) (by decide)⟩
    simp [KernelMain.runCommand, Kernel.printAll, Kernel.printf, showSystemInfo, halive]
  | testdev =>
    obtain ⟨v, console, he, hserved, hpages, htext⟩ := runTestdev_spec hl h.device
    rw [KernelMain.runCommand, he]
    refine ⟨⟨h.pagetable, h.space.samePages hpages, hpages.numFreePages.trans h.pages, hserved, ?_, h.fs, h.sched,
      h.stvec, h.poweredOff⟩, by simp [halive], fun hhalted => absurd (halive.symm.trans hhalted) (by decide)⟩
    have hold := h.text
    dsimp only
    rcases htext with hsame | hwritten
    · rwa [hsame]
    · right
      rw [hwritten]
      rcases hold with hnil | htest
      · rw [hnil, List.drop_nil, List.append_nil]
      · rw [htest, List.drop_length, List.append_nil]
  | test =>
    obtain ⟨mm, console, he, hspace, hheap, hcount⟩ := testMemory_spec hr.roundUp_pos hl h.space h.device.heap
    rw [KernelMain.runCommand, he]
    exact ⟨⟨h.pagetable, hspace, hcount.trans h.pages, served_setMm h.device hheap, h.text, h.fs, h.sched, h.stvec,
      h.poweredOff⟩, by simp [halive], fun hhalted => absurd (halive.symm.trans hhalted) (by decide)⟩
  | reboot =>
    have hprinted := h.setConsole (k.printf "Rebooting...\n" []).console
    have hfault : Trap.isInterrupt ⟨15#64, sepc, qemuVirtTest⟩ = false := by
      show ((15#64 &&& interruptBit) != 0#64) = false
      decide
    obtain ⟨hhalted, _, _, hout⟩ := trapHandler_exception (s := (k.printf "Rebooting...\n" []).toTrapState) hfault false
    rw [KernelMain.runCommand, rebootStore_eq hr hpaging (k := k.printf "Rebooting...\n" []) hprinted]
    exact ⟨hprinted.exception hfault, by simp [hhalted], fun _ => hout⟩

end Lasting

section Steps

variable {l : Layout} {k₀ : Kernel} {n : Nat} {s : Session} {text : List Byte} {sepc : Word}

/-- The shell with `text` in its line. -/
structure Prompts (l : Layout) (k₀ : Kernel) (n : Nat) (text : List Byte) (s : Session) : Prop where
  kernel : Lasting l k₀ n s.kernel
  alive : s.kernel.halted = false
  line : s.editor.Holds text

/-- The kernel has halted, and the text of its panic is the last that it has put out. -/
structure Halts (l : Layout) (k₀ : Kernel) (n : Nat) (s : Session) : Prop where
  kernel : Lasting l k₀ n s.kernel
  halted : s.kernel.halted = true
  out : panicText "Unhandled exception" <:+ s.kernel.console.out

/-- The prompt comes back unless the kernel has stopped. -/
theorem prompt_again (h : Lasting l k₀ n s.kernel) (hline : s.editor.Holds text) :
    (s.kernel.halted = false → Prompts l k₀ n text
      ⟨if s.kernel.stopped then s.kernel else s.kernel.printf "> " [], s.editor⟩) ∧
    (s.kernel.halted = true → panicText "Unhandled exception" <:+ s.kernel.console.out → Halts l k₀ n
      ⟨if s.kernel.stopped then s.kernel else s.kernel.printf "> " [], s.editor⟩) := by
  refine ⟨fun halive => ?_, fun hhalted hout => ?_⟩
  · have hstopped : s.kernel.stopped = false := by rw [Kernel.stopped, halive, h.poweredOff]; rfl
    rw [hstopped]
    exact ⟨h.setConsole _, halive, hline⟩
  · have hstopped : s.kernel.stopped = true := by rw [Kernel.stopped, hhalted]; rfl
    rw [hstopped]
    exact ⟨h, hhalted, hout⟩

/-- The end of a line. -/
theorem shellKey_enter (hr : l.InRam) (hl : l.Linked) (hpaging : k₀.sched.satp = satpOf k₀.kernelPagetable)
    (h : Prompts l k₀ n text s) {c : Byte} (hc : Shell.isEnter c = true) :
    (text = Shell.rebootText → Halts l k₀ n (shellKey l sepc c s)) ∧
    (text ≠ Shell.rebootText → Prompts l k₀ n [] (shellKey l sepc c s)) := by
  obtain ⟨k₁, hk₁⟩ : ∃ k₁, k₁ = ({ s.kernel with console :=
      { s.kernel.console with taken := s.kernel.console.taken + 1 } } : Kernel).printf "\n" [] := ⟨_, rfl⟩
  have hlasting : Lasting l k₀ n k₁ := by
    rw [hk₁]
    exact h.kernel.setConsole _
  have halive : k₁.halted = false := by
    rw [hk₁]
    exact h.alive
  let e : Shell.Editor := { s.editor with buffer := Function.update s.editor.buffer s.editor.pos 0#8 }
  have hkey : ∀ k₂, (if e.pos = 0 then k₁ else runCommand l sepc k₁ (Shell.dispatch e)) = k₂ →
      shellKey l sepc c s = ⟨if k₂.stopped then k₂ else k₂.printf "> " [], { e with pos := 0 }⟩ := by
    intro k₂ hk₂
    rw [← hk₂, hk₁]
    exact if_pos hc
  have hdispatch : Shell.dispatch e = .reboot ↔ text = Shell.rebootText := Shell.dispatch_reboot_iff h.line.spells
  have hempty : Shell.Editor.Holds { e with pos := 0 } [] := .empty _
  by_cases hpos : e.pos = 0
  · rw [hkey k₁ (if_pos hpos)]
    have hnil : text = [] := List.length_eq_zero_iff.mp (h.line.pos.symm.trans hpos)
    refine ⟨fun ht => absurd (hnil.symm.trans ht) (by decide), fun _ => ?_⟩
    exact (prompt_again (s := ⟨k₁, { e with pos := 0 }⟩) hlasting hempty).1 halive
  · obtain ⟨hkept, hhalts, hout⟩ := hlasting.runCommand hr hl hpaging halive sepc (Shell.dispatch e)
    obtain ⟨hgoes, hstops⟩ := prompt_again (s := ⟨_, { e with pos := 0 }⟩) hkept hempty
    rw [hkey _ (if_neg hpos)]
    rw [hdispatch] at hhalts
    refine ⟨fun ht => hstops (hhalts.mpr ht) (hout (hhalts.mpr ht)), fun ht => hgoes ?_⟩
    rw [Bool.eq_false_iff]
    exact mt hhalts.mp ht

theorem shellKey_edit (h : Prompts l k₀ n text s) {c : Byte} (hc : Shell.isEnter c = false) :
    Prompts l k₀ n (Shell.typeKey text c) (shellKey l sepc c s) := by
  have hkey : shellKey l sepc c s = ⟨({ s.kernel with console :=
      { s.kernel.console with taken := s.kernel.console.taken + 1 } } : Kernel).printAll (editPrints s.editor c),
      (Shell.editKey s.editor c).1⟩ := if_neg (by rw [hc]; decide)
  rw [hkey]
  exact ⟨h.kernel.setConsole _, h.alive, h.line.editKey c⟩

/-- The line is edited as in the shell of which only the device accesses are modelled. -/
theorem shellKey_editor (l : Layout) (sepc : Word) (c : Byte) (s : Session) (out : Shell.Command → List Byte) :
    (shellKey l sepc c s).editor = (Shell.shellStep out s.editor c).1 := by
  unfold shellKey Shell.shellStep
  split <;> rfl

end Steps

section Sessions

def SessionEvent.key? : SessionEvent → Option Byte
  | .key c => some c
  | .trap _ => none

def SessionEvent.isTimer : SessionEvent → Bool
  | .key _ => false
  | .trap t => t.isTimer

def SessionEvent.isException : SessionEvent → Bool
  | .key _ => false
  | .trap t => !t.isInterrupt

/-- The events bring the end of the kernel when `text` is in the line: an exception is among them, or
one of the lines that they end is `reboot`. -/
def Halting (text : List Byte) (events : List SessionEvent) : Prop :=
  (∃ e ∈ events, e.isException = true) ∨
    Shell.rebootText ∈ Shell.typedLines text (events.filterMap SessionEvent.key?)

/-- The same for one event. -/
def SessionEvent.Stops (text : List Byte) : SessionEvent → Prop
  | .key c => Shell.isEnter c = true ∧ text = Shell.rebootText
  | .trap t => t.isInterrupt = false

/-- The text in the line after an event. -/
def SessionEvent.line (text : List Byte) : SessionEvent → List Byte
  | .key c => if Shell.isEnter c then [] else Shell.typeKey text c
  | .trap _ => text

variable {l : Layout} {k₀ : Kernel} {n : Nat} {s : Session} {text : List Byte}

theorem halting_nil (text : List Byte) : ¬ Halting text [] := by simp [Halting, Shell.typedLines]

theorem halting_cons (text : List Byte) (e : SessionEvent) (events : List SessionEvent) :
    Halting text (e :: events) ↔ e.Stops text ∨ Halting (e.line text) events := by
  cases e with
  | key c =>
    have hkeys : (SessionEvent.key c :: events).filterMap SessionEvent.key? =
        c :: events.filterMap SessionEvent.key? := rfl
    rw [Halting, Halting, hkeys, Shell.typedLines, SessionEvent.Stops, SessionEvent.line]
    simp only [List.mem_cons, exists_eq_or_imp, SessionEvent.isException, Bool.false_eq_true, false_or]
    split
    · rename_i hc
      rw [List.mem_cons, or_left_comm, eq_comm (a := Shell.rebootText)]
      simp [hc]
    · rename_i hc
      simp [hc]
  | trap t =>
    have hkeys : (SessionEvent.trap t :: events).filterMap SessionEvent.key? =
        events.filterMap SessionEvent.key? := rfl
    rw [Halting, Halting, hkeys, SessionEvent.Stops, SessionEvent.line]
    simp only [List.mem_cons, exists_eq_or_imp, SessionEvent.isException, Bool.not_eq_true', or_assoc]

theorem Prompts.stopped (h : Prompts l k₀ n text s) : s.kernel.stopped = false := by
  rw [Kernel.stopped, h.alive, h.kernel.poweredOff]
  rfl

theorem Halts.run (h : Halts l k₀ n s) (sepc : Word) (events : List SessionEvent) :
    events.foldl (Session.step l sepc) s = s := by
  induction events with
  | nil => rfl
  | cons e es ih =>
    have hstep : s.step l sepc e = s := if_pos (by rw [Kernel.stopped, h.halted]; rfl)
    rw [List.foldl_cons, hstep, ih]

/-- One event in the shell. -/
theorem Prompts.step (hr : l.InRam) (hl : l.Linked) (hpaging : k₀.sched.satp = satpOf k₀.kernelPagetable)
    (hcur : k₀.sched.cpu.current = none) (h : Prompts l k₀ n text s) (sepc : Word) (e : SessionEvent) :
    (e.Stops text → Halts l k₀ n (s.step l sepc e)) ∧
    (¬ e.Stops text → Prompts l k₀ (n + if e.isTimer then 1 else 0) (e.line text) (s.step l sepc e)) := by
  have hrun : ¬ s.kernel.stopped = true := by
    rw [h.stopped]
    decide
  cases e with
  | key c =>
    have hstep : s.step l sepc (.key c) = shellKey l sepc c s := if_neg hrun
    rw [hstep, SessionEvent.Stops, SessionEvent.line]
    by_cases hc : Shell.isEnter c = true
    · obtain ⟨hreboot, hother⟩ : (text = Shell.rebootText → Halts l k₀ n (shellKey l sepc c s)) ∧
        (text ≠ Shell.rebootText → Prompts l k₀ n [] (shellKey l sepc c s)) := shellKey_enter hr hl hpaging h hc
      rw [if_pos hc]
      exact ⟨fun hs => hreboot hs.2, fun hs => hother fun ht => hs ⟨hc, ht⟩⟩
    · rw [if_neg hc]
      exact ⟨fun hs => absurd hs.1 hc, fun _ => shellKey_edit h (by simpa using hc)⟩
  | trap t =>
    have hstep : s.step l sepc (.trap t) =
        { s with kernel := { s.kernel with toTrapState := trapHandler t false s.kernel.toTrapState } } := if_neg hrun
    rw [hstep, SessionEvent.Stops]
    by_cases hint : t.isInterrupt = true
    · obtain ⟨hhalted, _⟩ := trapHandler_interrupt (s := s.kernel.toTrapState) hint false
      exact ⟨fun hs => absurd (hint.symm.trans hs) (by decide),
        fun _ => ⟨h.kernel.interrupt hcur hint, hhalted.trans h.alive, h.line⟩⟩
    · have hexc : t.isInterrupt = false := by simpa using hint
      obtain ⟨hhalted, _, _, hout⟩ := trapHandler_exception (s := s.kernel.toTrapState) hexc false
      exact ⟨fun _ => ⟨h.kernel.exception hexc, hhalted, hout⟩, fun hs => absurd hexc hs⟩

/-- A run of events in the shell. -/
theorem Prompts.run (hr : l.InRam) (hl : l.Linked) (hpaging : k₀.sched.satp = satpOf k₀.kernelPagetable)
    (hcur : k₀.sched.cpu.current = none) (h : Prompts l k₀ n text s) (sepc : Word) (events : List SessionEvent) :
    (Halting text events → ∃ m ≤ events.countP SessionEvent.isTimer,
      Halts l k₀ (n + m) (events.foldl (Session.step l sepc) s)) ∧
    (¬ Halting text events → Prompts l k₀ (n + events.countP SessionEvent.isTimer)
      (Shell.lineText text (events.filterMap SessionEvent.key?)) (events.foldl (Session.step l sepc) s)) := by
  induction events generalizing n s text with
  | nil => exact ⟨fun hh => absurd hh (halting_nil text), fun _ => h⟩
  | cons e es ih =>
    obtain ⟨hstops, hgoes⟩ := h.step hr hl hpaging hcur sepc e
    have hline : Shell.lineText text ((e :: es).filterMap SessionEvent.key?) =
        Shell.lineText (e.line text) (es.filterMap SessionEvent.key?) := by cases e <;> rfl
    rw [halting_cons, List.foldl_cons, List.countP_cons, hline, Nat.add_comm (es.countP _), ← Nat.add_assoc]
    by_cases hs : e.Stops text
    · refine ⟨fun _ => ⟨0, Nat.zero_le _, ?_⟩, fun hn => absurd (.inl hs) hn⟩
      rw [(hstops hs).run]
      exact hstops hs
    · obtain ⟨hhalts, hprompts⟩ := ih (hgoes hs)
      refine ⟨fun hh => ?_, fun hn => hprompts fun hh => hn (.inr hh)⟩
      obtain ⟨m, hm, hend⟩ := hhalts (hh.resolve_left hs)
      rw [Nat.add_assoc] at hend
      exact ⟨_, Nat.add_le_add_left hm _, hend⟩

/-- The shell right after the boot. -/
theorem Prompts.start (hr : l.InRam) (hl : l.Linked) (trapEntry : Word) (hcold : Cold k₀) {k : Kernel}
    (hboot : kernelMain l trapEntry k₀ = .ret k) (buffer : Nat → Byte) :
    k.sched.satp = satpOf k.kernelPagetable ∧ k.sched.cpu.current = none ∧
      Prompts l k 0 [] (runShell buffer k) := by
  have hp : 101 ≤ numPages l := by
    by_contra hp
    obtain ⟨msg, hpanic⟩ := kernelMain_panics hr trapEntry k₀ (by omega)
    rw [hboot] at hpanic
    cases hpanic
  obtain ⟨k', hret, hbooted⟩ := kernelMain_done hr hl trapEntry hcold hp
  rw [hboot] at hret
  obtain rfl := Vm.Outcome.ret.inj hret
  have hcur : k.sched.cpu.current = none := by
    obtain ⟨x, hsched⟩ := hbooted.sched
    rw [hsched]
    exact (testedSched_start.setSatp x).current
  exact ⟨hbooted.order.paging, hcur, (Lasting.start hbooted.order).setConsole _, hbooted.order.running.1, .empty buffer⟩

end Sessions

end RiscvOs.KernelMain
