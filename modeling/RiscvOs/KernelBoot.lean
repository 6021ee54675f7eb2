import RiscvOs.KernelMain
import RiscvOs.Directory
set_option autoImplicit false

/-!
The boot of the kernel. With 101 free pages `kernel_main` gets to its shell, and all its parts are
in order there; with fewer it panics.
-/

namespace RiscvOs.KernelMain
open WordMemory CStrings PageAlloc Scheduler Uart Traps Syscalls

/-- The page table `pt` has the map of the kernel, and no client has any page. -/
def KernelSpace (lo : Nat) (pt : Word) (mm : Mm) : Prop :=
  ∃ maps roots, maps pt = some Vm.kernelMap ∧ Vm.Spaces.Inv lo maps ⟨mm, roots, []⟩

theorem KernelSpace.root {lo : Nat} {pt : Word} {maps : Word → Option Vm.PageMap} {roots others : List Word} {mm : Mm}
    (hm : maps pt = some Vm.kernelMap) (h : Vm.Spaces.Inv lo maps ⟨mm, roots, others⟩) : pt ∈ roots := by
  obtain ⟨node, chain, held, _, hw⟩ := h
  exact (hw.mapped pt).mp (by simp [hm])

/-- Besides what was printed, only the pages have changed. -/
structure PagesOnly (k k' : Kernel) : Prop where
  same : k' = { k with vfs := { k.vfs with mm := k'.vfs.mm }, console := k'.console }
  heap : k'.vfs.mm.heapCurrent = k.vfs.mm.heapCurrent

section TestVm

variable {l : Layout} {lo : Nat} {pt : Word} {k : Kernel}

/-- `test_vm` comes to its end, and the page table that it works on is another than the kernel's.
With three free pages it passes, and gives back all that it took. -/
theorem testVm_spec (hlo : 0 < lo) (h : KernelSpace lo pt k.vfs.mm) :
    ∃ k', testVm k = .ret k' ∧ PagesOnly k k' ∧ KernelSpace lo pt k'.vfs.mm ∧
      (3 ≤ k.vfs.mm.numFreePages.toNat → k'.vfs.mm.numFreePages = k.vfs.mm.numFreePages) := by
  obtain ⟨maps, roots, hm, hs⟩ := h
  have hpt := KernelSpace.root hm hs
  obtain ⟨maps₁, hs₁, hkept₁⟩ := hs.create
  have hm₁ : maps₁ pt = some Vm.kernelMap := (hkept₁ pt hpt).trans hm
  simp only [Vm.vmCreateUserPagetable] at hs₁
  obtain ⟨chain, held, hsplit⟩ : ∃ chain held, Split lo k.vfs.mm chain held := by
    obtain ⟨node, chain, held, hinv, _⟩ := hs
    exact ⟨chain, held, hinv.split⟩
  have hheap := Vm.allocPage_heap k.vfs.mm
  by_cases hne : (allocPage k.vfs.mm).1 = 0#64
  · have hsame : (allocPage k.vfs.mm).2 = k.vfs.mm := by
      cases chain with
      | nil => rw [hsplit.alloc_nil]
      | cons q qs =>
        rw [hsplit.alloc_eq] at hne
        exact absurd hne hsplit.linked.2.1
    rw [hne, Vm.consPtr, if_pos rfl] at hs₁
    exact ⟨_, if_pos hne, ⟨rfl, hheap⟩, ⟨maps₁, roots, hm₁, hs₁⟩, fun _ => congrArg Mm.numFreePages hsame⟩
  · have hroots : Vm.consPtr (allocPage k.vfs.mm).1 roots = (allocPage k.vfs.mm).1 :: roots := if_neg hne
    rw [hroots] at hs₁
    obtain ⟨c, mm, hret, hres⟩ := Vm.new_space_maps 0x1000#64 testPa testPerm hlo hsplit hne (by decide)
      (by decide) (by decide)
    change Vm.mappages (allocPage k.vfs.mm).2 (allocPage k.vfs.mm).1 0x1000#64 pageSize testPa testPerm = _ at hret
    have hheap' := (Vm.mappages_heap hret).trans hheap
    have hother : pt ≠ (allocPage k.vfs.mm).1 := by
      obtain ⟨node, chain, held, _, hw⟩ := hs₁
      rintro rfl
      exact (List.nodup_cons.mp hw.nodup).1 hpt
    have hstep : Vm.SpacesStep ⟨0#64, 0#64⟩ ⟨(allocPage k.vfs.mm).2, (allocPage k.vfs.mm).1 :: roots, []⟩ _
        ⟨mm, (allocPage k.vfs.mm).1 :: roots, []⟩ := .mappages List.mem_cons_self (by decide) (by decide) hret
    obtain ⟨maps₂, hs₂, hkept₂⟩ := hstep.inv hlo hs₁
    have hm₂ : maps₂ pt = some Vm.kernelMap :=
      ((hkept₂ pt (List.mem_cons_of_mem _ hpt) fun he => hother (Option.some.inj he).symm).2).trans hm₁
    unfold testVm
    simp only [Kernel.allocPage, Kernel.printAll, Kernel.printf, Kernel.setMm, hne, if_false, hret, Vm.Outcome.bind]
    rcases hres with ⟨rfl, hle⟩ | ⟨rfl, haddr⟩
    · refine ⟨_, rfl, ⟨rfl, hheap'⟩, ⟨maps₂, _, hm₂, hs₂⟩, ?_⟩
      have hcount := hsplit.count
      omega
    · have hpa : (Vm.entryOf (testPa.toNat / 4096) testPerm).base = testPa := by decide
      obtain ⟨t, ht, hnum, hback⟩ := Vm.new_space_freed hlo hsplit hne (by decide)
        (by decide) hret
      obtain ⟨t', ht', hs₃⟩ := hs₂.vmFree hlo List.mem_cons_self
      obtain rfl : t = t' := Vm.Outcome.ret.inj (ht.symm.trans ht')
      simp only [haddr, hpa, ne_eq, not_true, if_false, ht]
      exact ⟨_, rfl, ⟨rfl, hback⟩, ⟨_, _, (Function.update_of_ne hother _ _).trans hm₂, hs₃⟩, fun _ => hnum⟩

end TestVm

section TestScheduler

/-- What `test_scheduler` does to the scheduler when it gets its three processes. -/
def testedSched (s : Sched) : Sched :=
  let r1 := newProcess ("test1".toList.map byte) priorityDefault none s
  let r2 := newProcess ("test2".toList.map byte) (priorityNormalMin + 10) none r1.2
  let r3 := newProcess ("rt_test".toList.map byte) 50 (some .fifo) r2.2
  schedAdd (schedAdd (schedAdd r3.2 r1.1) r2.1) r3.1

theorem processAlloc_satp (s : Sched) (x : Word) :
    processAlloc { s with satp := x } = ((processAlloc s).1, { (processAlloc s).2 with satp := x }) := by
  cases hfind : (List.finRange 64).find? fun i => decide ((s.procs (.slot i)).state = .unused) with
  | none => simp only [processAlloc, hfind]
  | some i => simp only [processAlloc, hfind, Sched.modify]

theorem schedSetPriority_satp (s : Sched) (x : Word) (p : ProcPtr) (priority : Int) :
    schedSetPriority { s with satp := x } p priority = { schedSetPriority s p priority with satp := x } := by
  cases p with
  | none => rfl
  | some p =>
    simp only [schedSetPriority, Sched.modify]
    split <;> rfl

theorem schedAdd_satp (s : Sched) (x : Word) (p : ProcPtr) :
    schedAdd { s with satp := x } p = { schedAdd s p with satp := x } := by
  cases p with
  | none => rfl
  | some p =>
    simp only [schedAdd, Sched.modify]
    split <;> rfl

theorem newProcess_satp (name : List Byte) (priority : Int) (policy : Option SchedPolicy) (s : Sched) (x : Word) :
    newProcess name priority policy { s with satp := x } =
      ((newProcess name priority policy s).1, { (newProcess name priority policy s).2 with satp := x }) := by
  simp only [newProcess, processAlloc_satp]
  split
  · rfl
  · next p _ =>
    have hset := schedSetPriority_satp ((processAlloc s).2.modify p (setName name)) x (some p) priority
    cases policy with
    | none => exact congrArg (Prod.mk (some p)) hset
    | some policy => exact congrArg (fun u => (some p, schedSetPolicy u (some p) policy)) hset

/-- The three processes have the first slots, and each of them is in the queue of its class and
level. No process has the CPU. -/
structure TestQueues (s : Sched) : Prop where
  current : s.cpu.current = none
  rt : s.rt = [some (.slot 2)]
  top : s.level 0 = [some (.slot 0)]
  second : s.level 1 = [some (.slot 1)]
  lower : s.level 2 = [] ∧ s.level 3 = []
  pids : (s.procs (.slot 0)).pid = 1#64 ∧ (s.procs (.slot 1)).pid = 2#64 ∧ (s.procs (.slot 2)).pid = 3#64
  runnable : ∀ i : Fin 64, (s.procs (.slot i)).state = if i.val < 3 then .runnable else .unused

theorem testedSched_start : TestQueues (testedSched Sched.start) where
  current := by decide +kernel
  rt := by decide +kernel
  top := by decide +kernel
  second := by decide +kernel
  lower := by decide +kernel
  pids := by decide +kernel
  runnable := by decide +kernel

theorem TestQueues.setSatp {s : Sched} (h : TestQueues s) (x : Word) : TestQueues { s with satp := x } :=
  ⟨h.current, h.rt, h.top, h.second, h.lower, h.pids, h.runnable⟩

theorem testScheduler_spec {k : Kernel} {x : Word} (hk : k.sched = { Sched.start with satp := x }) :
    testScheduler k = { k with
      sched := { testedSched Sched.start with satp := x }
      console := (testScheduler k).console } := by
  let s1 := (newProcess ("test1".toList.map byte) priorityDefault none Sched.start).2
  let s2 := (newProcess ("test2".toList.map byte) (priorityNormalMin + 10) none s1).2
  have h1 : (newProcess ("test1".toList.map byte) priorityDefault none Sched.start).1 = some (.slot 0) := by
    decide +kernel
  have h2 : (newProcess ("test2".toList.map byte) (priorityNormalMin + 10) none s1).1 = some (.slot 1) := by
    decide +kernel
  have h3 : (newProcess ("rt_test".toList.map byte) 50 (some .fifo) s2).1 = some (.slot 2) := by
    decide +kernel
  simp only [s1, s2] at h2 h3
  simp only [testScheduler, Kernel.printf, Kernel.printAll, hk, newProcess_satp, h1, h2, h3, schedAdd_satp, testedSched]

end TestScheduler

section TestFilesystem

open SimpleFs SlotMaps

/-- The file system is formatted with `n` blocks and has no file. -/
def NoFiles (n : U32) (fs : Fs) : Prop := ∃ d, d.keys = ∅ ∧ Represents n fs d

/-- The file that `test_filesystem` creates is gone when it is done. -/
theorem testFilesystem_spec {k : Kernel} {n : U32} (h : NoFiles n k.fs) :
    testFilesystem k = { k with fs := (testFilesystem k).fs, console := (testFilesystem k).console } ∧
      NoFiles n (testFilesystem k).fs := by
  obtain ⟨d, hd, hrep⟩ := h
  have hname : Spells testFile ("testfile".toList.map byte) := cstring_spells (by decide)
  obtain ⟨ino, hleast, hret, hrep'⟩ := sfsCreate_adds vfsFile hrep hname (by decide) (by simp [hd]) (by simp [hd])
  obtain ⟨hdel, hrep''⟩ := sfsDelete_removes hrep' hname (by simp [FinMap.insert])
  have hpos : ¬ (sfsCreate testFile vfsFile k.fs).1 ≤ 0 := by
    have hrange := hleast.range
    omega
  have heq : (testFilesystem k).fs = (sfsDelete testFile (sfsCreate testFile vfsFile k.fs).2).2 := by
    simp only [testFilesystem, Kernel.printf, Kernel.printAll, hpos, hdel, if_false]
    rfl
  refine ⟨?_, ?_⟩
  · simp only [testFilesystem, Kernel.printf, Kernel.printAll, hpos, hdel, if_false]
    rfl
  · rw [heq]
    exact ⟨_, by simp [FinMap.erase, FinMap.insert, hd], hrep''⟩

end TestFilesystem

section TestMemory

variable {l : Layout} {lo : Nat} {pt : Word} {mm : Mm}

/-- What `test_memory` does to the allocators. -/
def memoryTest (l : Layout) (mm : Mm) : Mm :=
  let page1 := allocPage mm
  let page2 := allocPage page1.2
  let ptr1 := kmalloc l 256#64 page2.2
  let ptr2 := kmalloc l 512#64 ptr1.2
  freePage page2.1 (freePage page1.1 ptr2.2)

theorem testMemory_eq (l : Layout) (k : Kernel) : ∃ console, testMemory l k = { k with
    vfs := { k.vfs with mm := memoryTest l k.vfs.mm }
    console := console } := by
  simp only [testMemory, Kernel.allocPage, Kernel.kmalloc, Kernel.freePage, Kernel.printf, Kernel.printAll,
    Kernel.setMm, memoryTest]
  exact ⟨_, rfl⟩

theorem allocPage_count (mm : Mm) :
    (allocPage mm).2.numFreePages = mm.numFreePages - if (allocPage mm).1 = 0#64 then 0#64 else 1#64 := by
  by_cases hnone : mm.freePages = 0#64 ∨ mm.numFreePages = 0#64
  · simp [allocPage, hnone]
  · rw [not_or] at hnone
    simp [allocPage, hnone]

theorem freePage_count (page : Word) (mm : Mm) :
    (freePage page mm).numFreePages = mm.numFreePages + if page = 0#64 then 0#64 else 1#64 := by
  by_cases hpage : page = 0#64 <;> simp [freePage, hpage]

theorem memoryTest_count (l : Layout) (mm : Mm) : (memoryTest l mm).numFreePages = mm.numFreePages := by
  have hback (n x y : Word) : n - x - y + x + y = n := by bv_omega
  simp only [memoryTest, freePage_count, (Vm.kmalloc_samePages l _ _).numFreePages, allocPage_count]
  exact hback ..

theorem freePtr_inv (hlo : 0 < lo) {maps : Word → Option Vm.PageMap} {roots others rest : List Word} {page : Word}
    (h : Vm.Spaces.Inv lo maps ⟨mm, roots, others⟩) (hnull : page = 0#64 → others = rest)
    (hpage : page ≠ 0#64 → page ∈ others ∧ others.erase page = rest) :
    Vm.Spaces.Inv lo maps ⟨freePage page mm, roots, rest⟩ := by
  by_cases hp : page = 0#64
  · rw [freePage, if_pos hp, ← hnull hp]
    exact h
  · obtain ⟨hmem, hrest⟩ := hpage hp
    rw [← hrest]
    exact h.freePage hlo hmem

/-- Both pages are given back, as far as there were any. -/
theorem memoryTest_space (hlo : 0 < lo) (h : KernelSpace lo pt mm) : KernelSpace lo pt (memoryTest l mm) := by
  obtain ⟨maps, roots, hm, hs⟩ := h
  have hboth := ((hs.allocPage.allocPage).samePages (Vm.kmalloc_samePages l 256#64 _)).samePages
    (Vm.kmalloc_samePages l 512#64 _)
  refine ⟨maps, roots, hm, ?_⟩
  simp only [memoryTest]
  generalize allocPage mm = p at hboth ⊢
  generalize allocPage p.2 = q at hboth ⊢
  have hfirst : Vm.Spaces.Inv lo maps ⟨freePage p.1 (kmalloc l 512#64 (kmalloc l 256#64 q.2).2).2, roots,
      Vm.consPtr q.1 []⟩ := by
    refine freePtr_inv hlo hboth (fun hp => ?_) fun hp => ?_
    · exact congrArg (Vm.consPtr q.1) (if_pos hp)
    · by_cases hq : q.1 = 0#64
      · simp [Vm.consPtr, hp, hq]
      · by_cases he : q.1 = p.1 <;> simp [Vm.consPtr, hp, hq, he]
  refine freePtr_inv hlo hfirst (fun hq => if_pos hq) fun hq => ?_
  rw [Vm.consPtr, if_neg hq]
  simp

theorem kmalloc_bounded (hl : l.Linked) (h : HeapBounded l mm) (size : Word) (hsize : size.toNat < 2^32) :
    HeapBounded l (kmalloc l size mm).2 := by
  rcases kmalloc_case hsize h.2 hl.ram with he | ⟨cur, he, _, hcur, hle⟩
  · rw [he]
    exact h
  · rw [he]
    refine ⟨?_, hle⟩
    show l.heapStart.toNat ≤ cur.toNat
    have hlow := h.1
    omega

theorem memoryTest_bounded (hl : l.Linked) (h : HeapBounded l mm) : HeapBounded l (memoryTest l mm) := by
  have hpages : HeapBounded l (allocPage (allocPage mm).2).2 := by
    rw [HeapBounded, Vm.allocPage_heap, Vm.allocPage_heap]
    exact h
  have hheap := kmalloc_bounded hl (kmalloc_bounded hl hpages 256#64 (by decide)) 512#64 (by decide)
  simp only [memoryTest, HeapBounded, Vm.freePage_heap]
  exact hheap

/-- `test_memory` gives back its pages and keeps its part of the heap. -/
theorem testMemory_spec {k : Kernel} (hlo : 0 < lo) (hl : l.Linked) (hspace : KernelSpace lo pt k.vfs.mm)
    (hheap : HeapBounded l k.vfs.mm) :
    ∃ mm console, testMemory l k = { k with vfs := { k.vfs with mm := mm }, console := console } ∧
      KernelSpace lo pt mm ∧ HeapBounded l mm ∧ mm.numFreePages = k.vfs.mm.numFreePages := by
  obtain ⟨console, he⟩ := testMemory_eq l k
  exact ⟨memoryTest l k.vfs.mm, console, he, memoryTest_space hlo hspace, memoryTest_bounded hl hheap,
    memoryTest_count l k.vfs.mm⟩

end TestMemory

section Order

variable {l : Layout} {k k' : Kernel}

/-- The parts of the kernel in order: the CPU goes through the page table of the kernel, which has its
map, the test device is served and the file system is empty. -/
structure InOrder (l : Layout) (k : Kernel) : Prop where
  running : k.halted = false ∧ k.poweredOff = false
  paging : k.sched.satp = satpOf k.kernelPagetable
  space : KernelSpace (roundUp l.heapEnd.toNat) k.kernelPagetable k.vfs.mm
  device : TestDevice.Served l ⟨k.vfs, []⟩
  blank : k.vfs.dev.len = 0#32
  files : NoFiles 256#32 k.fs

/-- With no file open, the device does not depend on the heap. -/
theorem served_setMm {v : VirtualFs.Vfs TestDevice.TestDev} {mm : Mm} (h : TestDevice.Served l ⟨v, []⟩)
    (hmm : HeapBounded l mm) : TestDevice.Served l ⟨{ v with mm := mm }, []⟩ :=
  ⟨h.device, hmm, by simp, by simp, h.len, by simp⟩

theorem InOrder.setMm (h : InOrder l k) {mm : Mm} (hspace : KernelSpace (roundUp l.heapEnd.toNat) k.kernelPagetable mm)
    (hheap : HeapBounded l mm) (console : Console) :
    InOrder l { k with vfs := { k.vfs with mm := mm }, console := console } :=
  ⟨h.running, h.paging, hspace, served_setMm h.device hheap, h.blank, h.files⟩

theorem InOrder.testMemory (hr : l.InRam) (hl : l.Linked) (h : InOrder l k) : InOrder l (testMemory l k) ∧
    ∃ mm console, testMemory l k = { k with vfs := { k.vfs with mm := mm }, console := console } ∧
      mm.numFreePages = k.vfs.mm.numFreePages := by
  obtain ⟨mm, console, he, hspace, hheap, hcount⟩ := testMemory_spec hr.roundUp_pos hl h.space h.device.heap
  rw [he]
  exact ⟨h.setMm hspace hheap console, mm, console, rfl, hcount⟩

/-- The initialisation between `kvminit` and the first output of `kernel_main` about the system. -/
def started (l : Layout) (trapEntry : Word) (k : Kernel) : Kernel :=
  testdevRegister (testdevInit (sfsFormat l 256#32 (sfsInit (vfsInit
    (schedulerInit (trapInit trapEntry (kvminithart k)))))))

/-- The kernel before it has memory. -/
def greeted (k : Kernel) : Kernel :=
  ((printBanner k).printf "[KERNEL] Starting RISC-V OS kernel...\n" []).printf
    "[KERNEL] Kernel loaded at 0x80200000\n" []

theorem kernelMain_eq (l : Layout) (trapEntry : Word) (k : Kernel) : kernelMain l trapEntry k =
    (vmInit (mmInit l (greeted k))).bind fun k =>
      (runTests (showSystemInfo (started l trapEntry k))).bind fun k => .ret (testMemory l k) := rfl

/-- The heap behind the buffer of the file system. -/
def formattedMm (l : Layout) (numBlocks : U32) (mm : Mm) : Mm :=
  (kmalloc l ((numBlocks * SimpleFs.sfsBlockSize).setWidth 64) mm).2

theorem sfsFormat_mm (l : Layout) (numBlocks : U32) (fs : SimpleFs.Fs) (mm : Mm) :
    (SimpleFs.sfsFormat l numBlocks fs mm).2.2 = formattedMm l numBlocks mm := rfl

theorem sfsFormat_eq (l : Layout) (numBlocks : U32) (k : Kernel) : ∃ console, sfsFormat l numBlocks k = { k with
    vfs := { k.vfs with mm := (SimpleFs.sfsFormat l numBlocks k.fs k.vfs.mm).2.2 }
    fs := (SimpleFs.sfsFormat l numBlocks k.fs k.vfs.mm).2.1
    console := console } := by
  simp only [sfsFormat]
  split <;> exact ⟨_, rfl⟩

theorem testdevRegister_eq (k : Kernel) : ∃ console, testdevRegister k = { k with
    vfs := (TestDevice.testdevRegister k.vfs).2
    console := console } := by
  simp only [testdevRegister]
  split <;> exact ⟨_, rfl⟩

/-- The file system and the device. -/
theorem registered_eq (l : Layout) (numBlocks : U32) (k : Kernel) : ∃ console,
    testdevRegister (testdevInit (sfsFormat l numBlocks k)) = { k with
      vfs := (TestDevice.testdevRegister { k.vfs with
        mm := (SimpleFs.sfsFormat l numBlocks k.fs k.vfs.mm).2.2
        dev := TestDevice.testdevInit k.vfs.dev }).2
      fs := (SimpleFs.sfsFormat l numBlocks k.fs k.vfs.mm).2.1
      console := console } := by
  obtain ⟨_, hformat⟩ := sfsFormat_eq l numBlocks k
  obtain ⟨console, hregister⟩ := testdevRegister_eq (testdevInit (sfsFormat l numBlocks k))
  refine ⟨console, ?_⟩
  rw [hregister, hformat]
  rfl

theorem boot_setMm (v : VirtualFs.Vfs TestDevice.TestDev) (mm : Mm) : TestDevice.boot { v with mm := mm } =
    (TestDevice.testdevRegister
      { VirtualFs.vfsInit v with mm := mm, dev := TestDevice.testdevInit v.dev }).2 := rfl

theorem initialized_eq (trapEntry : Word) (k : Kernel) : ∃ console,
    sfsInit (vfsInit (schedulerInit (trapInit trapEntry (kvminithart k)))) = { k with
      sched := Scheduler.schedulerInit { k.sched with satp := satpOf k.kernelPagetable }
      stvec := trapEntry
      sie := k.sie ||| sieSeie ||| sieStie ||| sieSsie
      sstatus := k.sstatus ||| sstatusSie
      vfs := VirtualFs.vfsInit k.vfs
      fs := SimpleFs.sfsInit k.fs
      console := console } :=
  ⟨_, rfl⟩

theorem started_eq (l : Layout) (trapEntry : Word) (k : Kernel) : ∃ console, started l trapEntry k = { k with
    sched := Scheduler.schedulerInit { k.sched with satp := satpOf k.kernelPagetable }
    stvec := trapEntry
    sie := k.sie ||| sieSeie ||| sieStie ||| sieSsie
    sstatus := k.sstatus ||| sstatusSie
    vfs := TestDevice.boot { k.vfs with mm := formattedMm l 256#32 k.vfs.mm }
    fs := (SimpleFs.sfsFormat l 256#32 (SimpleFs.sfsInit k.fs) k.vfs.mm).2.1
    console := console } := by
  rw [started]
  -- the size of the file system must not be computed
  generalize 256#32 = numBlocks
  obtain ⟨_, hinit⟩ := initialized_eq trapEntry k
  obtain ⟨console, hregister⟩ := registered_eq l numBlocks
    (sfsInit (vfsInit (schedulerInit (trapInit trapEntry (kvminithart k)))))
  refine ⟨console, ?_⟩
  rw [hregister, hinit, boot_setMm, ← sfsFormat_mm l numBlocks (SimpleFs.sfsInit k.fs)]
  have hmm : (VirtualFs.vfsInit k.vfs).mm = k.vfs.mm := rfl
  have hdev : (VirtualFs.vfsInit k.vfs).dev = k.vfs.dev := rfl
  simp only [hmm, hdev]

theorem formattedMm_bounded (hl : l.Linked) {mm : Mm} (h : HeapBounded l mm) (numBlocks : U32) :
    HeapBounded l (formattedMm l numBlocks mm) := by
  refine kmalloc_bounded hl h _ ?_
  rw [BitVec.toNat_setWidth]
  omega

theorem formattedMm_samePages (l : Layout) (numBlocks : U32) (mm : Mm) : Vm.SamePages mm (formattedMm l numBlocks mm) :=
  Vm.kmalloc_samePages l _ mm

theorem KernelSpace.samePages {lo : Nat} {pt : Word} {mm mm' : Mm} (h : KernelSpace lo pt mm)
    (hs : Vm.SamePages mm mm') : KernelSpace lo pt mm' := by
  obtain ⟨maps, roots, hm, hinv⟩ := h
  exact ⟨maps, roots, hm, hinv.samePages hs⟩

/-- After the initialisation everything is in order. -/
theorem started_order (hl : l.Linked) (trapEntry : Word) (hrun : k.halted = false ∧ k.poweredOff = false)
    (hspace : KernelSpace (roundUp l.heapEnd.toNat) k.kernelPagetable k.vfs.mm) (hheap : HeapBounded l k.vfs.mm) :
    InOrder l (started l trapEntry k) ∧ (started l trapEntry k).stvec = trapEntry ∧
      (started l trapEntry k).sched = Scheduler.schedulerInit { k.sched with satp := satpOf k.kernelPagetable } ∧
      (started l trapEntry k).vfs.mm.numFreePages = k.vfs.mm.numFreePages := by
  obtain ⟨console, he⟩ := started_eq l trapEntry k
  rw [he]
  have hformatted := formattedMm_bounded hl hheap 256#32
  have hpages := formattedMm_samePages l 256#32 k.vfs.mm
  -- the end of the buffer must not be computed
  generalize formattedMm l 256#32 k.vfs.mm = mm at hformatted hpages ⊢
  refine ⟨⟨hrun, rfl, hspace.samePages hpages, ?_, rfl, ⟨_, rfl, SimpleFs.format_represents l k.fs k.vfs.mm⟩⟩, rfl, rfl,
    hpages.numFreePages⟩
  exact TestDevice.boot_served (v := { k.vfs with mm := mm }) hformatted.1 hformatted.2

theorem satpRoot_satpOf {pt : Word} (halign : Aligned pt) (hlt : pt.toNat < 2^56) : satpRoot (satpOf pt) = pt := by
  have hor : (satpOf pt).toNat = 2^63 + pt.toNat / 4096 := by
    rw [satpOf, BitVec.toNat_or, BitVec.toNat_ushiftRight, Nat.shiftRight_eq_div_pow]
    show 2^63 * 1 ||| pt.toNat / 2^12 = _
    rw [← Nat.two_pow_add_eq_or_of_lt (by omega)]
    omega
  apply BitVec.eq_of_toNat_eq
  rw [satpRoot, BitVec.toNat_ushiftRight, BitVec.toNat_shiftLeft, hor, Nat.shiftRight_eq_div_pow, Nat.shiftLeft_eq]
  rw [Aligned] at halign
  omega

theorem KernelSpace.identityMap {lo : Nat} {pt : Word} {mm : Mm} (hlo : 0 < lo) (h : KernelSpace lo pt mm) :
    Vm.IdentityMap mm (satpRoot (satpOf pt)) := by
  obtain ⟨maps, roots, hm, node, chain, held, hinv, hw⟩ := h
  have hroot := hinv.forest.root pt (by simp [hm])
  have hpage := hinv.split.isPage_held (hinv.owned _ _ hroot).1
  have hlt := hpage.2.1
  rw [memEnd_toNat] at hlt
  rw [satpRoot_satpOf hpage.aligned (by omega)]
  exact (hinv.refines hlo hm).identityMap

/-- `satp` holds a page table whose map is the one of the kernel. -/
theorem InOrder.identityMap (hr : l.InRam) (h : InOrder l k) : Vm.IdentityMap k.vfs.mm (satpRoot k.sched.satp) := by
  rw [h.paging]
  exact h.space.identityMap hr.roundUp_pos

end Order

section Boot

variable {l : Layout} {trapEntry : Word} {k₀ k : Kernel}

theorem InOrder.printAll (h : InOrder l k) (out : List Output) : InOrder l (k.printAll out) :=
  ⟨h.running, h.paging, h.space, h.device, h.blank, h.files⟩

theorem showSystemInfo_eq (k : Kernel) : ∃ console, showSystemInfo k = { k with console := console } := ⟨_, rfl⟩

theorem InOrder.showSystemInfo (h : InOrder l k) : InOrder l (KernelMain.showSystemInfo k) := h.printAll _

theorem InOrder.testVm (hr : l.InRam) (h : InOrder l k) :
    ∃ k', KernelMain.testVm k = .ret k' ∧ InOrder l k' ∧ PagesOnly k k' ∧
      (3 ≤ k.vfs.mm.numFreePages.toNat → k'.vfs.mm.numFreePages = k.vfs.mm.numFreePages) := by
  obtain ⟨k', hret, hpages, hspace, hcount⟩ := testVm_spec hr.roundUp_pos h.space
  have hheap : HeapBounded l k'.vfs.mm := by
    rw [HeapBounded, hpages.heap]
    exact h.device.heap
  refine ⟨k', hret, ?_, hpages, hcount⟩
  rw [hpages.same]
  exact h.setMm hspace hheap k'.console

theorem InOrder.testScheduler {x : Word} (h : InOrder l k) (hk : k.sched = { Sched.start with satp := x }) :
    InOrder l (KernelMain.testScheduler k) := by
  have hpaging := h.paging
  rw [hk] at hpaging
  rw [testScheduler_spec hk]
  exact ⟨h.running, hpaging, h.space, h.device, h.blank, h.files⟩

theorem InOrder.testFilesystem (h : InOrder l k) : InOrder l (KernelMain.testFilesystem k) := by
  obtain ⟨hsame, hnone⟩ := testFilesystem_spec h.files
  rw [hsame]
  exact ⟨h.running, h.paging, h.space, h.device, h.blank, hnone⟩

/-- `run_tests` comes to its end and leaves everything in order, with the processes of its test in
the queues. -/
theorem runTests_spec (hr : l.InRam) (h : InOrder l k) {x : Word} (hk : k.sched = { Sched.start with satp := x }) :
    ∃ k', runTests k = .ret k' ∧ InOrder l k' ∧ k'.stvec = k.stvec ∧
      k'.sched = { testedSched Sched.start with satp := x } ∧
      (3 ≤ k.vfs.mm.numFreePages.toNat → k'.vfs.mm.numFreePages = k.vfs.mm.numFreePages) := by
  let k₁ := k.printAll [.printf "\n========================================\n" [],
    .printf "  Running System Tests\n" [], .printf "========================================\n\n" []]
  obtain ⟨k₂, hvm, h₂, hpages, hcount⟩ := InOrder.testVm hr (h.printAll _ : InOrder l k₁)
  have hsched₂ : k₂.sched = { Sched.start with satp := x } := by
    rw [hpages.same]
    exact hk
  obtain ⟨k₃, hk₃⟩ : ∃ k₃, k₃ = testScheduler (k₂.printf "\n" []) := ⟨_, rfl⟩
  have hscheduler : k₃ = { k₂ with sched := { testedSched Sched.start with satp := x }, console := k₃.console } := by
    rw [hk₃]
    exact testScheduler_spec (k := k₂.printf "\n" []) hsched₂
  have h₃ : InOrder l k₃ := by
    rw [hk₃]
    exact InOrder.testScheduler (h₂.printAll _) hsched₂
  obtain ⟨k₄, hk₄⟩ : ∃ k₄, k₄ = testFilesystem (k₃.printf "\n" []) := ⟨_, rfl⟩
  have hfiles : k₄ = { k₃ with fs := k₄.fs, console := k₄.console } := by
    rw [hk₄]
    exact (testFilesystem_spec (k := k₃.printf "\n" []) h₃.files).1
  have h₄ : InOrder l k₄ := by
    rw [hk₄]
    exact (h₃.printAll _).testFilesystem
  have hrun : runTests k = .ret ((k₄.printf "\n" []).printAll [rule, .printf "  All Tests Completed\n" [],
      .printf "========================================\n\n" []]) := by
    rw [hk₄, hk₃]
    show (testVm k₁).bind _ = _
    rw [hvm, Vm.Outcome.bind]
  refine ⟨_, hrun, (h₄.printAll _).printAll _, ?_, ?_, ?_⟩
  · show k₄.stvec = k.stvec
    rw [hfiles, hscheduler, hpages.same]
    rfl
  · show k₄.sched = _
    rw [hfiles, hscheduler]
  · show 3 ≤ _ → k₄.vfs.mm.numFreePages = _
    rw [hfiles, hscheduler]
    exact hcount

/-- What `kernel_main` has brought about when it gets to its shell. -/
structure Booted (l : Layout) (trapEntry : Word) (k : Kernel) : Prop where
  order : InOrder l k
  stvec : k.stvec = trapEntry
  sched : ∃ x, k.sched = { testedSched Sched.start with satp := x }
  pages : 104 ≤ numPages l → k.vfs.mm.numFreePages.toNat + 101 = numPages l

/-- The data before anything has run. -/
structure Cold (k : Kernel) : Prop where
  sched : k.sched = Sched.boot
  running : k.halted = false ∧ k.poweredOff = false

theorem mmInit_eq (l : Layout) (k : Kernel) : ∃ console, mmInit l k = { k with
    vfs := { k.vfs with mm := PageAlloc.mmInit l k.vfs.mm.mem }
    console := console } :=
  ⟨_, rfl⟩

theorem vmInit_ret {pt : Word} {mm : Mm} (hret : Vm.kvminit k.vfs.mm = .ret (pt, mm)) : ∃ console,
    vmInit k = .ret { k with vfs := { k.vfs with mm := mm }, kernelPagetable := pt, console := console } := by
  simp only [vmInit, Kernel.printf, Kernel.printAll, Kernel.setMm, hret, Vm.Outcome.bind]
  exact ⟨_, rfl⟩

theorem vmInit_panic {msg : String} (hpanic : Vm.kvminit k.vfs.mm = .panic msg) : vmInit k = .panic msg := by
  simp only [vmInit, Kernel.printf, Kernel.printAll, hpanic, Vm.Outcome.bind]

/-- With 101 free pages `vm_init` gives the kernel its page table. -/
theorem vmInit_done (hr : l.InRam) (hl : l.Linked) (hcold : Cold k₀) (hp : 101 ≤ numPages l) :
    ∃ k, vmInit (mmInit l (greeted k₀)) = .ret k ∧ Cold k ∧
      KernelSpace (roundUp l.heapEnd.toNat) k.kernelPagetable k.vfs.mm ∧ HeapBounded l k.vfs.mm ∧
      k.vfs.mm.numFreePages.toNat + 101 = numPages l := by
  obtain ⟨pt, mm, _, _, _, hret, _⟩ := Vm.kvminit_done hr k₀.vfs.mm.mem hp
  obtain ⟨maps, hm, hinv⟩ := Vm.kvminit_space hr hret
  have hheap : HeapBounded l mm := by
    rw [HeapBounded, Vm.kvminit_heap hret]
    exact ⟨Nat.le_refl _, hl.order⟩
  obtain ⟨console₀, hmm⟩ := mmInit_eq l (greeted k₀)
  obtain ⟨console₁, hvm⟩ := vmInit_ret (k := mmInit l (greeted k₀)) (by rw [hmm]; exact hret)
  refine ⟨_, hvm, ?_, ⟨maps, [pt], hm, hinv⟩, hheap, (Vm.kvminit_pages hr hret).2⟩
  rw [hmm]
  exact ⟨hcold.sched, hcold.running⟩

/-- From the first output about the system on nothing can fail any more. -/
theorem tested_spec (hr : l.InRam) (hl : l.Linked) (h : InOrder l k) {x : Word}
    (hk : k.sched = { Sched.start with satp := x }) :
    ∃ k', ((runTests (showSystemInfo k)).bind fun k => .ret (testMemory l k)) = .ret k' ∧ InOrder l k' ∧
      k'.stvec = k.stvec ∧ k'.sched = { testedSched Sched.start with satp := x } ∧
      (3 ≤ k.vfs.mm.numFreePages.toNat → k'.vfs.mm.numFreePages = k.vfs.mm.numFreePages) := by
  have hshown := h.showSystemInfo
  obtain ⟨console, hshow⟩ := showSystemInfo_eq k
  rw [hshow] at hshown ⊢
  obtain ⟨k₁, htests, h₁, hvec, hsched, hpages⟩ := runTests_spec hr hshown hk
  obtain ⟨horder, mm, console', he, hmm⟩ := h₁.testMemory hr hl
  refine ⟨_, by rw [htests, Vm.Outcome.bind], horder, ?_, ?_, ?_⟩
  · rw [he]
    exact hvec
  · rw [he]
    exact hsched
  · intro hp
    rw [he]
    exact hmm.trans (hpages hp)

theorem schedulerInit_boot (x : Word) :
    Scheduler.schedulerInit { Sched.boot with satp := x } = { Sched.start with satp := x } := rfl

theorem kernelMain_done (hr : l.InRam) (hl : l.Linked) (trapEntry : Word) (hcold : Cold k₀) (hp : 101 ≤ numPages l) :
    ∃ k, kernelMain l trapEntry k₀ = .ret k ∧ Booted l trapEntry k := by
  obtain ⟨k₁, hvm, hcold₁, hspace, hheap, hcount⟩ := vmInit_done hr hl hcold hp
  obtain ⟨hstarted, hvec, hsched, hfree⟩ := started_order hl trapEntry hcold₁.running hspace hheap
  rw [hcold₁.sched, schedulerInit_boot] at hsched
  obtain ⟨k, hret, horder, hvec', hsched', hpages⟩ := tested_spec hr hl hstarted hsched
  refine ⟨k, ?_, horder, hvec'.trans hvec, ⟨_, hsched'⟩, ?_⟩
  · rw [kernelMain_eq, hvm, Vm.Outcome.bind]
    exact hret
  · intro hp
    have hthree : 3 ≤ (started l trapEntry k₁).vfs.mm.numFreePages.toNat := by
      rw [hfree]
      omega
    rw [hpages hthree, hfree]
    exact hcount

theorem kernelMain_panics (hr : l.InRam) (trapEntry : Word) (k₀ : Kernel) (hp : numPages l < 101) :
    ∃ msg, kernelMain l trapEntry k₀ = .panic msg := by
  obtain ⟨console, hmm⟩ := mmInit_eq l (greeted k₀)
  cases hk : Vm.kvminit (PageAlloc.mmInit l k₀.vfs.mm.mem) with
  | ret r =>
    have hpages := (Vm.kvminit_pages hr hk).1
    omega
  | panic msg =>
    have hvm : vmInit (mmInit l (greeted k₀)) = .panic msg := vmInit_panic (by rw [hmm]; exact hk)
    exact ⟨msg, by rw [kernelMain_eq, hvm, Vm.Outcome.bind]⟩
  | spin => exact absurd hk Vm.kvminit_ne_spin

/-- `kernel_main` gets to its shell when there are 101 free pages, and panics when there are fewer.
In the shell the page table in `satp` has the identity map, the processes of `test_scheduler` are in
the queues of their classes, the device is there to be opened, the file system is empty and traps go
to the vector; with 104 pages, all are free but those of the kernel's page table. -/
theorem kernel_boots_iff (hr : l.InRam) (hl : l.Linked) (trapEntry : Word) (hcold : Cold k₀) :
    ((∃ k, kernelMain l trapEntry k₀ = .ret k) ↔ 101 ≤ numPages l) ∧
    ((∃ msg, kernelMain l trapEntry k₀ = .panic msg) ↔ numPages l < 101) ∧
    ∀ k, kernelMain l trapEntry k₀ = .ret k →
      Vm.IdentityMap k.vfs.mm (satpRoot k.sched.satp) ∧ TestQueues k.sched ∧ TestDevice.Served l ⟨k.vfs, []⟩ ∧
      NoFiles 256#32 k.fs ∧ k.stvec = trapEntry ∧ k.halted = false ∧
      (104 ≤ numPages l → k.vfs.mm.numFreePages.toNat + 101 = numPages l) := by
  by_cases hp : 101 ≤ numPages l
  · obtain ⟨k, hret, hbooted⟩ := kernelMain_done hr hl trapEntry hcold hp
    refine ⟨⟨fun _ => hp, fun _ => ⟨k, hret⟩⟩, ⟨?_, fun hlt => absurd hp (by omega)⟩, ?_⟩
    · rintro ⟨msg, hpanic⟩
      rw [hret] at hpanic
      cases hpanic
    · intro k' hret'
      rw [hret] at hret'
      obtain rfl := Vm.Outcome.ret.inj hret'
      obtain ⟨x, hsched⟩ := hbooted.sched
      refine ⟨hbooted.order.identityMap hr, ?_, hbooted.order.device, hbooted.order.files, hbooted.stvec,
        hbooted.order.running.1, hbooted.pages⟩
      rw [hsched]
      exact testedSched_start.setSatp x
  · obtain ⟨msg, hpanic⟩ := kernelMain_panics hr trapEntry k₀ (by omega)
    have hnone (k : Kernel) : kernelMain l trapEntry k₀ ≠ .ret k := by
      rw [hpanic]
      simp
    refine ⟨⟨fun ⟨k, hret⟩ => absurd hret (hnone k), fun h => absurd h hp⟩, ⟨fun _ => by omega, fun _ => ⟨msg, hpanic⟩⟩,
      fun k hret => absurd hret (hnone k)⟩

/-- The data of the kernel after `clear_bss`, over memory with any old contents. -/
def coldKernel : Kernel where
  sched := Sched.boot
  console := ⟨0, []⟩
  sstatus := 0#64
  sie := 0#64
  stvec := 0#64
  halted := false
  vfs := ⟨fun _ => ⟨fun _ => 0#8, ⟨none, none, none, none, none⟩, false⟩, 1#32, ⟨fun _ => 7#64, 0#64, 0#64, 0#64⟩,
    fun _ => ⟨7#32, 7#32, 7#32, 7#32, none, 7#64⟩, fun _ => ⟨7#64, 7#32, 7#32⟩, ⟨fun _ => 0#8, 0#32⟩⟩
  fs := ⟨⟨0#32, 0#32, 0#32, 0#32, 0#32, 0#32⟩, fun _ => ⟨0#32, 0#32, 0#32, fun _ => 0#32, fun _ => 0#8⟩, 0#64⟩
  kernelPagetable := 0#64
  poweredOff := false

theorem coldKernel_cold : Cold coldKernel := ⟨rfl, rfl, rfl⟩

theorem bootLayout_linked : Vm.bootLayout.Linked := ⟨by decide, by decide, by decide, by decide⟩

/-- In the layout of the linker script 31131 pages are free when the shell starts. -/
theorem kernel_boots_iff_layout : ∃ k, kernelMain Vm.bootLayout 0x80200400#64 coldKernel = .ret k ∧
    Vm.IdentityMap k.vfs.mm (satpRoot k.sched.satp) ∧ k.vfs.mm.numFreePages.toNat = 31131 := by
  obtain ⟨hret, _, hshell⟩ := kernel_boots_iff (l := Vm.bootLayout) (by decide) bootLayout_linked 0x80200400#64
    coldKernel_cold
  obtain ⟨k, hk⟩ := hret.mpr (by decide)
  obtain ⟨hmap, _, _, _, _, _, hpages⟩ := hshell k hk
  have hcount := hpages (by decide)
  have hnum : numPages Vm.bootLayout = 31232 := by decide
  exact ⟨k, hk, hmap, by omega⟩

end Boot

end RiscvOs.KernelMain
