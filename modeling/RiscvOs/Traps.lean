import RiscvOs.Uart
import RiscvOs.SchedulerCalls
set_option autoImplicit false

/-!
Traps of the kernel: `trap_init` and the dispatch of `trap_handler` in `kernel/trap/trap.c`, and
`panic`. A kernel that has panicked waits with its interrupts off, so it takes no trap any more.
-/

namespace RiscvOs.Traps
open WordMemory CStrings Scheduler Uart Runs

def sstatusSie : Word := 1#64 <<< 1
def sieSsie : Word := 1#64 <<< 1
def sieStie : Word := 1#64 <<< 5
def sieSeie : Word := 1#64 <<< 9
def interruptBit : Word := 1#64 <<< 63

/-- What traps reach: the scheduler, the console and the registers of `trap_init`. -/
structure TrapState where
  sched : Sched
  console : Console
  sstatus : Word
  sie : Word
  stvec : Word
  halted : Bool

def TrapState.printf (fmt : String) (args : List Arg) (s : TrapState) : TrapState :=
  { s with console := s.console.printf fmt args }

/-- A string of the kernel's text as an argument. -/
def text (s : String) : Arg := .str (cstring (s.toList.map byte))

def panic (msg : String) (s : TrapState) : TrapState :=
  let s := s.printf "\n\n*** KERNEL PANIC ***\n" []
  let s := s.printf "%s\n" [text msg]
  { s.printf "System halted.\n" [] with halted := true }

/-- `trap_init`; `trapEntry` is the address of the assembly. -/
def trapInit (trapEntry : Word) (s : TrapState) : TrapState :=
  let s := s.printf "[TRAP] Initializing trap handling\n" []
  let s := { s with
    stvec := trapEntry
    sie := s.sie ||| sieSeie ||| sieStie ||| sieSsie
    sstatus := s.sstatus ||| sstatusSie }
  s.printf "[TRAP] Trap vector set to %p\n" [.num s.stvec]

structure Trap where
  scause : Word
  sepc : Word
  stval : Word

def Trap.isInterrupt (t : Trap) : Bool := t.scause &&& interruptBit != 0#64

/-- The `switch` on the cause of an exception. -/
def exceptionText (scause : Word) : String × List Arg :=
  if scause = 0#64 then ("  Instruction address misaligned\n", [])
  else if scause = 1#64 then ("  Instruction access fault\n", [])
  else if scause = 2#64 then ("  Illegal instruction\n", [])
  else if scause = 3#64 then ("  Breakpoint\n", [])
  else if scause = 4#64 then ("  Load address misaligned\n", [])
  else if scause = 5#64 then ("  Load access fault\n", [])
  else if scause = 6#64 then ("  Store address misaligned\n", [])
  else if scause = 7#64 then ("  Store access fault\n", [])
  else if scause = 8#64 then ("  Environment call from U-mode\n", [])
  else if scause = 9#64 then ("  Environment call from S-mode\n", [])
  else ("  Unknown exception: %u\n", [num32 (scause.setWidth 32)])

/-- `trap_handler`. When its `sched_tick` switches to another process, the aging part of the tick
runs once this one has the CPU again. -/
def trapHandler (t : Trap) (switched : Bool) (s : TrapState) : TrapState :=
  if t.isInterrupt then
    let intNum := t.scause &&& ~~~interruptBit
    if intNum = 1#64 then s.printf "[TRAP] Software interrupt\n" []
    else if intNum = 5#64 then { s with sched := if switched then tickHead s.sched else schedTick s.sched }
    else if intNum = 9#64 then s.printf "[TRAP] External interrupt\n" []
    else s.printf "[TRAP] Unknown interrupt: %u\n" [num32 (intNum.setWidth 32)]
  else
    let s := s.printf "\n[TRAP] Exception occurred!\n" []
    let s := s.printf "  scause: %p\n" [.num t.scause]
    let s := s.printf "  sepc:   %p\n" [.num t.sepc]
    let s := s.printf "  stval:  %p\n" [.num t.stval]
    let r := exceptionText t.scause
    panic "Unhandled exception" (s.printf r.1 r.2)

inductive TrapEvent where
  | trap (t : Trap) (switched : Bool)
  | resumed

/-- Traps are taken, and processes get the CPU back, while the kernel has not halted. -/
def TrapState.take (s : TrapState) (e : TrapEvent) : TrapState :=
  if s.halted then s
  else
    match e with
    | .trap t switched => trapHandler t switched s
    | .resumed => { s with sched := tickTail s.sched }

/-- The supervisor timer interrupt. -/
def Trap.isTimer (t : Trap) : Bool := t.scause == (interruptBit ||| 5#64)

/-- The exception that halts the kernel. -/
def TrapEvent.isException : TrapEvent → Bool
  | .trap t _ => !t.isInterrupt
  | .resumed => false

/-- What an event asks of the scheduler. -/
def TrapEvent.schedCalls : TrapEvent → List SchedCall
  | .trap t switched => if t.isTimer then [if switched then .tickHead else .tick] else []
  | .resumed => [.tickTail]

/-- What `panic` puts out. -/
def panicText (msg : String) : List Output :=
  [.printf "\n\n*** KERNEL PANIC ***\n" [], .printf "%s\n" [text msg], .printf "System halted.\n" []]

section Handler

variable {s : TrapState} {t : Trap}

/-- Everything but the scheduler and what is put out. -/
structure SameSetup (s u : TrapState) : Prop where
  taken : u.console.taken = s.console.taken
  sstatus : u.sstatus = s.sstatus
  sie : u.sie = s.sie
  stvec : u.stvec = s.stvec
  out : s.console.out <+: u.console.out

theorem SameSetup.refl (s : TrapState) : SameSetup s s := ⟨rfl, rfl, rfl, rfl, List.prefix_rfl⟩

theorem SameSetup.trans {u v : TrapState} (h : SameSetup s u) (h' : SameSetup u v) : SameSetup s v :=
  ⟨h'.taken.trans h.taken, h'.sstatus.trans h.sstatus, h'.sie.trans h.sie, h'.stvec.trans h.stvec,
    h.out.trans h'.out⟩

theorem printf_setup (fmt : String) (args : List Arg) (s : TrapState) : SameSetup s (s.printf fmt args) :=
  ⟨rfl, rfl, rfl, rfl, List.prefix_append _ _⟩

/-- An interrupt number is the cause without its top bit. -/
theorem intNum_eq_iff (hint : t.isInterrupt = true) :
    t.scause &&& ~~~interruptBit = 5#64 ↔ t.isTimer = true := by
  have htwo : interruptBit = BitVec.twoPow 64 63 := by decide
  have htop : t.scause &&& interruptBit = interruptBit := by
    rw [Trap.isInterrupt, bne_iff_ne, htwo, BitVec.and_twoPow] at hint
    rw [htwo, BitVec.and_twoPow]
    exact if_pos (by_contra fun hn => hint (if_neg hn))
  have hsplit : t.scause = interruptBit ||| (t.scause &&& ~~~interruptBit) := calc
    t.scause = t.scause &&& (interruptBit ||| ~~~interruptBit) := by rw [BitVec.or_not_self, BitVec.and_allOnes]
    _ = (t.scause &&& interruptBit) ||| (t.scause &&& ~~~interruptBit) := BitVec.and_or_distrib_left
    _ = interruptBit ||| (t.scause &&& ~~~interruptBit) := by rw [htop]
  rw [Trap.isTimer, beq_iff_eq]
  constructor
  · intro h
    rw [hsplit, h]
  · intro h
    rw [h]
    decide

theorem trapHandler_interrupt (hint : t.isInterrupt = true) (switched : Bool) :
    (trapHandler t switched s).halted = s.halted ∧ SameSetup s (trapHandler t switched s) ∧
    (trapHandler t switched s).sched = (TrapEvent.trap t switched).schedCalls.foldl Sched.exec s.sched := by
  rw [trapHandler, if_pos hint]
  simp only [TrapEvent.schedCalls, ← intNum_eq_iff hint]
  by_cases h1 : t.scause &&& ~~~interruptBit = 1#64
  · rw [if_pos h1, h1, if_neg (by decide)]
    exact ⟨rfl, printf_setup .., rfl⟩
  · rw [if_neg h1]
    by_cases h5 : t.scause &&& ~~~interruptBit = 5#64
    · rw [if_pos h5, if_pos h5]
      refine ⟨rfl, ⟨rfl, rfl, rfl, rfl, List.prefix_rfl⟩, ?_⟩
      cases switched <;> rfl
    · rw [if_neg h5, if_neg h5]
      split <;> exact ⟨rfl, printf_setup .., rfl⟩

theorem panic_out (msg : String) (s : TrapState) : (panic msg s).console.out = s.console.out ++ panicText msg := by
  simp [panic, panicText, TrapState.printf, Console.printf]

theorem panic_case (msg : String) (s : TrapState) :
    (panic msg s).halted = true ∧ SameSetup s (panic msg s) ∧ (panic msg s).sched = s.sched := by
  refine ⟨rfl, ⟨rfl, rfl, rfl, rfl, ?_⟩, rfl⟩
  rw [panic_out]
  exact List.prefix_append _ _

/-- What the handler puts out about an exception before it looks at the cause. -/
def exceptionHead (t : Trap) (s : TrapState) : TrapState :=
  (((s.printf "\n[TRAP] Exception occurred!\n" []).printf "  scause: %p\n" [.num t.scause]).printf
    "  sepc:   %p\n" [.num t.sepc]).printf "  stval:  %p\n" [.num t.stval]

theorem exceptionHead_case (t : Trap) (s : TrapState) :
    SameSetup s (exceptionHead t s) ∧ (exceptionHead t s).sched = s.sched :=
  ⟨(((printf_setup ..).trans (printf_setup ..)).trans (printf_setup ..)).trans (printf_setup ..), rfl⟩

/-- An exception leaves the scheduler alone and ends in `panic`. -/
theorem trapHandler_exception (hint : t.isInterrupt = false) (switched : Bool) :
    (trapHandler t switched s).halted = true ∧ SameSetup s (trapHandler t switched s) ∧
    (trapHandler t switched s).sched = s.sched ∧
    panicText "Unhandled exception" <:+ (trapHandler t switched s).console.out := by
  have hbranch : trapHandler t switched s = panic "Unhandled exception"
      ((exceptionHead t s).printf (exceptionText t.scause).1 (exceptionText t.scause).2) :=
    if_neg (by rw [hint]; decide)
  obtain ⟨hhead, hsched⟩ := exceptionHead_case t s
  obtain ⟨hhalted, hpanic, hkept⟩ := panic_case "Unhandled exception"
    ((exceptionHead t s).printf (exceptionText t.scause).1 (exceptionText t.scause).2)
  rw [hbranch]
  refine ⟨hhalted, (hhead.trans (printf_setup ..)).trans hpanic, hkept.trans hsched, ?_⟩
  rw [panic_out]
  exact List.suffix_append _ _

end Handler

section Runs

variable {s : TrapState} {e : TrapEvent}

theorem take_halted (hs : s.halted = true) (events : List TrapEvent) : events.foldl TrapState.take s = s := by
  induction events with
  | nil => rfl
  | cons e es ih =>
    have htake : s.take e = s := if_pos hs
    rw [List.foldl_cons, htake, ih]

theorem take_goes_on (hs : s.halted = false) (he : e.isException = false) :
    (s.take e).halted = false ∧ SameSetup s (s.take e) ∧
    (s.take e).sched = e.schedCalls.foldl Sched.exec s.sched := by
  have hrun : ¬ s.halted = true := by
    rw [hs]
    decide
  cases e with
  | resumed =>
    have htake : s.take .resumed = { s with sched := tickTail s.sched } := if_neg hrun
    rw [htake]
    exact ⟨hs, ⟨rfl, rfl, rfl, rfl, List.prefix_rfl⟩, rfl⟩
  | trap t switched =>
    have htake : s.take (.trap t switched) = trapHandler t switched s := if_neg hrun
    have hint : t.isInterrupt = true := by simpa [TrapEvent.isException] using he
    rw [htake]
    obtain ⟨hhalted, hsame, hsched⟩ := trapHandler_interrupt (s := s) hint switched
    exact ⟨hhalted.trans hs, hsame, hsched⟩

/-- What a run of traps does: the kernel halts with the first exception, and until then each timer
interrupt is one tick of the scheduler and no other trap reaches it. No call from user mode is ever
served, since an environment call is an exception. -/
theorem traps_halt_iff (hs : s.halted = false) (events : List TrapEvent) :
    let u := events.foldl TrapState.take s
    let before := events.takeWhile fun e => !e.isException
    (u.halted = true ↔ ∃ e ∈ events, e.isException = true) ∧
    u.sched = (before.flatMap TrapEvent.schedCalls).foldl Sched.exec s.sched ∧ SameSetup s u ∧
    (u.halted = true → panicText "Unhandled exception" <:+ u.console.out) := by
  induction events generalizing s with
  | nil => exact ⟨by simp [hs], rfl, .refl s, fun hu => absurd (hs.symm.trans hu) (by decide)⟩
  | cons e es ih =>
    rw [List.foldl_cons]
    cases he : e.isException with
    | false =>
      obtain ⟨hhalted, hsetup, hsched⟩ := take_goes_on hs he
      obtain ⟨hiff, hrun, hsame, hout⟩ := ih hhalted
      refine ⟨?_, ?_, hsetup.trans hsame, hout⟩
      · rw [hiff]
        simp [he]
      · rw [hrun, hsched, List.takeWhile_cons, he, ← List.foldl_append]
        rfl
    | true =>
      cases e with
      | resumed => cases he
      | trap t switched =>
        have hint : t.isInterrupt = false := by simpa [TrapEvent.isException] using he
        obtain ⟨hhalted, hsetup, hsched, hout⟩ := trapHandler_exception (s := s) hint switched
        have htake : s.take (.trap t switched) = trapHandler t switched s := if_neg (by rw [hs]; decide)
        rw [htake, take_halted hhalted]
        refine ⟨⟨fun _ => ⟨_, List.mem_cons_self, he⟩, fun _ => hhalted⟩, ?_, hsetup, fun _ => hout⟩
        rw [hsched, List.takeWhile_cons, he]
        rfl

/-- A tick, an interrupt of another kind, and an environment call after which no tick counts. -/
theorem traps_halt_iff_ecall :
    let s : TrapState := ⟨Sched.start, ⟨0, []⟩, 0#64, 0#64, 0#64, false⟩
    let events : List TrapEvent := [.trap ⟨interruptBit ||| 5#64, 0#64, 0#64⟩ false,
      .trap ⟨interruptBit ||| 9#64, 0#64, 0#64⟩ false, .trap ⟨8#64, 0#64, 0#64⟩ false,
      .trap ⟨interruptBit ||| 5#64, 0#64, 0#64⟩ false]
    let u := events.foldl TrapState.take s
    u.halted = true ∧ u.sched = schedTick Sched.start := by
  intro s events u
  obtain ⟨hhalted, hsched, _, _⟩ := traps_halt_iff (s := s) rfl events
  exact ⟨hhalted.mpr ⟨.trap ⟨8#64, 0#64, 0#64⟩ false, by simp [events], by decide⟩, hsched⟩

end Runs

end RiscvOs.Traps
