import RiscvOs.Session
import RiscvOs.Outputs
set_option autoImplicit false

/-!
What the kernel puts out from its boot on, in all sessions of the shell: each `printf` that it calls
meets arguments of the kinds that its conversions take.
-/

namespace RiscvOs.KernelMain
open WordMemory CStrings PageAlloc Scheduler Uart Traps Syscalls

/-- Each of the outputs has a text. -/
def AllFit (xs : List Output) : Prop := ∀ o ∈ xs, o.Fits

theorem allFit_append {xs ys : List Output} : AllFit (xs ++ ys) ↔ AllFit xs ∧ AllFit ys := List.forall_mem_append

theorem allFit_cons {o : Output} {xs : List Output} : AllFit (o :: xs) ↔ o.Fits ∧ AllFit xs := List.forall_mem_cons

theorem allFit_nil : AllFit [] := nofun

theorem AllFit.ite {xs ys : List Output} {p : Prop} [Decidable p] (hx : AllFit xs) (hy : AllFit ys) :
    AllFit (if p then xs else ys) := by
  split
  · exact hx
  · exact hy

theorem allFit_kernel {a b : Kernel} {p : Prop} [Decidable p] (ha : AllFit a.console.out) (hb : AllFit b.console.out) :
    AllFit (if p then a else b).console.out := by
  split
  · exact ha
  · exact hb

/-- An output of numbers. The format is faster to compare with its characters than to take apart. -/
theorem fits_numbers {fmt : String} {cs : List Char} {args : List Arg} (hchars : String.ofList cs = fmt)
    (hkinds : ((args.all fun a => !a.isStr) && kindsOk false (cs.map byte) (args.map Arg.isStr)) = true) :
    Output.Fits (.printf fmt args) := by
  rw [Bool.and_eq_true, List.all_eq_true] at hkinds
  obtain ⟨hnum, hfits⟩ := hkinds
  refine ⟨by rwa [← hchars, String.toList_ofList], fun s hs => ?_⟩
  cases hnum _ hs

/-- An output of a string, with numbers before and after it. -/
theorem fits_string {fmt : String} {cs : List Char} {s : Nat → Byte} {after : List Arg} {i : Nat} (before : List Arg)
    (hs : s i = 0#8) (hchars : String.ofList cs = fmt)
    (hkinds : (((before ++ after).all fun a => !a.isStr) &&
      kindsOk false (cs.map byte) ((before ++ .str s :: after).map Arg.isStr)) = true) :
    Output.Fits (.printf fmt (before ++ .str s :: after)) := by
  rw [Bool.and_eq_true, List.all_eq_true] at hkinds
  obtain ⟨hnum, hfits⟩ := hkinds
  refine ⟨by rwa [← hchars, String.toList_ofList], fun s' hs' => ?_⟩
  rcases List.mem_append.mp hs' with hmem | hmem
  · cases hnum _ (List.mem_append_left _ hmem)
  · rcases List.mem_cons.mp hmem with he | hmem
    · rw [Arg.str.inj he]
      exact ⟨i, hs⟩
    · cases hnum _ (List.mem_append_right _ hmem)

theorem cstring_end (text : List Byte) : cstring text text.length = 0#8 := by
  rw [cstring, List.getD_eq_getElem?_getD, List.getElem?_eq_none (Nat.le_refl _), Option.getD_none]

section Boot

variable {l : Layout} {k : Kernel}

theorem kmallocPrints_fits (l : Layout) (size : Word) (mm : Mm) : AllFit (kmallocPrints l size mm) :=
  .ite (allFit_cons.mpr ⟨fits_numbers rfl rfl, allFit_nil⟩) allFit_nil

theorem allocPagePrints_fits (mm : Mm) : AllFit (allocPagePrints mm) :=
  .ite (allFit_cons.mpr ⟨fits_numbers rfl rfl, allFit_nil⟩) allFit_nil

theorem showSystemInfo_fits (h : AllFit k.console.out) : AllFit (showSystemInfo k).console.out := by
  simp only [showSystemInfo, Kernel.printAll, allFit_append, allFit_cons, allFit_nil, and_true]
  refine ⟨h, ?_, ?_, ?_, ?_, ?_, ?_, ?_, ?_⟩ <;>
    exact fits_numbers rfl rfl

theorem nameArg_end (x : Process) : (fun i => if h : i < 32 then x.name ⟨i, h⟩ else 0#8) 32 = 0#8 :=
  dif_neg (by decide)

theorem schedStats_fits (s : Sched) : AllFit (schedStats s) := by
  simp only [schedStats, allFit_append, allFit_cons, allFit_nil, and_true, rule]
  refine ⟨⟨⟨⟨⟨?_, ?_⟩, ?_⟩, ?_⟩, ?_⟩, fits_numbers rfl rfl⟩
  · refine ⟨?_, ?_, ?_, ?_, ?_⟩ <;> exact fits_numbers rfl rfl
  · split
    · exact allFit_cons.mpr ⟨fits_numbers rfl rfl, allFit_nil⟩
    · exact allFit_nil
  · split
    · exact allFit_cons.mpr ⟨fits_string [] (nameArg_end _) rfl rfl, allFit_nil⟩
    · exact allFit_nil
  · exact ⟨fits_numbers rfl rfl, fits_numbers rfl rfl⟩
  · intro o ho
    obtain ⟨i, _, rfl⟩ := List.mem_map.mp ho
    exact fits_numbers rfl rfl

theorem testMemory_fits (h : AllFit k.console.out) : AllFit (testMemory l k).console.out := by
  simp only [testMemory, Kernel.allocPage, Kernel.kmalloc, Kernel.freePage, Kernel.printf, Kernel.printAll,
    Kernel.setMm, allFit_append, allFit_cons, allFit_nil, and_true, and_assoc]
  exact ⟨h, fits_numbers rfl rfl, allocPagePrints_fits _, allocPagePrints_fits _, fits_numbers rfl rfl,
    kmallocPrints_fits _ _ _, kmallocPrints_fits _ _ _, fits_numbers rfl rfl, fits_numbers rfl rfl⟩

theorem printf_fits (h : AllFit k.console.out) {fmt : String} {args : List Arg}
    (hfits : Output.Fits (.printf fmt args)) : AllFit (k.printf fmt args).console.out :=
  allFit_append.mpr ⟨h, allFit_cons.mpr ⟨hfits, allFit_nil⟩⟩

end Boot

section Traps

variable {s : TrapState}

theorem exceptionText_fits (scause : Word) :
    Output.Fits (.printf (exceptionText scause).1 (exceptionText scause).2) := by
  unfold exceptionText
  repeat' split
  all_goals exact fits_numbers rfl rfl

theorem exceptionHead_fits (h : AllFit s.console.out) (t : Trap) : AllFit (exceptionHead t s).console.out := by
  simp only [exceptionHead, TrapState.printf, Console.printf, allFit_append, allFit_cons, allFit_nil, and_true,
    and_assoc]
  refine ⟨h, ?_, ?_, ?_, ?_⟩ <;>
    exact fits_numbers rfl rfl

theorem panic_fits (h : AllFit s.console.out) (msg : String) : AllFit (Traps.panic msg s).console.out := by
  simp only [Traps.panic, Traps.text, TrapState.printf, Console.printf, allFit_append, allFit_cons, allFit_nil, and_true,
    and_assoc]
  exact ⟨h, fits_numbers rfl rfl, fits_string [] (cstring_end _) rfl rfl, fits_numbers rfl rfl⟩

theorem trapHandler_fits (h : AllFit s.console.out) (t : Trap) : AllFit (trapHandler t false s).console.out := by
  have hprint {u : TrapState} (hu : AllFit u.console.out) {fmt : String} {args : List Arg}
      (hfits : Output.Fits (.printf fmt args)) : AllFit (u.printf fmt args).console.out :=
    allFit_append.mpr ⟨hu, allFit_cons.mpr ⟨hfits, allFit_nil⟩⟩
  unfold trapHandler
  split
  · dsimp only
    split
    · exact hprint h (fits_numbers rfl rfl)
    · split
      · exact h
      · split
        · exact hprint h (fits_numbers rfl rfl)
        · exact hprint h (fits_numbers rfl rfl)
  · exact panic_fits (hprint (exceptionHead_fits h t) (exceptionText_fits t.scause)) _

end Traps

section Commands

variable {l : Layout} {k : Kernel}

theorem vfsOpenPrints_fits {δ : Type} {path : Nat → Byte} {i : Nat} (hpath : VirtualFs.skipSlash path i = 0#8)
    (v : VirtualFs.Vfs δ) : AllFit (vfsOpenPrints l path v) := by
  unfold vfsOpenPrints
  split
  · exact allFit_cons.mpr ⟨fits_string [] hpath rfl rfl, allFit_nil⟩
  · exact allFit_append.mpr ⟨kmallocPrints_fits _ _ _, .ite allFit_nil (kmallocPrints_fits _ _ _)⟩

theorem testdevIo_fits (h : AllFit k.console.out) (file : Word) : AllFit (testdevIo file k).console.out := by
  simp only [testdevIo, Kernel.printf, Kernel.printAll, Kernel.vfsClose]
  refine allFit_kernel ?_ (allFit_kernel ?_ (allFit_kernel ?_ ?_)) <;>
    simp only [allFit_append, allFit_cons, allFit_nil, and_true, and_assoc]
  · exact ⟨h, fits_numbers rfl rfl⟩
  · exact ⟨h, fits_numbers rfl rfl, fits_numbers rfl rfl⟩
  · exact ⟨h, fits_numbers rfl rfl, fits_numbers rfl rfl⟩
  · refine ⟨allFit_kernel ?_ ?_, fits_numbers rfl rfl⟩ <;>
      simp only [allFit_append, allFit_cons, allFit_nil, and_true, and_assoc]
    · exact ⟨h, fits_numbers rfl rfl, fits_string [_] (cstring_end _) rfl rfl⟩
    · exact ⟨h, fits_numbers rfl rfl⟩

theorem runTestdev_fits (h : AllFit k.console.out) : AllFit (runTestdev l k).console.out := by
  have hpath : VirtualFs.skipSlash TestDevice.testdevPath 7 = 0#8 := by decide
  have hstart : AllFit (k.printf "[TEST] Testing /testdev device\n" []).console.out :=
    printf_fits h (fits_numbers rfl rfl)
  have hprints := allFit_append.mpr ⟨hstart, vfsOpenPrints_fits (l := l) hpath k.vfs⟩
  simp only [runTestdev]
  refine allFit_kernel ?_ ?_
  · exact printf_fits hprints (fits_numbers rfl rfl)
  · exact testdevIo_fits hprints _

theorem helpTexts_fits : AllFit helpTexts := by
  simp only [helpTexts, allFit_cons, allFit_nil, and_true]
  refine ⟨?_, ?_, ?_, ?_, ?_, ?_, ?_, ?_, ?_⟩ <;> exact fits_numbers rfl rfl

/-- The command `ps` without a process on the CPU. The texts about a process would not fit: there `%lu`
leaves its number to `%s`. -/
theorem psTexts_fits {s : Sched} (hcur : s.cpu.current = none) : AllFit (psTexts s) := by
  simp only [psTexts, currentProc, hcur, rule, allFit_append, allFit_cons, allFit_nil, and_true]
  exact ⟨⟨⟨fits_numbers rfl rfl, fits_numbers rfl rfl⟩, fits_numbers rfl rfl⟩,
    fits_numbers rfl rfl⟩

/-- The string that a command puts out. -/
def commandText : Shell.Command → Option (Nat → Byte)
  | .echo line => some line
  | .unknown line => some line
  | _ => none

theorem dispatch_text {e : Shell.Editor} (hend : e.buffer e.pos = 0#8) {line : Nat → Byte}
    (hline : commandText (Shell.dispatch e) = some line) : ∃ i, line i = 0#8 := by
  unfold Shell.dispatch at hline
  repeat' split at hline
  all_goals try cases hline
  · next hecho =>
    simp only [Bool.and_eq_true, decide_eq_true_eq] at hecho
    refine ⟨e.pos - 5, ?_⟩
    show e.buffer (5 + (e.pos - 5)) = 0#8
    rwa [Nat.add_sub_of_le hecho.1.2]
  · exact ⟨e.pos, hend⟩

theorem runCommand_fits (h : AllFit k.console.out) (hcur : k.sched.cpu.current = none) (sepc : Word)
    {c : Shell.Command} (hc : ∀ line, commandText c = some line → ∃ i, line i = 0#8) :
    AllFit (runCommand l sepc k c).console.out := by
  cases c with
  | help => exact allFit_append.mpr ⟨h, helpTexts_fits⟩
  | ps => exact allFit_append.mpr ⟨h, psTexts_fits hcur⟩
  | sched => exact allFit_append.mpr ⟨h, schedStats_fits _⟩
  | info => exact showSystemInfo_fits h
  | testdev => exact runTestdev_fits h
  | test => exact testMemory_fits h
  | echo line =>
    obtain ⟨i, hi⟩ := hc line rfl
    exact printf_fits h (fits_string [] hi rfl rfl)
  | reboot =>
    have hprinted : AllFit (k.printf "Rebooting...\n" []).console.out := printf_fits h (fits_numbers rfl rfl)
    simp only [runCommand, rebootStore]
    exact allFit_kernel hprinted (trapHandler_fits hprinted _)
  | unknown line =>
    obtain ⟨i, hi⟩ := hc line rfl
    exact printf_fits (printf_fits h (fits_string [] hi rfl rfl)) (fits_numbers rfl rfl)

theorem editPrints_fits (e : Shell.Editor) (c : Byte) : AllFit (editPrints e c) :=
  .ite (.ite (allFit_cons.mpr ⟨fits_numbers rfl rfl, allFit_nil⟩) allFit_nil)
    (.ite (allFit_cons.mpr ⟨trivial, allFit_nil⟩) allFit_nil)

theorem shellKey_fits {s : Session} (h : AllFit s.kernel.console.out) (hcur : s.kernel.sched.cpu.current = none)
    (sepc : Word) (c : Byte) : AllFit (shellKey l sepc c s).kernel.console.out := by
  unfold shellKey
  split
  · dsimp only
    have hline : AllFit (Kernel.printf "\n" [] { s.kernel with console :=
      { s.kernel.console with taken := s.kernel.console.taken + 1 } }).console.out :=
      printf_fits h (fits_numbers rfl rfl)
    have hcommand := allFit_kernel (p := s.editor.pos = 0) hline (runCommand_fits (l := l) hline hcur sepc
      fun line => dispatch_text (e := { s.editor with buffer := Function.update s.editor.buffer s.editor.pos 0#8 })
        (Function.update_self ..))
    exact allFit_kernel hcommand (printf_fits hcommand (fits_numbers rfl rfl))
  · exact allFit_append.mpr ⟨h, editPrints_fits _ _⟩

end Commands

section Sessions

variable {l : Layout} {k₀ k : Kernel} {n : Nat} {s : Session} {text : List Byte}

theorem Prompts.fits (h : Prompts l k₀ n text s) (hcur : k₀.sched.cpu.current = none)
    (hfit : AllFit s.kernel.console.out) (sepc : Word) (e : SessionEvent) :
    AllFit (s.step l sepc e).kernel.console.out := by
  have hidle : s.kernel.sched.cpu.current = none := by
    rw [h.kernel.sched]
    exact hcur
  have hrun : ¬ s.kernel.stopped = true := by
    rw [h.stopped]
    decide
  cases e with
  | key c =>
    have hstep : s.step l sepc (.key c) = shellKey l sepc c s := if_neg hrun
    rw [hstep]
    exact shellKey_fits hfit hidle sepc c
  | trap t =>
    have hstep : s.step l sepc (.trap t) =
        { s with kernel := { s.kernel with toTrapState := trapHandler t false s.kernel.toTrapState } } := if_neg hrun
    rw [hstep]
    exact trapHandler_fits hfit t

end Sessions

end RiscvOs.KernelMain
