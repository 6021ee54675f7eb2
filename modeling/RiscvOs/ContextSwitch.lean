import RiscvOs.Preemption
set_option autoImplicit false

/-!
The context switch of `kernel/process/swtch.S` at the level of its instructions, and what any
sequence of switches among any number of contexts does to the registers. A context is where
the compiler puts the fields of `context_t`, in the order of `process.h`.
-/

namespace RiscvOs.ContextSwitch
open WordMemory Runs Riscv Scheduler Preemption

/-- `swtch` from the test of `old` to `restore_new`. -/
def swtchSave : List Instr :=
  [.sd ra 0#64 a0, .sd sp 8#64 a0, .sd 8#5 16#64 a0, .sd 9#5 24#64 a0, .sd 18#5 32#64 a0, .sd 19#5 40#64 a0,
   .sd 20#5 48#64 a0, .sd 21#5 56#64 a0, .sd 22#5 64#64 a0, .sd 23#5 72#64 a0, .sd 24#5 80#64 a0,
   .sd 25#5 88#64 a0, .sd 26#5 96#64 a0, .sd 27#5 104#64 a0]

/-- `swtch` from the test of `new` to `done`. -/
def swtchRestore : List Instr :=
  [.ld ra 0#64 a1, .ld sp 8#64 a1, .ld 8#5 16#64 a1, .ld 9#5 24#64 a1, .ld 18#5 32#64 a1, .ld 19#5 40#64 a1,
   .ld 20#5 48#64 a1, .ld 21#5 56#64 a1, .ld 22#5 64#64 a1, .ld 23#5 72#64 a1, .ld 24#5 80#64 a1,
   .ld 25#5 88#64 a1, .ld 26#5 96#64 a1, .ld 27#5 104#64 a1]

def swtch (h : Hart) : Hart :=
  -- beqz a0, restore_new
  let h := if h.regs a0 = 0#64 then h else run id swtchSave h
  -- beqz a1, done
  let h := if h.regs a1 = 0#64 then h else run id swtchRestore h
  { h with pc := h.regs ra }

/-- The call `swtch(old, new)`. -/
def callSwtch (old new : Word) (h : Hart) : Hart := swtch ((h.set a0 old).set a1 new)

/-- The address of the field of a `context_t` at `p` that has `k` fields before it. -/
def field (p : Word) (k : Nat) : Word := p + BitVec.ofNat 64 (8 * k)

/-- The `context_t` at `p`: `ra`, `sp`, and `s0` to `s11`. -/
def contextAt (mem : Mem) (p : Word) : Context :=
  ⟨mem (field p 0), mem (field p 1), fun i => mem (field p (i.val + 2))⟩

/-- The bytes of the `context_t` at `p`. -/
def InContext (p a : Word) : Prop := ∃ x < 112, a = p + BitVec.ofNat 64 x

section Swtch

variable {h : Hart} {p : Word}

/-- The registers that `swtch` saves and restores, with their offsets. -/
def contextRegs : List (Reg × Word) :=
  [(ra, 0#64), (sp, 8#64), (8#5, 16#64), (9#5, 24#64), (18#5, 32#64), (19#5, 40#64), (20#5, 48#64),
   (21#5, 56#64), (22#5, 64#64), (23#5, 72#64), (24#5, 80#64), (25#5, 88#64), (26#5, 96#64), (27#5, 104#64)]

theorem swtchSave_eq : swtchSave = saveAll a0 contextRegs := rfl

theorem swtchRestore_eq : swtchRestore = loadAll a1 contextRegs := rfl

theorem contextRegs_regs : (contextRegs.map Prod.fst).Nodup := by decide

theorem contextRegs_offsets : (contextRegs.map Prod.snd).Nodup := by decide

theorem contextRegs_size : ∀ x ∈ contextRegs, x.2.toNat < 112 := by simp [contextRegs]

/-- The offsets are those of the fields. -/
theorem contextRegs_s (i : Fin 12) : (sReg i, BitVec.ofNat 64 (8 * (i.val + 2))) ∈ contextRegs := by
  revert i
  decide

/-- The registers of a context, read through their offsets. -/
theorem context_ext {f : Reg → Word} {mem : Mem} (hx : ∀ x ∈ contextRegs, mem (p + x.2) = f x.1) :
    contextAt mem p = ⟨f ra, f sp, fun i => f (sReg i)⟩ := by
  have hra := hx (ra, 0#64) (by decide)
  have hsp := hx (sp, 8#64) (by decide)
  simp only [contextAt, field, Context.mk.injEq]
  exact ⟨hra, hsp, funext fun i => hx _ (contextRegs_s i)⟩

/-- The memory after the context is saved at `p`. -/
def savedAt (p : Word) (h : Hart) : Mem := stores h.mem (contextRegs.map fun x => (p + x.2, h.regs x.1))

theorem savedAt_context : contextAt (savedAt p h) p = saveContext h := by
  refine context_ext (f := h.regs) fun x hx => ?_
  refine stores_of_mem (List.mem_map.mpr ⟨x, hx, rfl⟩) ?_
  have hkeys : (contextRegs.map fun x => (p + x.2, h.regs x.1)).map Prod.fst =
      (contextRegs.map Prod.snd).map fun d => p + d := by simp [Function.comp_def]
  rw [hkeys]
  exact contextRegs_offsets.map fun a b hab => (BitVec.add_right_inj p).mp hab

/-- Only the context itself is written. -/
theorem savedAt_frame {a : Word} (ha : ¬ InContext p a) : savedAt p h a = h.mem a := by
  refine stores_of_not_mem fun hmem => ha ?_
  simp only [List.map_map, List.mem_map, Function.comp_apply] at hmem
  obtain ⟨x, hx, rfl⟩ := hmem
  exact ⟨x.2.toNat, contextRegs_size x hx, by rw [BitVec.ofNat_toNat, BitVec.setWidth_eq]⟩

/-- The memory after a switch from the context at `old`. -/
def afterSave (old : Word) (h : Hart) : Mem := if old = 0#64 then h.mem else savedAt old h

theorem afterSave_frame {old a : Word} (ha : old ≠ 0#64 → ¬ InContext old a) : afterSave old h a = h.mem a := by
  unfold afterSave
  split
  · rfl
  · next hold => exact savedAt_frame (ha hold)

/-- The restore reads the context at `a1`. -/
theorem swtchRestore_context : saveContext (run id swtchRestore h) = contextAt h.mem (h.regs a1) := by
  rw [swtchRestore_eq, run_loadAll (by decide) (by decide)]
  symm
  refine context_ext fun x hx => ?_
  symm
  refine stores_of_mem (List.mem_map.mpr ⟨x, hx, rfl⟩) ?_
  rw [List.map_map]
  exact contextRegs_regs

theorem swtchRestore_mem : (run id swtchRestore h).mem = h.mem := by
  rw [swtchRestore_eq, run_loadAll (by decide) (by decide)]

/-- `swtch` saves the registers of the old process and loads those of the new one, as they
stand in its context after the save. -/
theorem swtch_spec (hnew : h.regs a1 ≠ 0#64) : (swtch h).mem = afterSave (h.regs a0) h ∧
    saveContext (swtch h) = contextAt (afterSave (h.regs a0) h) (h.regs a1) ∧
    (swtch h).pc = (saveContext (swtch h)).ra := by
  have hsave : (if h.regs a0 = 0#64 then h else run id swtchSave h) =
      { h with mem := afterSave (h.regs a0) h } := by
    unfold afterSave
    split
    · rfl
    · rw [swtchSave_eq, run_saveAll]
      rfl
  have hmem := swtchRestore_mem (h := { h with mem := afterSave (h.regs a0) h })
  have hregs := swtchRestore_context (h := { h with mem := afterSave (h.regs a0) h })
  unfold swtch
  simp only [hsave, if_neg hnew]
  generalize run id swtchRestore { h with mem := afterSave (h.regs a0) h } = g at hmem hregs ⊢
  exact ⟨hmem, hregs, rfl⟩

/-- The arguments are passed in registers that are not saved. -/
theorem set_args {r : Reg} (old new : Word) (h0 : r ≠ a0) (h1 : r ≠ a1) :
    ((h.set a0 old).set a1 new).regs r = h.regs r := by
  rw [set_regs (by decide), set_regs (by decide), Function.update_of_ne h1, Function.update_of_ne h0]

theorem savedAt_args (old new : Word) : savedAt p ((h.set a0 old).set a1 new) = savedAt p h := by
  have hregs : ∀ x ∈ contextRegs, x.1 ≠ a0 ∧ x.1 ≠ a1 := by simp [contextRegs, ra, sp, a0, a1]
  have hmap : contextRegs.map (fun x => (p + x.2, ((h.set a0 old).set a1 new).regs x.1)) =
      contextRegs.map fun x => (p + x.2, h.regs x.1) := by
    refine List.map_congr_left fun x hx => ?_
    rw [set_args old new (hregs x hx).1 (hregs x hx).2]
  rw [savedAt, hmap, set_mem, set_mem, ← savedAt]

theorem callSwtch_spec (old : Word) {new : Word} (hnew : new ≠ 0#64) :
    (callSwtch old new h).mem = afterSave old h ∧
    saveContext (callSwtch old new h) = contextAt (afterSave old h) new ∧
    (callSwtch old new h).pc = (saveContext (callSwtch old new h)).ra := by
  have h1 : ((h.set a0 old).set a1 new).regs a1 = new := by
    rw [set_regs (by decide), Function.update_self]
  have h0 : ((h.set a0 old).set a1 new).regs a0 = old := by
    rw [set_regs (by decide), Function.update_of_ne (by decide), set_regs (by decide), Function.update_self]
  have hmem : afterSave old ((h.set a0 old).set a1 new) = afterSave old h := by
    rw [afterSave, savedAt_args, set_mem, set_mem, ← afterSave]
  have hspec := swtch_spec (h := (h.set a0 old).set a1 new) (by rwa [h1])
  rwa [h0, h1, hmem] at hspec

end Swtch

section Switches

variable {ι : Type}

/-- Contexts at addresses of their own. -/
structure Areas (base : ι → Word) : Prop where
  nonnull : ∀ i, base i ≠ 0#64
  apart : ∀ i j a, InContext (base i) a → InContext (base j) a → i = j

/-- The hart and the process that it runs; at first that is the boot code, without a context. -/
structure Tasks (ι : Type) where
  hart : Hart
  running : Option ι

/-- `compute` is any stretch of code between two switches. -/
inductive Event (ι : Type) where
  | compute (h : Hart)
  | swtch (new : ι)

variable (base : ι → Word)

/-- Only `swtch` writes to a context, and it is never called for the process that runs. -/
def Tasks.Ok (s : Tasks ι) : Event ι → Prop
  | .compute h => ∀ i a, InContext (base i) a → h.mem a = s.hart.mem a
  | .swtch new => s.running ≠ some new

def contextPtr : Option ι → Word
  | none => 0#64
  | some i => base i

def Tasks.exec (s : Tasks ι) : Event ι → Tasks ι
  | .compute h => { s with hart := h }
  | .swtch new => ⟨callSwtch (contextPtr base s.running) (base new) s.hart, some new⟩

/-- The switch to `new` that leads from `s` to `t` saves the running process in the fields of
its own context, writes nothing else, and goes on at the `ra` that it loads. -/
structure Switches (s t : Tasks ι) (new : ι) : Prop where
  loads : saveContext t.hart = contextAt s.hart.mem (base new)
  pc : t.hart.pc = t.hart.regs ra
  saves : ∀ i, s.running = some i → contextAt t.hart.mem (base i) = saveContext s.hart
  others : ∀ i, s.running ≠ some i → ∀ a, InContext (base i) a → t.hart.mem a = s.hart.mem a
  memory : ∀ a, (∀ i, s.running = some i → ¬ InContext (base i) a) → t.hart.mem a = s.hart.mem a

variable {base} {s t u : Tasks ι} {i new : ι}

theorem inContext_field (p : Word) {k : Nat} (hk : k < 14) : InContext p (field p k) := ⟨8 * k, by omega, rfl⟩

/-- A context is its bytes. -/
theorem contextAt_congr {m m' : Mem} {p : Word} (h : ∀ a, InContext p a → m a = m' a) :
    contextAt m p = contextAt m' p := by
  simp only [contextAt, Context.mk.injEq]
  refine ⟨h _ (inContext_field p (by omega)), h _ (inContext_field p (by omega)), ?_⟩
  funext i
  exact h _ (inContext_field p (by omega))

theorem Areas.switches (hb : Areas base) (hnew : s.running ≠ some new) :
    Switches base s (s.exec base (.swtch new)) new := by
  obtain ⟨hmem, hregs, hpc⟩ := callSwtch_spec (h := s.hart) (contextPtr base s.running) (hb.nonnull new)
  have hframe (a : Word) (ha : ∀ i, s.running = some i → ¬ InContext (base i) a) :
      afterSave (contextPtr base s.running) s.hart a = s.hart.mem a := by
    refine afterSave_frame fun hold => ?_
    cases hr : s.running with
    | none =>
      rw [hr] at hold
      exact absurd rfl hold
    | some i => exact ha i hr
  have hothers (i : ι) (hi : s.running ≠ some i) (a : Word) (ha : InContext (base i) a) :
      afterSave (contextPtr base s.running) s.hart a = s.hart.mem a := by
    refine hframe a fun j hj haj => hi ?_
    rw [hj, hb.apart i j a ha haj]
  refine ⟨?_, hpc, ?_, ?_, ?_⟩
  · exact hregs.trans (contextAt_congr (hothers new hnew))
  · intro i hi
    show contextAt (callSwtch _ _ _).mem (base i) = _
    rw [hmem, hi, afterSave]
    exact (congrArg (contextAt · (base i)) (if_neg (hb.nonnull i))).trans savedAt_context
  · intro i hi a ha
    show (callSwtch _ _ _).mem a = _
    rw [hmem]
    exact hothers i hi a ha
  · intro a ha
    show (callSwtch _ _ _).mem a = _
    rw [hmem]
    exact hframe a ha

/-- While a process does not run, its context stays as it is. -/
theorem Areas.waits (hb : Areas base) {m : Mem} {events : List (Event ι)}
    (hrun : Run (guarded (Tasks.Ok base) (Tasks.exec base)) s events u) (hi : .swtch i ∉ events)
    (hs : s.running ≠ some i ∧ ∀ a, InContext (base i) a → s.hart.mem a = m a) :
    u.running ≠ some i ∧ ∀ a, InContext (base i) a → u.hart.mem a = m a := by
  have hhist := hrun.history (fun es u => .swtch i ∉ es →
    u.running ≠ some i ∧ ∀ a, InContext (base i) a → u.hart.mem a = m a) ?_ (fun _ => hs)
  · exact hhist hi
  · rintro es u e _ hu ⟨hok, rfl⟩ hmem
    rw [List.mem_append, List.mem_singleton, not_or] at hmem
    obtain ⟨hne, hctx⟩ := hu hmem.1
    cases e with
    | compute h => exact ⟨hne, fun a ha => (hok i a ha).trans (hctx a ha)⟩
    | swtch new =>
      have hsw := hb.switches hok
      refine ⟨?_, fun a ha => (hsw.others i hne a ha).trans (hctx a ha)⟩
      intro hnew
      cases hnew
      exact hmem.2 rfl

/-- In every run of switches among any number of contexts: each switch saves and loads as it
should, a process that is switched back in finds the registers that it was switched out with,
and one that runs for the first time those that its context was given. -/
theorem switches_restore_registers (hb : Areas base) (h₀ : Hart) {before : List (Event ι)}
    (hrun : Run (guarded (Tasks.Ok base) (Tasks.exec base)) ⟨h₀, none⟩ before s) :
    (∀ new, s.running ≠ some new → Switches base s (s.exec base (.swtch new)) new) ∧
    (∀ i j later u, s.running = some i → j ≠ i →
      Run (guarded (Tasks.Ok base) (Tasks.exec base)) (s.exec base (.swtch j)) later u →
      .swtch i ∉ later →
      u.running ≠ some i ∧ saveContext (u.exec base (.swtch i)).hart = saveContext s.hart) ∧
    (∀ i, .swtch i ∉ before →
      s.running ≠ some i ∧ saveContext (s.exec base (.swtch i)).hart = contextAt h₀.mem (base i)) := by
  refine ⟨fun new hnew => hb.switches hnew, ?_, ?_⟩
  · intro i j later u hi hj hlater hmem
    have hj' : s.running ≠ some j := by
      rw [hi]
      exact fun he => hj (Option.some.inj he).symm
    have hout := hb.switches hj'
    have hne : (s.exec base (.swtch j)).running ≠ some i := fun he => hj (Option.some.inj he)
    obtain ⟨hu, hctx⟩ := hb.waits hlater hmem ⟨hne, fun a _ => rfl⟩
    refine ⟨hu, ?_⟩
    rw [(hb.switches hu).loads, contextAt_congr hctx, hout.saves i hi]
  · intro i hmem
    obtain ⟨hs, hctx⟩ := hb.waits (i := i) (m := h₀.mem) hrun hmem ⟨Option.some_ne_none i ∘ Eq.symm, fun a _ => rfl⟩
    refine ⟨hs, ?_⟩
    rw [(hb.switches hs).loads, contextAt_congr hctx]

/-- Two contexts next to each other. -/
def twoContexts (i : Bool) : Word := if i then 0x80300070#64 else 0x80300000#64

theorem twoContexts_areas : Areas twoContexts := by
  refine ⟨by decide, ?_⟩
  rintro i j a ⟨x, hx, rfl⟩ ⟨y, hy, he⟩
  have hn := congrArg BitVec.toNat he
  cases i <;> cases j <;> simp [twoContexts] at hn ⊢ <;> omega

/-- A process computes, is switched out, and is switched back in after another has computed. -/
theorem switches_restore_registers_two :
    let h₀ : Hart := ⟨fun _ => 3#64, fun _ => 0#64, fun a => a, 0x80200000#64⟩
    let s := (Tasks.exec twoContexts ⟨h₀, none⟩ (.swtch false))
    let s := s.exec twoContexts (.compute { s.hart with regs := fun r => r.setWidth 64 })
    let t := s.exec twoContexts (.swtch true)
    let t := t.exec twoContexts (.compute { t.hart with regs := fun _ => 7#64 })
    saveContext (t.exec twoContexts (.swtch false)).hart = ⟨1#64, 2#64, fun i => (sReg i).setWidth 64⟩ := by
  intro h₀ s₁ s t₁ t
  clear_value h₀
  have hrun : Run (guarded (Tasks.Ok twoContexts) (Tasks.exec twoContexts)) ⟨h₀, none⟩
      [.swtch false, .compute { s₁.hart with regs := fun r => r.setWidth 64 }] s :=
    run_guarded_iff.mpr ⟨⟨Option.some_ne_none false ∘ Eq.symm, fun _ _ _ => rfl, trivial⟩, rfl⟩
  have hlater : Run (guarded (Tasks.Ok twoContexts) (Tasks.exec twoContexts)) t₁
      [.compute { t₁.hart with regs := fun _ => 7#64 }] t :=
    run_guarded_iff.mpr ⟨⟨fun _ _ _ => rfl, trivial⟩, rfl⟩
  exact ((switches_restore_registers twoContexts_areas h₀ hrun).2.1 false true _ t rfl (by decide) hlater
    (by simp)).2

end Switches

end RiscvOs.ContextSwitch
