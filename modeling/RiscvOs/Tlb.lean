import RiscvOs.Caches
import RiscvOs.Devices
import RiscvOs.PartialMaps
import RiscvOs.ActiveSpace
set_option autoImplicit false

/-!
The translations that the hart has cached. `kvminithart` and `context_switch` flush the TLB
when they have written `satp`, and `mappages` changes only entries that were not valid and so
are not cached. `unmappages` clears an entry that may be cached, and flushes nothing.
-/

namespace RiscvOs.Tlb
open WordMemory PageAlloc Runs Vm Devices Scheduler Caches

/-- Where the hart is: between two operations, before the `sfence_vma` of an operation that has
written `satp`, or in one of the loops. -/
inductive Pc where
  | returned
  | fence
  | mapping (pt last : Word) (perm : BitVec 32) (a pa : Word)
  | storing (pt last : Word) (perm : BitVec 32) (a pa pte : Word)
  | unmapping (pt last a : Word)

structure TlbSys where
  mm : Mm
  sched : Sched
  /-- Pairs of a page of virtual addresses and the entry cached for it. -/
  tlb : Set (Nat × Word)
  pc : Pc

/-- The `MODE` field of `satp` is that of SV39. -/
def paging (satp : Word) : Bool := satp >>> 60 == 8#64

/-- The table `pt` is the one in `satp`. -/
def TlbSys.Active (s : TlbSys) (pt : Word) : Prop := paging s.sched.satp = true ∧ satpRoot s.sched.satp = pt

/-- The page table that `context_switch` loads; `NULL` when it leaves `satp` alone. -/
def loaded (s : Sched) (old new : ProcPtr) : Word :=
  if old = new then 0#64
  else
    match new with
    | none => 0#64
    | some p => (s.procs p).pagetable

inductive TlbEvent where
  | fill (va : Word)
  | kvminithart
  | contextSwitch (old new : ProcPtr)
  | sfenceVma
  | mappages (pt va size pa : Word) (perm : BitVec 32)
  | walk
  | store
  | unmappages (pt va size : Word)
  | clear

/-- One step of the hart or of its TLB. The TLB may cache a valid leaf of the table in `satp` at
any time; only `sfence_vma` empties it. A loop that panics has no further step. -/
inductive TlbStep (kernelPagetable : Word) (roots : Word → Prop) (s : TlbSys) : TlbEvent → TlbSys → Prop
  | fill {va : Word} (hpaging : paging s.sched.satp = true)
      (hvalid : pteValid (leafPte s.mm (satpRoot s.sched.satp) va) = true) :
      TlbStep kernelPagetable roots s (.fill va)
        { s with tlb := insert (pageOf va, leafPte s.mm (satpRoot s.sched.satp) va) s.tlb }
  | kvminithart (hpc : s.pc = .returned) :
      TlbStep kernelPagetable roots s .kvminithart
        { s with sched := { s.sched with satp := Vm.kvminithart kernelPagetable }, pc := .fence }
  | contextSwitch {old new : ProcPtr} (hpc : s.pc = .returned)
      (hroot : loaded s.sched old new ≠ 0#64 → roots (loaded s.sched old new)) :
      TlbStep kernelPagetable roots s (.contextSwitch old new)
        { s with
          sched := Scheduler.contextSwitch s.sched old new
          pc := if loaded s.sched old new ≠ 0#64 then .fence else .returned }
  | sfenceVma (hpc : s.pc = .fence) : TlbStep kernelPagetable roots s .sfenceVma { s with tlb := ∅, pc := .returned }
  | mappages {pt va size pa : Word} {perm : BitVec 32} (hpc : s.pc = .returned) (hroot : roots pt)
      (hsize : size ≠ 0#64) :
      TlbStep kernelPagetable roots s (.mappages pt va size pa perm)
        { s with pc := .mapping pt ((va + size - 1#64) / pgSize * pgSize) perm (va / pgSize * pgSize) pa }
  | walk {pt last a pa : Word} {perm : BitVec 32} (hpc : s.pc = .mapping pt last perm a pa) :
      TlbStep kernelPagetable roots s .walk
        { s with
          mm := (Vm.walk s.mm pt a true).2
          pc := if (Vm.walk s.mm pt a true).1 = 0#64 then .returned
            else .storing pt last perm a pa (Vm.walk s.mm pt a true).1 }
  | store {pt last a pa pte : Word} {perm : BitVec 32} (hpc : s.pc = .storing pt last perm a pa pte)
      (hremap : pteValid (s.mm.mem pte) = false) :
      TlbStep kernelPagetable roots s .store
        { s with
          mm := s.mm.store pte (pa2pte pa ||| perm.signExtend 64 ||| pteV)
          pc := if a = last then .returned else .mapping pt last perm (a + pgSize) (pa + pgSize) }
  | unmappages {pt va size : Word} (hpc : s.pc = .returned) (hroot : roots pt) :
      TlbStep kernelPagetable roots s (.unmappages pt va size)
        { s with
          pc := if size = 0#64 then .returned
            else .unmapping pt ((va + size - 1#64) / pgSize * pgSize) (va / pgSize * pgSize) }
  | clear {pt last a : Word} (hpc : s.pc = .unmapping pt last a)
      (hmapped : ¬ ((Vm.walk s.mm pt a false).1 = 0#64 ∨ !pteValid (s.mm.mem (Vm.walk s.mm pt a false).1))) :
      TlbStep kernelPagetable roots s .clear
        { s with
          mm := s.mm.store (Vm.walk s.mm pt a false).1 0#64
          pc := if a = last then .returned else .unmapping pt last (a + pgSize) }

/-- What is cached for an address is the entry that `walk` finds for it. -/
def TlbSys.Coherent (s : TlbSys) : Prop :=
  paging s.sched.satp = true → ∀ va pte, (pageOf va, pte) ∈ s.tlb → leafPte s.mm (satpRoot s.sched.satp) va = pte

/-- A step of `unmappages` that clears an entry of the table in `satp` finds nothing cached for its page. -/
def TlbSys.Uncached (s : TlbSys) : TlbEvent → Prop
  | .clear => ∀ pt last a, s.pc = .unmapping pt last a → s.Active pt → ∀ pte, (pageOf a, pte) ∉ s.tlb
  | _ => True

def QuietStep (kernelPagetable : Word) (roots : Word → Prop) (s : TlbSys) (e : TlbEvent) (t : TlbSys) : Prop :=
  TlbStep kernelPagetable roots s e t ∧ s.Uncached e

/-- Before paging is on, with the tables of the kernel and of the processes in place. -/
structure TlbSys.Start (kernelPagetable : Word) (roots : Word → Prop) (s : TlbSys) : Prop where
  pc : s.pc = .returned
  satp : s.sched.satp = 0#64
  kernel : roots kernelPagetable
  tables : ∃ lo node chain held, 0 < lo ∧ Tables lo s.mm roots node chain held

section Invariant

variable {kernelPagetable : Word} {roots : Word → Prop} {lo : Nat} {node : Nodes} {chain held : List Word}
  {s t : TlbSys} {e : TlbEvent}

/-- The leaves of the root `r` that the hart may cache. -/
def validLeaf (mem : Mem) (node : Nodes) (r : Word) (v : Nat) : Option Word :=
  if v < 2^26 ∧ pteValid (leafAt mem node r v) = true then some (leafAt mem node r v) else none

def Pc.Ok (roots : Word → Prop) (node : Nodes) : Pc → Prop
  | .returned => True
  | .fence => True
  | .mapping pt _ _ a _ => roots pt ∧ Aligned a
  | .storing pt _ _ a _ pte => roots pt ∧ Aligned a ∧ a.toNat < 2^38 ∧
      ∃ p, node (pt, leafPath (a.toNat / 4096)) = some p ∧ pte = slot p (a.toNat / 4096 % 512)
  | .unmapping pt _ a => roots pt ∧ Aligned a

/-- The TLB agrees with the leaves of the table in `satp`, unless a flush is still to come. -/
structure Inv (lo : Nat) (roots : Word → Prop) (s : TlbSys) (node : Nodes) (chain held : List Word) : Prop where
  tables : Tables lo s.mm roots node chain held
  pc : s.pc.Ok roots node
  cached : s.sched.satp = 0#64 ∨ ∃ r, roots r ∧ s.sched.satp = Vm.kvminithart r ∧
    (s.pc ≠ .fence → Caches.Coherent (validLeaf s.mm.mem node r) s.tlb)

theorem validLeaf_eq_some {mem : Mem} {r pte : Word} {v : Nat} (h : validLeaf mem node r v = some pte) :
    v < 2^26 ∧ leafAt mem node r v = pte := by
  unfold validLeaf at h
  split at h
  · next hv =>
    cases h
    exact ⟨hv.1, rfl⟩
  · cases h

theorem root_isPage (h : Tables lo s.mm roots node chain held) {r : Word} (hr : roots r) : IsPage lo r :=
  h.split.isPage_held (h.owned _ _ (h.forest.root r hr))

theorem Inv.coherent (h : Inv lo roots s node chain held) (hlo : 0 < lo) (hpc : s.pc ≠ .fence) : s.Coherent := by
  intro hpaging va pte hm
  rcases h.cached with hzero | ⟨r, hr, hsatp, hcached⟩
  · rw [hzero] at hpaging
    exact absurd hpaging (by decide)
  · obtain ⟨hlow, hleaf⟩ := validLeaf_eq_some (hcached hpc _ _ hm)
    rw [hsatp, satpRoot_kvminithart (root_isPage h.tables hr), h.tables.leafPte_eq hlo hr, if_pos]
    · exact hleaf
    · rw [pageOf] at hlow
      omega

theorem paging_kvminithart (pt : Word) : paging (Vm.kvminithart pt) = true := by
  have hlow : pt >>> 12 >>> 60 = 0#64 := by
    rw [← BitVec.shiftRight_add]
    exact BitVec.ushiftRight_eq_zero (by decide)
  rw [paging, Vm.kvminithart, BitVec.ushiftRight_or_distrib, hlow]
  decide

theorem contextSwitch_satp (s : Sched) (old new : ProcPtr) : (Scheduler.contextSwitch s old new).satp =
    if loaded s old new ≠ 0#64 then Vm.kvminithart (loaded s old new) else s.satp := by
  unfold Scheduler.contextSwitch loaded
  by_cases he : old = new
  · simp [he]
  · rw [if_neg he, if_neg he]
    cases new with
    | none => simp [switchIn, (switchOut_kept old).satp]
    | some p =>
      have hpt : ((switchOut s old).procs p).pagetable = (s.procs p).pagetable :=
        (core_fields ((switchOut_kept old).core p)).1
      simp only [switchIn, modify_procs, if_true, Process.setState, Process.countSwitch, hpt]
      rw [show (Sched.modify (switchOut s old) p _).satp = s.satp from (switchOut_kept old).satp]
      rfl

theorem validLeaf_fill (h : Tables lo s.mm roots node chain held) (hlo : 0 < lo) {r va : Word} (hr : roots r)
    (hvalid : pteValid (leafPte s.mm r va) = true) :
    validLeaf s.mm.mem node r (pageOf va) = some (leafPte s.mm r va) := by
  rw [h.leafPte_eq hlo hr] at hvalid ⊢
  by_cases hva : va.toNat < 2^38
  · rw [if_pos hva] at hvalid ⊢
    exact if_pos ⟨by rw [pageOf]; omega, hvalid⟩
  · rw [if_neg hva, pteValid_zero] at hvalid
    cases hvalid

/-- One leaf is written, which is not cached when it belongs to the table in `satp`. -/
theorem coherent_setLeaf {mem mem' : Mem} {c : Set (Nat × Word)} {r pt w : Word} {v : Nat}
    (h : Caches.Coherent (validLeaf mem node r) c) (hv : r = pt → ∀ pte, (v, pte) ∉ c)
    (hleaf : ∀ r' u, leafAt mem' node r' u = if r' = pt ∧ u = v then w else leafAt mem node r' u) :
    Caches.Coherent (validLeaf mem' node r) c := by
  by_cases hr : r = pt
  · refine h.write (hv hr) ?_
    intro u hu
    simp only [validLeaf, hleaf, hu, and_false, if_false]
  · have hsame : validLeaf mem' node r = validLeaf mem node r := by
      funext u
      simp only [validLeaf, hleaf, hr, false_and, if_false]
    rwa [hsame]

theorem Inv.fill (h : Inv lo roots s node chain held) (hlo : 0 < lo) {va : Word}
    (hvalid : pteValid (leafPte s.mm (satpRoot s.sched.satp) va) = true) :
    Inv lo roots { s with tlb := insert (pageOf va, leafPte s.mm (satpRoot s.sched.satp) va) s.tlb }
      node chain held := by
  refine ⟨h.tables, h.pc, ?_⟩
  rcases h.cached with hzero | ⟨r, hr, hsatp, hcached⟩
  · exact .inl hzero
  · refine .inr ⟨r, hr, hsatp, ?_⟩
    intro hpc
    have hroot : satpRoot s.sched.satp = r := by rw [hsatp, satpRoot_kvminithart (root_isPage h.tables hr)]
    simp only [hroot] at hvalid ⊢
    exact (hcached hpc).fill (validLeaf_fill h.tables hlo hr hvalid)

/-- `walk` may link new tables, in which no leaf is valid. -/
theorem Inv.walk (h : Inv lo roots s node chain held) {pt last a pa : Word} {perm : BitVec 32}
    (hpc : s.pc = .mapping pt last perm a pa) : ∃ node' chain' held', Inv lo roots
      { s with
        mm := (Vm.walk s.mm pt a true).2
        pc := if (Vm.walk s.mm pt a true).1 = 0#64 then .returned
          else .storing pt last perm a pa (Vm.walk s.mm pt a true).1 } node' chain' held' := by
  have hok := h.pc
  rw [hpc] at hok
  obtain ⟨hr, ha⟩ := hok
  by_cases hva : a.toNat < 2^38
  · obtain ⟨node', chain', held', ht, _, hsame, hslot⟩ := h.tables.walk_alloc hr a hva (P := fun _ => True)
      fun _ _ => trivial
    refine ⟨node', chain', held', ht, ?_, ?_⟩
    · split
      · trivial
      · next hnull =>
        obtain ⟨p, hp, haddr⟩ := hslot.resolve_right fun hz => hnull hz.1
        exact ⟨hr, ha, hva, p, hp, haddr⟩
    · rcases h.cached with hzero | ⟨r, hroot, hsatp, hcached⟩
      · exact .inl hzero
      · refine .inr ⟨r, hroot, hsatp, ?_⟩
        intro _
        have hleaf : validLeaf (Vm.walk s.mm pt a true).2.mem node' r = validLeaf s.mm.mem node r := by
          funext v
          simp only [validLeaf, hsame]
        simp only [hleaf]
        exact hcached (by simp [hpc])
  · rw [walk_null hva]
    exact ⟨node, chain, held, h.tables, by simp [Pc.Ok], by simpa [hpc] using h.cached⟩

/-- A leaf is written that is not cached. -/
theorem Inv.setLeaf (h : Inv lo roots s node chain held) {pt p w : Word} {v : Nat} {pc : Pc} (hpc : s.pc ≠ .fence)
    (hp : node (pt, leafPath v) = some p) (hv : s.sched.satp = Vm.kvminithart pt → roots pt →
      Caches.Coherent (validLeaf s.mm.mem node pt) s.tlb → ∀ pte, (v, pte) ∉ s.tlb) (hok : pc.Ok roots node) :
    Inv lo roots { s with mm := s.mm.store (slot p (v % 512)) w, pc := pc } node chain held := by
  obtain ⟨ht, hleaf⟩ := h.tables.setLeaf hp w
  refine ⟨ht, hok, ?_⟩
  rcases h.cached with hzero | ⟨r, hr, hsatp, hcached⟩
  · exact .inl hzero
  · refine .inr ⟨r, hr, hsatp, ?_⟩
    intro _
    refine coherent_setLeaf (hcached hpc) ?_ hleaf
    intro he
    subst he
    exact hv hsatp hr (hcached hpc)

theorem Inv.store (h : Inv lo roots s node chain held) {pt last a pa pte : Word} {perm : BitVec 32}
    (hpc : s.pc = .storing pt last perm a pa pte) (hremap : pteValid (s.mm.mem pte) = false) :
    Inv lo roots { s with
      mm := s.mm.store pte (pa2pte pa ||| perm.signExtend 64 ||| pteV)
      pc := if a = last then .returned else .mapping pt last perm (a + pgSize) (pa + pgSize) }
      node chain held := by
  have hok := h.pc
  rw [hpc] at hok
  obtain ⟨hr, ha, hva, p, hp, rfl⟩ := hok
  refine h.setLeaf (by simp [hpc]) hp ?_ ?_
  · -- The entry was not valid, so that nothing is cached for its page.
    intro _ _ hcached
    refine hcached.not_mem (if_neg ?_)
    rw [leafAt_some hp, hremap]
    simp
  · split
    · trivial
    · exact ⟨hr, (page_succ ha hva).1⟩

theorem Inv.clear (h : Inv lo roots s node chain held) {pt last a : Word} (hpc : s.pc = .unmapping pt last a)
    (hmapped : ¬ ((Vm.walk s.mm pt a false).1 = 0#64 ∨ !pteValid (s.mm.mem (Vm.walk s.mm pt a false).1)))
    (hcond : s.Active pt → ∀ pte, (pageOf a, pte) ∉ s.tlb) :
    Inv lo roots { s with
      mm := s.mm.store (Vm.walk s.mm pt a false).1 0#64
      pc := if a = last then .returned else .unmapping pt last (a + pgSize) } node chain held := by
  have hok := h.pc
  rw [hpc] at hok
  obtain ⟨hr, ha⟩ := hok
  by_cases hva : a.toNat < 2^38
  · rw [h.tables.walk_lookup hr a hva] at hmapped ⊢
    cases hp : node (pt, leafPath (a.toNat / 4096)) with
    | none => simp [hp] at hmapped
    | some p =>
      refine h.setLeaf (by simp [hpc]) hp ?_ ?_
      · intro hsatp hroot _
        refine hcond ⟨?_, ?_⟩
        · rw [hsatp, paging_kvminithart]
        · rw [hsatp, satpRoot_kvminithart (root_isPage h.tables hroot)]
      · split
        · trivial
        · exact ⟨hr, (page_succ ha hva).1⟩
  · simp [walk_null hva] at hmapped

theorem Inv.step (h : Inv lo roots s node chain held) (hlo : 0 < lo) (hk : roots kernelPagetable)
    (hstep : TlbStep kernelPagetable roots s e t) (hcond : s.Uncached e) :
    ∃ node' chain' held', Inv lo roots t node' chain' held' := by
  cases hstep with
  | fill hpaging hvalid => exact ⟨node, chain, held, h.fill hlo hvalid⟩
  | kvminithart hpc =>
    exact ⟨node, chain, held, h.tables, trivial, .inr ⟨kernelPagetable, hk, rfl, fun hne => absurd rfl hne⟩⟩
  | contextSwitch hpc hroot =>
    refine ⟨node, chain, held, h.tables, ?_, ?_⟩
    · split <;> trivial
    · rw [contextSwitch_satp]
      split
      · next hne => exact .inr ⟨_, hroot hne, rfl, fun hf => absurd rfl hf⟩
      · simpa [hpc] using h.cached
  | sfenceVma hpc =>
    refine ⟨node, chain, held, h.tables, trivial, ?_⟩
    exact h.cached.imp id fun ⟨r, hr, hsatp, _⟩ => ⟨r, hr, hsatp, fun _ => .flushed⟩
  | mappages hpc hroot hsize =>
    exact ⟨node, chain, held, h.tables, ⟨hroot, round_aligned _⟩, by simpa [hpc] using h.cached⟩
  | walk hpc => exact h.walk hpc
  | store hpc hremap => exact ⟨node, chain, held, h.store hpc hremap⟩
  | unmappages hpc hroot =>
    refine ⟨node, chain, held, h.tables, ?_, ?_⟩
    · split
      · trivial
      · exact ⟨hroot, round_aligned _⟩
    · have hne (pt va size : Word) : (if size = 0#64 then Pc.returned
          else .unmapping pt ((va + size - 1#64) / pgSize * pgSize) (va / pgSize * pgSize)) ≠ .fence := by
        split <;> simp
      simpa [hpc, hne] using h.cached
  | clear hpc hmapped => exact ⟨node, chain, held, h.clear hpc hmapped (hcond _ _ _ hpc)⟩

end Invariant

section Calls

variable {kernelPagetable : Word} {roots : Word → Prop} {s : TlbSys} {pt va size last a pa : Word} {perm : BitVec 32}
  {mm : Mm} {c : Int} {n : Nat}

/-- The steps of the loop make up the loop of `mappages`. -/
theorem mappagesLoop_run (hpc : s.pc = .mapping pt last perm a pa)
    (hret : mappagesLoop pt last perm n a pa s.mm = .ret (c, mm)) :
    ∃ es, Run (QuietStep kernelPagetable roots) s es { s with mm := mm, pc := .returned } := by
  induction n generalizing s a pa with
  | zero => cases hret
  | succ n ih =>
    rw [mappagesLoop] at hret
    by_cases hnull : (Vm.walk s.mm pt a true).1 = 0#64
    · simp only [hnull, if_true, Outcome.ret.injEq, Prod.mk.injEq] at hret
      obtain ⟨_, rfl⟩ := hret
      refine ⟨[.walk], _, ⟨.walk hpc, trivial⟩, ?_⟩
      simp [Run, hnull]
    by_cases hvalid : pteValid ((Vm.walk s.mm pt a true).2.mem (Vm.walk s.mm pt a true).1)
    · simp [hnull, hvalid] at hret
    simp only [hnull, hvalid, Bool.false_eq_true, if_false] at hret
    by_cases hend : a = last
    · simp only [hend, if_true, Outcome.ret.injEq, Prod.mk.injEq] at hret
      obtain ⟨_, rfl⟩ := hret
      refine ⟨[.walk, .store], _, ⟨.walk hpc, trivial⟩, _,
        ⟨.store (if_neg hnull) (by simpa using hvalid), trivial⟩, ?_⟩
      simp [Run, hend]
    · simp only [hend, if_false] at hret
      obtain ⟨es, hes⟩ := ih (s := { s with
        mm := (Vm.walk s.mm pt a true).2.store (Vm.walk s.mm pt a true).1
          (pa2pte pa ||| perm.signExtend 64 ||| pteV)
        pc := .mapping pt last perm (a + pgSize) (pa + pgSize) }) rfl hret
      refine ⟨.walk :: .store :: es, _, ⟨.walk hpc, trivial⟩, _,
        ⟨.store (if_neg hnull) (by simpa using hvalid), trivial⟩, ?_⟩
      simpa [hend] using hes

theorem mappages_run (hpc : s.pc = .returned) (hroot : roots pt)
    (hret : Vm.mappages s.mm pt va size pa perm = .ret (c, mm)) :
    ∃ es, Run (QuietStep kernelPagetable roots) s (.mappages pt va size pa perm :: es) { s with mm := mm } := by
  unfold Vm.mappages at hret
  split at hret
  · cases hret
  · next hsize =>
    obtain ⟨es, hes⟩ : ∃ es, Run (QuietStep kernelPagetable roots) _ es _ := mappagesLoop_run
      (s := { s with pc := .mapping pt ((va + size - 1#64) / pgSize * pgSize) perm (va / pgSize * pgSize) pa }) rfl hret
    refine ⟨es, _, ⟨.mappages hpc hroot hsize, trivial⟩, ?_⟩
    simpa [hpc] using hes

theorem unmappagesLoop_run (hpc : s.pc = .unmapping pt last a) (hret : unmappagesLoop pt last n a s.mm = .ret mm) :
    ∃ es, Run (TlbStep kernelPagetable roots) s es { s with mm := mm, pc := .returned } := by
  induction n generalizing s a with
  | zero => cases hret
  | succ n ih =>
    rw [unmappagesLoop] at hret
    split at hret
    · cases hret
    · next hmapped =>
      by_cases hend : a = last
      · simp only [hend, if_true, Outcome.ret.injEq] at hret
        subst hret
        refine ⟨[.clear], _, .clear hpc hmapped, ?_⟩
        simp [Run, hend]
      · simp only [hend, if_false] at hret
        obtain ⟨es, hes⟩ := ih (s := { s with
          mm := s.mm.store (Vm.walk s.mm pt a false).1 0#64
          pc := .unmapping pt last (a + pgSize) }) rfl hret
        refine ⟨.clear :: es, _, .clear hpc hmapped, ?_⟩
        simpa [hend] using hes

theorem unmappages_run (hpc : s.pc = .returned) (hroot : roots pt) (hret : Vm.unmappages s.mm pt va size = .ret mm) :
    ∃ es, Run (TlbStep kernelPagetable roots) s (.unmappages pt va size :: es) { s with mm := mm } := by
  unfold Vm.unmappages at hret
  split at hret
  · next hsize =>
    cases hret
    refine ⟨[], _, .unmappages hpc hroot, ?_⟩
    simp [Run, hsize, hpc]
  · next hsize =>
    obtain ⟨es, hes⟩ : ∃ es, Run (TlbStep kernelPagetable roots) _ es _ := unmappagesLoop_run
      (s := { s with pc := .unmapping pt ((va + size - 1#64) / pgSize * pgSize) (va / pgSize * pgSize) }) rfl hret
    refine ⟨es, _, .unmappages hpc hroot, ?_⟩
    simpa [hsize, hpc] using hes

end Calls

/-- In every run in which `unmappages` clears no entry of the table in `satp` that is cached, the
TLB agrees with the table whenever an operation has returned. -/
theorem tlb_coherent {kernelPagetable : Word} {roots : Word → Prop} {s t : TlbSys} {es : List TlbEvent}
    (hstart : s.Start kernelPagetable roots)
    (h : Run (QuietStep kernelPagetable roots) s es t)
    (hret : t.pc = .returned) : t.Coherent := by
  obtain ⟨lo, node, chain, held, hlo, ht⟩ := hstart.tables
  have hinv := h.invariant (fun s => ∃ node chain held, Inv lo roots s node chain held)
    (fun s e t ⟨_, _, _, hs⟩ hstep => hs.step hlo hstart.kernel hstep.1 hstep.2)
    ⟨node, chain, held, ht, by rw [hstart.pc]; trivial, .inl hstart.satp⟩
  obtain ⟨node', chain', held', hinv⟩ := hinv
  exact hinv.coherent hlo (by simp [hret])

/-- The hart before paging is on, with one empty table. -/
def smallSys : TlbSys := ⟨smallTable, Sched.boot, ∅, .returned⟩

/-- The same hart after `kvminithart`. -/
def pagedSys : TlbSys := ⟨smallTable, { Sched.boot with satp := kvminithart 0x87FFD000#64 }, ∅, .returned⟩

/-- Paging is turned on, the page at `0x1000` is mapped and then cached. -/
theorem smallSys_cached : ∃ roots es t, smallSys.Start 0x87FFD000#64 roots ∧
    Run (QuietStep 0x87FFD000#64 roots) smallSys ([.kvminithart, .sfenceVma] ++
      .mappages 0x87FFD000#64 0x1000#64 4096#64 0x80100000#64 0x12#32 :: es ++ [.fill 0x1000#64]) t ∧
    t.pc = .returned ∧ t.tlb = {(1, 0x20040013#64)} ∧ t.sched.satp = kvminithart 0x87FFD000#64 ∧
    (unmappages t.mm 0x87FFD000#64 0x1000#64 4096#64).toOption.map
      (fun mm => leafPte mm 0x87FFD000#64 0x1000#64) = some 0#64 := by
  obtain ⟨lo, roots, node, chain, held, hlo, ht, hr⟩ := smallTable_wellFormed
  have hroot : satpRoot (kvminithart 0x87FFD000#64) = 0x87FFD000#64 := by decide
  have hcall : (mappages smallTable 0x87FFD000#64 0x1000#64 4096#64 0x80100000#64 0x12#32).toOption.map
      (fun r => (leafPte r.2 0x87FFD000#64 0x1000#64, (unmappages r.2 0x87FFD000#64 0x1000#64 4096#64).toOption.map
        (fun mm => leafPte mm 0x87FFD000#64 0x1000#64))) = some (0x20040013#64, some 0#64) := by
    decide +kernel
  obtain ⟨⟨c, mm⟩, hmm, hleaf⟩ := Outcome.map_toOption hcall
  obtain ⟨hleaf, hunmap⟩ := Prod.mk.inj hleaf
  have hpaged : Run (QuietStep 0x87FFD000#64 roots) smallSys [.kvminithart, .sfenceVma] pagedSys :=
    ⟨_, ⟨.kvminithart rfl, trivial⟩, _, ⟨.sfenceVma rfl, trivial⟩, rfl⟩
  obtain ⟨es, hes⟩ : ∃ es, Run (QuietStep 0x87FFD000#64 roots) pagedSys _ _ := mappages_run rfl hr hmm
  refine ⟨roots, es, _, ⟨rfl, rfl, hr, lo, node, chain, held, hlo, ht⟩,
    (hpaged.append hes).append ⟨_, ⟨.fill (paging_kvminithart _) ?_, trivial⟩, rfl⟩, rfl, ?_, rfl, hunmap⟩
  · simp only [pagedSys, hroot, hleaf]
    decide
  · simp only [pagedSys, hroot, hleaf]
    simp [pageOf]

theorem tlb_coherent_page : ∃ roots es t, smallSys.Start 0x87FFD000#64 roots ∧
    Run (QuietStep 0x87FFD000#64 roots) smallSys ([.kvminithart, .sfenceVma] ++
      .mappages 0x87FFD000#64 0x1000#64 4096#64 0x80100000#64 0x12#32 :: es ++ [.fill 0x1000#64]) t ∧
    (1, 0x20040013#64) ∈ t.tlb ∧ t.Coherent := by
  obtain ⟨roots, es, t, hstart, hrun, hpc, htlb, _⟩ := smallSys_cached
  exact ⟨roots, es, t, hstart, hrun, by simp [htlb], tlb_coherent hstart hrun hpc⟩

/-- The cached page is unmapped, and stays cached. -/
theorem tlb_stale_after_unmappages : ∃ roots es es' t, smallSys.Start 0x87FFD000#64 roots ∧
    Run (TlbStep 0x87FFD000#64 roots) smallSys ([.kvminithart, .sfenceVma] ++
      .mappages 0x87FFD000#64 0x1000#64 4096#64 0x80100000#64 0x12#32 :: es ++ [.fill 0x1000#64] ++
      .unmappages 0x87FFD000#64 0x1000#64 4096#64 :: es') t ∧ t.pc = .returned ∧ (1, 0x20040013#64) ∈ t.tlb ∧
    leafPte t.mm (satpRoot t.sched.satp) 0x1000#64 = 0#64 ∧ ¬ t.Coherent := by
  obtain ⟨roots, es, s, hstart, hrun, hpc, htlb, hsatp, hunmap⟩ := smallSys_cached
  obtain ⟨mm, hmm, hleaf⟩ := Outcome.map_toOption hunmap
  obtain ⟨es', hes'⟩ : ∃ es', Run (TlbStep 0x87FFD000#64 roots) s _ _ := unmappages_run hpc hstart.kernel hmm
  have hroot : satpRoot (kvminithart 0x87FFD000#64) = 0x87FFD000#64 := by decide
  have hstale : leafPte mm (satpRoot s.sched.satp) 0x1000#64 = 0#64 := by rw [hsatp, hroot, hleaf]
  have hmem : (pageOf 0x1000#64, 0x20040013#64) ∈ s.tlb := by simp [htlb, pageOf]
  refine ⟨roots, es, es', { s with mm := mm }, hstart, (hrun.mono fun _ _ _ hs => hs.1).append hes', hpc, hmem,
    hstale, ?_⟩
  intro hcoherent
  have hsame := hcoherent (by rw [hsatp, paging_kvminithart]) 0x1000#64 _ hmem
  rw [hstale] at hsame
  exact absurd hsame (by decide)

end RiscvOs.Tlb
