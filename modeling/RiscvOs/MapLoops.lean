import RiscvOs.Loops
import RiscvOs.PartialMaps
set_option autoImplicit false

/-!
The loops of `mappages` and `unmappages` end for all addresses and sizes. Their exit test may
never be met, as `last` may have wrapped around. They are then left at `MAXVA`, where `walk` has
no entry any more, and the address cannot wrap around before it is there.
-/

namespace RiscvOs.Vm
open WordMemory PageAlloc Loops

/-- An address rounded down to a page. -/
def pageDown (va : Word) : Word := va / pgSize * pgSize

/-- The variables of the loop of `mappages`. -/
structure Mapping where
  a : Word
  pa : Word
  mm : Mm

/-- A round of the loop of `mappages`. -/
def mapRound (pagetable last : Word) (perm : BitVec 32) (x : Mapping) : Mapping ⊕ Outcome (Int × Mm) :=
  let r := walk x.mm pagetable x.a true
  if r.1 = 0#64 then .inr (.ret (-1, r.2))
  else if pteValid (r.2.mem r.1) then .inr (.panic "mappages: remap")
  else
    let s := r.2.store r.1 (pa2pte x.pa ||| perm.signExtend 64 ||| pteV)
    if x.a = last then .inr (.ret (0, s)) else .inl ⟨x.a + pgSize, x.pa + pgSize, s⟩

/-- A round of the loop of `unmappages`. -/
def unmapRound (pagetable last : Word) (x : Word × Mm) : (Word × Mm) ⊕ Outcome Mm :=
  let pte := (walk x.2 pagetable x.1 false).1
  if pte = 0#64 ∨ !pteValid (x.2.mem pte) then .inr (.panic "unmappages: not mapped")
  else
    let s := x.2.store pte 0#64
    if x.1 = last then .inr (.ret s) else .inl (x.1 + pgSize, s)

section Rounds

variable {pagetable last : Word} {perm : BitVec 32}

theorem mappagesLoop_eq (n : Nat) (a pa : Word) (s : Mm) :
    mappagesLoop pagetable last perm n a pa s =
      (iterate (mapRound pagetable last perm) n ⟨a, pa, s⟩).getD .spin := by
  induction n generalizing a pa s with
  | zero => rfl
  | succ n ih =>
    simp only [mappagesLoop, iterate, mapRound]
    split
    · rfl
    · split
      · rfl
      · split
        · rfl
        · exact ih ..

theorem unmappagesLoop_eq (n : Nat) (a : Word) (s : Mm) :
    unmappagesLoop pagetable last n a s = (iterate (unmapRound pagetable last) n (a, s)).getD .spin := by
  induction n generalizing a s with
  | zero => rfl
  | succ n ih =>
    simp only [unmappagesLoop, iterate, unmapRound]
    split
    · rfl
    · split
      · rfl
      · exact ih ..

/-- A round that goes on has found its entry below `MAXVA`. -/
theorem mapRound_next {x y : Mapping} (h : mapRound pagetable last perm x = .inl y) :
    x.a.toNat < 2^38 ∧ y.a = x.a + pgSize := by
  by_cases hva : x.a.toNat < 2^38
  · refine ⟨hva, ?_⟩
    simp only [mapRound] at h
    split at h
    · cases h
    · split at h
      · cases h
      · split at h
        · cases h
        · rw [← Sum.inl.inj h]
  · simp [mapRound, walk_null hva] at h

theorem unmapRound_next {x y : Word × Mm} (h : unmapRound pagetable last x = .inl y) :
    x.1.toNat < 2^38 ∧ y.1 = x.1 + pgSize := by
  by_cases hva : x.1.toNat < 2^38
  · refine ⟨hva, ?_⟩
    simp only [unmapRound] at h
    split at h
    · cases h
    · split at h
      · cases h
      · rw [← Sum.inl.inj h]
  · simp [unmapRound, walk_null hva] at h

theorem mapRound_out {x : Mapping} {out : Outcome (Int × Mm)} (h : mapRound pagetable last perm x = .inr out) :
    out ≠ .spin := by
  rintro rfl
  simp only [mapRound] at h
  repeat' split at h
  all_goals cases h

theorem unmapRound_out {x : Word × Mm} {out : Outcome Mm} (h : unmapRound pagetable last x = .inr out) :
    out ≠ .spin := by
  rintro rfl
  simp only [unmapRound] at h
  repeat' split at h
  all_goals cases h

/-- How many pages are left up to `MAXVA`. -/
def pagesLeft (a : Word) : Nat := 2^26 - a.toNat / 4096

/-- Below `MAXVA` the next page is not yet behind the end of the address space. -/
theorem pagesLeft_next {a : Word} (ha : a.toNat < 2^38) : pagesLeft (a + pgSize) < pagesLeft a := by
  have hnext : (a + pgSize).toNat = a.toNat + 4096 := by
    simp only [pgSize, BitVec.toNat_add, BitVec.toNat_ofNat]
    omega
  rw [pagesLeft, pagesLeft, hnext]
  omega

theorem pagesLeft_le (a : Word) : pagesLeft a ≤ 2^26 := Nat.sub_le _ _

/-- A loop that goes on only below `MAXVA`, and then with the next page. -/
theorem ends_at_maxVa {σ ρ : Type} (round : σ → σ ⊕ ρ) (addr : σ → Word)
    (hnext : ∀ x y, round x = .inl y → (addr x).toNat < 2^38 ∧ addr y = addr x + pgSize) (x : σ) :
    ∃ n ≤ 2^26 + 1, ∃ out, Ends round n x out := by
  have hdown (x y : σ) (h : round x = .inl y) : pagesLeft (addr y) < pagesLeft (addr x) := by
    obtain ⟨ha, hy⟩ := hnext x y h
    rw [hy]
    exact pagesLeft_next ha
  obtain ⟨n, hn, out, h⟩ := ends_of_measure (fun x => pagesLeft (addr x)) hdown x
  exact ⟨n, Nat.le_trans hn (Nat.succ_le_succ (pagesLeft_le _)), out, h⟩

end Rounds

/-- Both loops return or panic within `2^26 + 1` rounds, in any memory. -/
theorem mapping_loops_end (s : Mm) (pagetable va size pa : Word) (perm : BitVec 32) (hsize : size ≠ 0#64) :
    (∃ n ≤ 2^26 + 1, ∃ out,
      Ends (mapRound pagetable (pageDown (va + size - 1#64)) perm) n ⟨pageDown va, pa, s⟩ out ∧
      mappages s pagetable va size pa perm = out ∧ out ≠ .spin) ∧
    (∃ n ≤ 2^26 + 1, ∃ out,
      Ends (unmapRound pagetable (pageDown (va + size - 1#64))) n (pageDown va, s) out ∧
      unmappages s pagetable va size = out ∧ out ≠ .spin) := by
  have hbound : 2^26 + 1 ≤ loopBound := by decide
  constructor
  · obtain ⟨n, hn, out, h⟩ := ends_at_maxVa (mapRound pagetable (pageDown (va + size - 1#64)) perm) Mapping.a
      (fun _ _ => mapRound_next) ⟨pageDown va, pa, s⟩
    refine ⟨n, hn, out, h, ?_, h.out fun _ _ => mapRound_out⟩
    have hrun := h.iterate (Nat.le_trans hn hbound)
    rw [mappages, if_neg hsize, mappagesLoop_eq]
    exact congrArg (Option.getD · .spin) hrun
  · obtain ⟨n, hn, out, h⟩ := ends_at_maxVa (unmapRound pagetable (pageDown (va + size - 1#64))) Prod.fst
      (fun _ _ => unmapRound_next) (pageDown va, s)
    refine ⟨n, hn, out, h, ?_, h.out fun _ _ => unmapRound_out⟩
    have hrun := h.iterate (Nat.le_trans hn hbound)
    rw [unmappages, if_neg hsize, unmappagesLoop_eq]
    exact congrArg (Option.getD · .spin) hrun

/-- A size with which `last` wraps around to a page below the first one: two pages are mapped, and
the third round is at `MAXVA`. -/
theorem mapping_loops_end_wrapped :
    let va := 0x3FFFFFE000#64
    let size := 0xFFFFFFFFFFFFF000#64
    let last := pageDown (va + size - 1#64)
    last.toNat < (pageDown va).toNat ∧
    (mappages smallTable 0x87FFD000#64 va size 0x80100000#64 0x16#32).code = some (-1) ∧
    ∃ n ≤ 2^26 + 1, ∃ out,
      Ends (mapRound 0x87FFD000#64 last 0x16#32) n ⟨pageDown va, 0x80100000#64, smallTable⟩ out := by
  intro va size last
  obtain ⟨⟨n, hn, out, h, _⟩, _⟩ := mapping_loops_end smallTable 0x87FFD000#64 va size 0x80100000#64 0x16#32 (by decide)
  exact ⟨by decide, by decide +kernel, n, hn, out, h⟩

end RiscvOs.Vm
