import RiscvOs.FormatScan
import RiscvOs.NumberPrinting
import Mathlib.Logic.Relation
set_option autoImplicit false

/-!
The widths of a format. `printf` takes any run of digits for a width and hands it to `print_num`,
which pads up to it without a look at the size of its buffer.
-/

namespace RiscvOs.Printf
open WordMemory CStrings

/-- The arguments of a call of `print_num`. -/
structure NumCall where
  num : Word
  base : Word
  width : BitVec 32
  pad : Byte
  deriving DecidableEq

/-- The call that the conversion `c` of the argument `num` makes. -/
def numCall (c : Byte) (width : BitVec 32) (pad : Byte) (num : Word) : Option NumCall :=
  if c = byte 'd' then some ⟨if num.toInt < 0 then -num else num, 10#64, width, pad⟩
  else if c = byte 'u' then some ⟨num, 10#64, width, pad⟩
  else if c = byte 'x' then some ⟨num, 16#64, width, pad⟩
  else if c = byte 'p' then some ⟨num, 16#64, 16#32, byte '0'⟩
  else none

/-- The call returns, and it has written to no index behind the end of `buf`. -/
def NumCall.Within (k : NumCall) : Prop :=
  ∀ buf, ∃ r, printNumBuf buf k.num k.base k.width k.pad = some r ∧ ∀ i ∈ r.writes, i < 32

section Format

variable (mem : Word → Byte) (args : Nat → Word)

/-- The calls of `print_num` by `printfLoop`. -/
def printfCalls (fmt : Nat → Byte) : Nat → Nat → Nat → List NumCall
  | 0, _, _ => []
  | n+1, pos, arg =>
    if fmt pos = 0#8 then []
    else if fmt pos = byte '%' then
      let pad := if fmt (pos + 1) == byte '0' then byte '0' else byte ' '
      (parseWidth fmt n (widthStart fmt pos) 0#32).elim [] fun w =>
        (numCall (fmt w.1) w.2 pad (args arg)).toList ++
          (convert mem args n (fmt w.1) w.2 pad arg).elim [] fun r => printfCalls fmt n (w.1 + 1) r.2
    else printfCalls fmt n (pos + 1) arg

/-- However long `printf` runs, its calls of `print_num` stay within their buffers. -/
def BufSafe (fmt : Nat → Byte) : Prop := ∀ fuel, ∀ k ∈ printfCalls mem args fmt fuel 0 0, k.Within

end Format

/-- A run of digits from `pos` on, up to the first byte that is none. -/
def DigitRun (fmt : Nat → Byte) : Nat → List Byte → Prop
  | pos, [] => isDigit (fmt pos) = false
  | pos, d :: ds => fmt pos = d ∧ isDigit d = true ∧ DigitRun fmt (pos + 1) ds

/-- The decimal number of a run of digits behind the number `v`. -/
def widthValue (v : Nat) (ds : List Byte) : Nat := ds.foldl (fun v d => 10 * v + (d.toNat - (byte '0').toNat)) v

/-- The letters that print their argument with the width of the conversion. -/
def usesWidth (c : Byte) : Bool := c == byte 'd' || c == byte 'u' || c == byte 'x'

/-- A width that is not larger than `buf`, if the conversion uses it. The number of a long run of
digits wraps around to an `int`. -/
def widthOk (c : Byte) (v : Nat) : Bool := !usesWidth c || decide ((BitVec.ofNat 32 v).toInt ≤ 32)

/-- One round of `printf` takes the format from the first position to the second. -/
inductive Next (fmt : Nat → Byte) : Nat → Nat → Prop
  | text {pos : Nat} (hzero : fmt pos ≠ 0#8) (hpercent : fmt pos ≠ byte '%') : Next fmt pos (pos + 1)
  | conv {pos : Nat} {ds : List Byte} (hpercent : fmt pos = byte '%') (hds : DigitRun fmt (widthStart fmt pos) ds) :
      Next fmt pos (widthStart fmt pos + ds.length + 1)

/-- A conversion at `pos` does not have too large a width. -/
def FitsAt (fmt : Nat → Byte) (pos : Nat) : Prop :=
  ∀ ds, fmt pos = byte '%' → DigitRun fmt (widthStart fmt pos) ds →
    widthOk (fmt (widthStart fmt pos + ds.length)) (widthValue 0 ds) = true

/-- No conversion that `printf` comes to has too large a width. -/
def WidthsFit (fmt : Nat → Byte) : Prop := ∀ pos, Relation.ReflTransGen (Next fmt) 0 pos → FitsAt fmt pos

/-- The widths of a text, or of what is left of it behind a `%` and a width `v`. -/
def widthsOk : Option Nat → List Byte → Bool
  | _, [] => true
  | none, c :: cs => widthsOk (if c = byte '%' then some 0 else none) cs
  | some v, c :: cs =>
    if isDigit c then widthsOk (some (widthValue v [c])) cs else widthOk c v && widthsOk none cs

section Calls

variable {mem : Word → Byte} {args : Nat → Word} {c pad : Byte} {width : BitVec 32} {num : Word} {k : NumCall}

theorem NumCall.within_iff (hbase : k.base = 10#64 ∨ k.base = 16#64) : k.Within ↔ k.width.toInt ≤ 32 := by
  have hrange : 10 ≤ k.base.toNat ∧ k.base.toNat ≤ 16 := base_range hbase
  constructor
  · intro h
    obtain ⟨r, hr, hwrites⟩ := h fun _ => 0#8
    exact (printNumBuf_within_iff hrange.1 hrange.2 hr).mp hwrites
  · intro h buf
    obtain ⟨r, hr, _⟩ := printNumBuf_holds (by omega : 1 < k.base.toNat) buf k.num k.width k.pad
    exact ⟨r, hr, (printNumBuf_within_iff hrange.1 hrange.2 hr).mpr h⟩

theorem numCall_cases (h : numCall c width pad num = some k) :
    (c = byte 'd' ∧ k = ⟨if num.toInt < 0 then -num else num, 10#64, width, pad⟩) ∨
    (c = byte 'u' ∧ k = ⟨num, 10#64, width, pad⟩) ∨
    (c = byte 'x' ∧ k = ⟨num, 16#64, width, pad⟩) ∨
    (c = byte 'p' ∧ k = ⟨num, 16#64, 16#32, byte '0'⟩) := by
  simp only [numCall] at h
  split at h
  · next hc => exact .inl ⟨hc, (Option.some.inj h).symm⟩
  · split at h
    · next hc => exact .inr (.inl ⟨hc, (Option.some.inj h).symm⟩)
    · split at h
      · next hc => exact .inr (.inr (.inl ⟨hc, (Option.some.inj h).symm⟩))
      · split at h
        · next hc => exact .inr (.inr (.inr ⟨hc, (Option.some.inj h).symm⟩))
        · cases h

/-- A conversion that calls `print_num` puts out what the call does, behind a sign or a prefix. -/
theorem convert_call (n arg : Nat) (h : numCall c width pad (args arg) = some k) :
    ∃ front, convert mem args n c width pad arg = some (front ++ printNum k.num k.base k.width k.pad, arg + 1) := by
  rcases numCall_cases h with ⟨rfl, rfl⟩ | ⟨rfl, rfl⟩ | ⟨rfl, rfl⟩ | ⟨rfl, rfl⟩
  · rw [convert_d]
    by_cases hneg : (args arg).toInt < 0
    · exact ⟨[byte '-'], by rw [if_pos hneg, if_pos hneg]; rfl⟩
    · exact ⟨[], by rw [if_neg hneg, if_neg hneg]; rfl⟩
  · exact ⟨[], convert_u ..⟩
  · exact ⟨[], convert_x ..⟩
  · exact ⟨[byte '0', byte 'x'], convert_p ..⟩

theorem numCall_spec (h : numCall c width pad num = some k) :
    (k.base = 10#64 ∨ k.base = 16#64) ∧ k.width = if usesWidth c then width else 16#32 := by
  rcases numCall_cases h with ⟨rfl, rfl⟩ | ⟨rfl, rfl⟩ | ⟨rfl, rfl⟩ | ⟨rfl, rfl⟩
  · exact ⟨.inl rfl, rfl⟩
  · exact ⟨.inl rfl, rfl⟩
  · exact ⟨.inr rfl, rfl⟩
  · exact ⟨.inr rfl, rfl⟩

theorem numCall_none (h : numCall c width pad num = none) : usesWidth c = false := by
  rw [← Bool.not_eq_true]
  intro hc
  simp only [usesWidth, Bool.or_eq_true, beq_iff_eq] at hc
  rcases hc with (rfl | rfl) | rfl <;> cases h

/-- The width decides, whatever the argument is. -/
theorem numCall_within_iff {v : Nat} :
    (∀ k ∈ (numCall c (BitVec.ofNat 32 v) pad num).toList, k.Within) ↔ widthOk c v = true := by
  have hok : widthOk c v = true ↔ (usesWidth c = true → (BitVec.ofNat 32 v).toInt ≤ 32) := by
    cases hc : usesWidth c <;> simp [widthOk, hc]
  rw [hok]
  cases h : numCall c (BitVec.ofNat 32 v) pad num with
  | none => simp [numCall_none h]
  | some k =>
    obtain ⟨hbase, hwidth⟩ := numCall_spec h
    simp only [Option.toList_some, List.mem_singleton, forall_eq]
    rw [NumCall.within_iff hbase, hwidth]
    cases usesWidth c with
    | true => simp
    | false => simp

end Calls

section Widths

variable {mem : Word → Byte} {args : Nat → Word} {fmt : Nat → Byte} {n pos arg : Nat} {ds es : List Byte} {d : Byte}

/-- The number so far and one more digit, as the `int` that holds it. -/
theorem width_step (hd : isDigit d = true) (v : Nat) :
    BitVec.ofNat 32 v * 10#32 + (d.setWidth 32 - (byte '0').setWidth 32) =
      BitVec.ofNat 32 (10 * v + (d.toNat - (byte '0').toNat)) := by
  have hzero : (byte '0').toNat = 48 := rfl
  have hlow : 48 ≤ d.toNat := by
    simp only [isDigit, Bool.and_eq_true, decide_eq_true_eq, BitVec.le_def] at hd
    exact hd.1
  have hlt := d.isLt
  apply BitVec.eq_of_toNat_eq
  simp only [BitVec.toNat_add, BitVec.toNat_mul, BitVec.toNat_sub, BitVec.toNat_setWidth, BitVec.toNat_ofNat, hzero]
  omega

theorem parseWidth_run (h : DigitRun fmt pos ds) (hn : ds.length < n) (v : Nat) :
    parseWidth fmt n pos (BitVec.ofNat 32 v) = some (pos + ds.length, BitVec.ofNat 32 (widthValue v ds)) := by
  induction ds generalizing n pos v with
  | nil =>
    obtain ⟨n, rfl⟩ : ∃ m, n = m + 1 := ⟨n - 1, by omega⟩
    have hend : isDigit (fmt pos) = false := h
    rw [parseWidth, hend]
    rfl
  | cons d ds ih =>
    obtain ⟨n, rfl⟩ : ∃ m, n = m + 1 := ⟨n - 1, by omega⟩
    obtain ⟨hd, hdigit, hrest⟩ := h
    rw [parseWidth, hd, if_pos hdigit, width_step hdigit, ih hrest (Nat.lt_of_succ_lt_succ hn), List.length_cons]
    congr 2
    omega

theorem parseWidth_some {v : Nat} {w : Nat × BitVec 32} (h : parseWidth fmt n pos (BitVec.ofNat 32 v) = some w) :
    ∃ ds, DigitRun fmt pos ds ∧ w = (pos + ds.length, BitVec.ofNat 32 (widthValue v ds)) := by
  induction n generalizing pos v with
  | zero => cases h
  | succ n ih =>
    rw [parseWidth] at h
    split at h
    · rename_i hdigit
      rw [width_step hdigit] at h
      obtain ⟨ds, hds, rfl⟩ := ih h
      refine ⟨fmt pos :: ds, ⟨rfl, hdigit, hds⟩, ?_⟩
      rw [List.length_cons, Nat.add_right_comm]
      rfl
    · rename_i hdigit
      cases h
      exact ⟨[], eq_false_of_ne_true hdigit, rfl⟩

theorem printfCalls_text (hzero : fmt pos ≠ 0#8) (hpercent : fmt pos ≠ byte '%') :
    printfCalls mem args fmt (n+1) pos arg = printfCalls mem args fmt n (pos + 1) arg := by
  rw [printfCalls, if_neg hzero, if_neg hpercent]

/-- The calls from a conversion on, once there are rounds enough for its width. -/
theorem printfCalls_conv (hpercent : fmt pos = byte '%') (hds : DigitRun fmt (widthStart fmt pos) ds)
    (hn : ds.length < n) :
    let next := widthStart fmt pos + ds.length
    let width := BitVec.ofNat 32 (widthValue 0 ds)
    let pad := if fmt (pos + 1) == byte '0' then byte '0' else byte ' '
    printfCalls mem args fmt (n+1) pos arg = (numCall (fmt next) width pad (args arg)).toList ++
      (convert mem args n (fmt next) width pad arg).elim [] fun r => printfCalls mem args fmt n (next + 1) r.2 := by
  intro next width pad
  have hzero : fmt pos ≠ 0#8 := by
    rw [hpercent]
    decide
  rw [printfCalls, if_neg hzero, if_pos hpercent]
  dsimp only
  rw [parseWidth_run hds hn 0]
  rfl

/-- What the calls put out is in the output of `printf`. -/
theorem printfCalls_printed {out : List Byte} (h : printfLoop mem args fmt n pos arg = some out) :
    ∀ k ∈ printfCalls mem args fmt n pos arg, printNum k.num k.base k.width k.pad <:+: out := by
  induction n generalizing pos arg out with
  | zero => cases h
  | succ n ih =>
    rw [printfLoop] at h
    rw [printfCalls]
    split at h
    · rename_i hzero
      rw [if_pos hzero]
      simp
    · rename_i hzero
      rw [if_neg hzero]
      split at h
      · rename_i hpercent
        rw [if_pos hpercent]
        obtain ⟨w, hw, h⟩ := Option.bind_eq_some_iff.mp h
        obtain ⟨r, hr, h⟩ := Option.bind_eq_some_iff.mp h
        obtain ⟨rest, hrest, rfl⟩ := Option.map_eq_some_iff.mp h
        dsimp only
        rw [widthStart, hw, Option.elim_some, hr, Option.elim_some, List.forall_mem_append]
        constructor
        · intro k hk
          obtain ⟨front, hfront⟩ := convert_call n arg (Option.mem_toList.mp hk)
          rw [hr] at hfront
          cases hfront
          exact ⟨front, rest, rfl⟩
        · intro k hk
          exact (ih hrest k hk).trans (List.suffix_append _ _).isInfix
      · rename_i hpercent
        rw [if_neg hpercent]
        obtain ⟨rest, hrest, rfl⟩ := Option.map_eq_some_iff.mp h
        intro k hk
        exact (ih hrest k hk).trans (List.suffix_append _ _).isInfix

/-- Widths that fit wherever `printf` can come to from `pos` on keep the calls within their buffers. -/
theorem printfCalls_within (h : ∀ q, Relation.ReflTransGen (Next fmt) pos q → FitsAt fmt q) :
    ∀ k ∈ printfCalls mem args fmt n pos arg, k.Within := by
  induction n generalizing pos arg with
  | zero => simp [printfCalls]
  | succ n ih =>
    by_cases hzero : fmt pos = 0#8
    · rw [printfCalls, if_pos hzero]
      simp
    by_cases hpercent : fmt pos = byte '%'
    · rw [printfCalls, if_neg hzero, if_pos hpercent]
      dsimp only
      cases hw : parseWidth fmt n (widthStart fmt pos) 0#32 with
      | none => simp
      | some w =>
        obtain ⟨ds, hds, rfl⟩ := parseWidth_some hw
        rw [Option.elim_some, List.forall_mem_append]
        refine ⟨numCall_within_iff.mpr (h pos .refl ds hpercent hds), ?_⟩
        dsimp only
        generalize convert mem args n _ _ _ _ = o
        cases o with
        | none => simp
        | some r => exact ih fun q hq => h q (.head (.conv hpercent hds) hq)
    · rw [printfCalls_text hzero hpercent]
      exact ih fun q hq => h q (.head (.text hzero hpercent) hq)

/-- When `printf` has rounds enough, its calls from `pos` on stay within their buffers, for at least
one position of the next argument. -/
def Settles (mem : Word → Byte) (args : Nat → Word) (fmt : Nat → Byte) (pos : Nat) : Prop :=
  ∃ m, ∀ n ≥ m, ∃ arg, ∀ k ∈ printfCalls mem args fmt n pos arg, k.Within

theorem Settles.fits (h : Settles mem args fmt pos) : FitsAt fmt pos := by
  intro ds hpercent hds
  obtain ⟨m, hm⟩ := h
  obtain ⟨arg, hcalls⟩ := hm (max m (ds.length + 1) + 1) (by omega)
  rw [printfCalls_conv hpercent hds (by omega), List.forall_mem_append] at hcalls
  exact numCall_within_iff.mp hcalls.1

theorem Settles.next (hmem : ∃ a, mem a = 0#8) {q : Nat} (h : Settles mem args fmt pos) (hq : Next fmt pos q) :
    Settles mem args fmt q := by
  obtain ⟨m, hm⟩ := h
  cases hq with
  | text hzero hpercent =>
    refine ⟨m, fun n hn => ?_⟩
    obtain ⟨arg, hcalls⟩ := hm (n + 1) (by omega)
    rw [printfCalls_text hzero hpercent] at hcalls
    exact ⟨arg, hcalls⟩
  | @conv ds hpercent hds =>
    refine ⟨max m (max (ds.length + 1) (2^64)), fun n hn => ?_⟩
    obtain ⟨arg, hcalls⟩ := hm (n + 1) (by omega)
    obtain ⟨a, ha⟩ := hmem
    have hputs (s : Word) : ∃ out, uartPuts mem n s = some out :=
      uartPuts_returns ha (Nat.lt_of_lt_of_le (a - s).isLt (by omega))
    rw [printfCalls_conv hpercent hds (by omega), List.forall_mem_append] at hcalls
    obtain ⟨r, hr⟩ := convert_returns hputs args (fmt (widthStart fmt pos + ds.length))
      (BitVec.ofNat 32 (widthValue 0 ds)) (if fmt (pos + 1) == byte '0' then byte '0' else byte ' ') arg
    rw [hr] at hcalls
    exact ⟨r.2, hcalls.2⟩

/-- In a memory that holds a null byte, so that each `uart_puts` ends. -/
theorem bufSafe_iff (hmem : ∃ a, mem a = 0#8) : BufSafe mem args fmt ↔ WidthsFit fmt := by
  constructor
  · intro h pos hpos
    have hsettles : Settles mem args fmt pos := by
      induction hpos with
      | refl => exact ⟨0, fun n _ => ⟨0, h n⟩⟩
      | tail _ hq ih => exact ih.next hmem hq
    exact hsettles.fits
  · intro h fuel
    exact printfCalls_within h

end Widths

section Texts

variable {fmt : Nat → Byte} {pos start q : Nat} {cs ds es : List Byte}

theorem DigitRun.unique (h : DigitRun fmt pos ds) (h' : DigitRun fmt pos es) : ds = es := by
  induction ds generalizing pos es with
  | nil =>
    have hend : isDigit (fmt pos) = false := h
    cases es with
    | nil => rfl
    | cons e es =>
      obtain ⟨he, hdigit, _⟩ := h'
      rw [← he, hend] at hdigit
      cases hdigit
  | cons d ds ih =>
    obtain ⟨hd, hdigit, hrest⟩ := h
    cases es with
    | nil =>
      have hend : isDigit (fmt pos) = false := h'
      rw [← hd, hend] at hdigit
      cases hdigit
    | cons e es =>
      obtain ⟨he, _, hrest'⟩ := h'
      rw [ih hrest hrest', ← hd, he]

theorem next_end (hend : fmt pos = 0#8) : ¬ Next fmt pos q := by
  intro h
  cases h with
  | text hzero _ => exact hzero hend
  | conv hpercent _ =>
    rw [hend] at hpercent
    exact absurd hpercent (by decide)

theorem next_text_iff (hzero : fmt pos ≠ 0#8) (hpercent : fmt pos ≠ byte '%') : Next fmt pos q ↔ q = pos + 1 := by
  constructor
  · intro h
    cases h with
    | text _ _ => rfl
    | conv hconv _ => exact absurd hconv hpercent
  · rintro rfl
    exact .text hzero hpercent

theorem next_conv_iff (hpercent : fmt pos = byte '%') (hds : DigitRun fmt (widthStart fmt pos) ds) :
    Next fmt pos q ↔ q = widthStart fmt pos + ds.length + 1 := by
  constructor
  · intro h
    cases h with
    | text _ htext => exact absurd hpercent htext
    | conv _ hds' => rw [hds'.unique hds]
  · rintro rfl
    exact .conv hpercent hds

theorem fitsAt_text (hpercent : fmt pos ≠ byte '%') : FitsAt fmt pos :=
  fun _ hconv => absurd hconv hpercent

theorem fitsAt_conv_iff (hpercent : fmt pos = byte '%') (hds : DigitRun fmt (widthStart fmt pos) ds) :
    FitsAt fmt pos ↔ widthOk (fmt (widthStart fmt pos + ds.length)) (widthValue 0 ds) = true := by
  constructor
  · intro h
    exact h ds hpercent hds
  · intro h ds' _ hds'
    rwa [hds'.unique hds]

/-- A property of all positions that are reached holds here and from the next position on. -/
theorem forall_reached_iff {P : Nat → Prop} : (∀ q, Relation.ReflTransGen (Next fmt) pos q → P q) ↔
    P pos ∧ ∀ p, Next fmt pos p → ∀ q, Relation.ReflTransGen (Next fmt) p q → P q := by
  constructor
  · intro h
    exact ⟨h pos .refl, fun p hp q hq => h q (.head hp hq)⟩
  · rintro ⟨hpos, hnext⟩ q hq
    rcases hq.cases_head with rfl | ⟨p, hp, hq⟩
    · exact hpos
    · exact hnext p hp q hq

/-- What a conversion does to a text that does not end in it. -/
theorem widthsOk_inside (h : Spells (fun j => fmt (start + j)) cs) (hends : endsInside true cs = false) (v : Nat) :
    ∃ ds rest, DigitRun fmt start ds ∧ Spells (fun j => fmt (start + ds.length + 1 + j)) rest ∧
      rest.length < cs.length ∧ endsInside false rest = false ∧
      widthsOk (some v) cs = (widthOk (fmt (start + ds.length)) (widthValue v ds) && widthsOk none rest) := by
  induction cs generalizing start v with
  | nil => cases hends
  | cons c cs ih =>
    obtain ⟨hc, _, hrest⟩ := h.next
    rw [endsInside] at hends
    cases hdigit : isDigit c with
    | true =>
      rw [hdigit] at hends
      obtain ⟨ds, rest, hds, hspells, hlen, hin, hok⟩ := ih hrest hends (widthValue v [c])
      have hpos : start + (c :: ds).length = start + 1 + ds.length := by
        rw [List.length_cons]
        omega
      refine ⟨c :: ds, rest, ⟨hc, hdigit, hds⟩, ?_, Nat.lt_succ_of_lt hlen, hin, ?_⟩
      · rwa [hpos]
      · rw [hpos, widthsOk, hdigit, if_pos rfl, hok]
        rfl
    | false =>
      rw [hdigit] at hends
      refine ⟨[], cs, ?_, hrest, Nat.lt_succ_self _, hends, ?_⟩
      · show isDigit (fmt start) = false
        rw [hc, hdigit]
      · show _ = (widthOk (fmt start) v && _)
        rw [widthsOk, hdigit, hc]
        rfl

/-- The pad zero does not change the width. -/
theorem widthStart_width (h : Spells (fun j => fmt (pos + 1 + j)) cs) :
    ∃ ds, Spells (fun j => fmt (widthStart fmt pos + j)) ds ∧ ds.length ≤ cs.length ∧
      endsInside true ds = endsInside true cs ∧ widthsOk (some 0) ds = widthsOk (some 0) cs := by
  unfold widthStart
  split
  · rename_i hflag
    rw [beq_iff_eq] at hflag
    cases cs with
    | nil =>
      have hend : fmt (pos + 1) = 0#8 := h
      rw [hend] at hflag
      exact absurd hflag (by decide)
    | cons c cs =>
      obtain ⟨hc, _, hrest⟩ := h.next
      rw [hflag] at hc
      subst hc
      exact ⟨cs, hrest, Nat.le_succ _, rfl, rfl⟩
  · exact ⟨cs, h, Nat.le_refl _, rfl, rfl⟩

/-- In a text that does not end inside a conversion, the widths fit exactly if its scan says so. -/
theorem fits_from_iff (h : Spells (fun j => fmt (pos + j)) cs) (hends : endsInside false cs = false) :
    (∀ q, Relation.ReflTransGen (Next fmt) pos q → FitsAt fmt q) ↔ widthsOk none cs = true := by
  -- A conversion takes any number of characters, so that the induction is on the length.
  induction hlen : cs.length using Nat.strongRecOn generalizing pos cs with
  | ind k ih =>
    rw [forall_reached_iff]
    cases cs with
    | nil =>
      have hend : fmt pos = 0#8 := h
      have hpercent : fmt pos ≠ byte '%' := by
        rw [hend]
        decide
      exact iff_of_true ⟨fitsAt_text hpercent, fun p hp => absurd hp (next_end hend)⟩ rfl
    | cons c cs =>
      obtain ⟨hc, hzero, hrest⟩ := h.next
      rw [endsInside] at hends
      rw [List.length_cons] at hlen
      by_cases hpercent : c = byte '%'
      · subst hpercent
        rw [beq_self_eq_true] at hends
        obtain ⟨es, hes, hle, hin, hok⟩ := widthStart_width hrest
        obtain ⟨ds, rest, hds, hspells, hlt, hend, hfits⟩ := widthsOk_inside hes (hin.trans hends) 0
        have hscan : widthsOk none (byte '%' :: cs) = widthsOk (some 0) cs := rfl
        rw [hscan, ← hok, hfits, Bool.and_eq_true, fitsAt_conv_iff hc hds,
          ← ih rest.length (by omega) hspells hend rfl]
        simp only [next_conv_iff hc hds, forall_eq]
      · rw [← hc] at hzero hpercent
        have hscan : widthsOk none (c :: cs) = widthsOk none cs := by rw [widthsOk, if_neg (hc ▸ hpercent)]
        rw [← hc, beq_eq_false_iff_ne.mpr hpercent] at hends
        rw [hscan, ← ih cs.length (by omega) hrest hends rfl]
        simp only [next_text_iff hzero hpercent, forall_eq, fitsAt_text hpercent, true_and]

theorem widthsFit_iff {text : List Byte} (h : Spells fmt text) (hends : endsInside false text = false) :
    WidthsFit fmt ↔ widthsOk none text = true := by
  refine fits_from_iff ?_ hends
  simpa only [Nat.zero_add] using h

end Texts

/-- The format at `f` keeps every write within `buf` exactly when none of the numbers that it prints
has a width above 32. The arguments do not matter. -/
theorem printf_buffer_safe_iff (mem : Word → Byte) (args : Nat → Word) (f : Word)
    (hend : ∃ j, mem (f + BitVec.ofNat 64 j) = 0#8) :
    BufSafe mem args (fun j => mem (f + BitVec.ofNat 64 j)) ↔ WidthsFit fun j => mem (f + BitVec.ofNat 64 j) := by
  obtain ⟨j, hj⟩ := hend
  exact bufSafe_iff ⟨_, hj⟩

/-- Padded numbers, the second of them as wide as `buf`, and no width at a `%%`. -/
theorem printf_buffer_safe_padded :
    let text := "%08x %32d 99%%".toList.map byte
    let mem (a : Word) : Byte := cstring text (a - 0x1000#64).toNat
    let fmt (j : Nat) : Byte := mem (0x1000#64 + BitVec.ofNat 64 j)
    Spells fmt text ∧ ∀ args, BufSafe mem args fmt := by
  intro text mem fmt
  have hspells : Spells fmt text := Spells.of_get (by decide +kernel) (by decide +kernel) (by decide +kernel)
  refine ⟨hspells, fun args => ?_⟩
  refine (printf_buffer_safe_iff mem args 0x1000#64 ⟨14, by decide +kernel⟩).mpr ?_
  exact (widthsFit_iff hspells (by decide +kernel)).mpr (by decide +kernel)

/-- A width of 33 pads up to the index 32. -/
theorem print_num_overruns :
    let text := "%33d".toList.map byte
    let mem (a : Word) : Byte := cstring text (a - 0x1000#64).toNat
    let fmt (j : Nat) : Byte := mem (0x1000#64 + BitVec.ofNat 64 j)
    Spells fmt text ∧ ∃ k ∈ printfCalls mem (fun _ => 0#64) fmt 10 0 0,
      ∃ r, printNumBuf (fun _ => 0#8) k.num k.base k.width k.pad = some r ∧ 32 ∈ r.writes := by
  intro text mem fmt
  have hspells : Spells fmt text := Spells.of_get (by decide +kernel) (by decide +kernel) (by decide +kernel)
  have hcalls : printfCalls mem (fun _ => 0#64) fmt 10 0 0 = [⟨0#64, 10#64, 33#32, byte ' '⟩] := by decide +kernel
  obtain ⟨r, hr, hholds⟩ := printNumBuf_holds (show 1 < (10#64).toNat by decide) (fun _ => 0#8) 0#64 33#32 (byte ' ')
  have hlen : (numBuffer 0#64 10#64 33#32 (byte ' ')).length = r.i := hholds.length
  have hfull : (numBuffer 0#64 10#64 33#32 (byte ' ')).length = 33 := by decide +kernel
  refine ⟨hspells, _, by rw [hcalls]; exact List.mem_singleton_self _, r, hr, ?_⟩
  rw [hholds.writes, List.mem_range, ← hlen, hfull]
  decide

end RiscvOs.Printf
