import RiscvOs.Loops
import RiscvOs.Numerals
import RiscvOs.Printf
set_option autoImplicit false

/-!
The buffer of `print_num`. Digits and padding are written to it from index 0 on and put out from
its end, so that a number is printed as its numeral with the padding in front.
-/

namespace RiscvOs.Printf
open WordMemory CStrings Loops Numerals

/-- The local variables `buf` and `i`. `writes` is not in the source: it lists the indices that
were written so far. -/
structure NumBuf where
  buf : Nat → Byte
  i : Nat
  writes : List Nat

/-- `buf[i++] = c` -/
def NumBuf.push (b : NumBuf) (c : Byte) : NumBuf :=
  ⟨Function.update b.buf b.i c, b.i + 1, b.writes ++ [b.i]⟩

/-- A round of the loop over the digits. -/
def digitRound (base : Word) (x : Word × NumBuf) : (Word × NumBuf) ⊕ NumBuf :=
  if x.1 > 0#64 then .inl (x.1 / base, x.2.push (digitChars.getD (x.1 % base).toNat 0#8)) else .inr x.2

/-- A round of the padding loop. -/
def padRound (width : BitVec 32) (pad : Byte) (b : NumBuf) : NumBuf ⊕ NumBuf :=
  if (b.i : Int) < width.toInt then .inl (b.push pad) else .inr b

/-- `print_num` up to its output, in a frame where `buf` holds anything. No number has more than 64
digits, and no width is larger than an `int`. -/
def printNumBuf (buf : Nat → Byte) (num base : Word) (width : BitVec 32) (pad : Byte) : Option NumBuf :=
  let b : NumBuf := ⟨buf, 0, []⟩
  (if num = 0#64 then some (b.push (byte '0')) else iterate (digitRound base) 65 (num, b)).bind
    (iterate (padRound width pad) (2^31))

/-- The output loop, which counts `i` down. -/
def putBuf (buf : Nat → Byte) : Nat → List Byte
  | 0 => []
  | i+1 => buf i :: putBuf buf i

def NumBuf.text (b : NumBuf) : List Byte := putBuf b.buf b.i

section Buffer

/-- The entries below `i` are `xs`, and each of them was written once, in their order. -/
structure NumBuf.Holds (b : NumBuf) (xs : List Byte) : Prop where
  entries : (List.range b.i).map b.buf = xs
  writes : b.writes = List.range b.i

variable {b : NumBuf} {xs : List Byte} {base num : Word} {width : BitVec 32} {pad : Byte}

theorem NumBuf.Holds.length (h : b.Holds xs) : xs.length = b.i := by
  rw [← h.entries, List.length_map, List.length_range]

theorem NumBuf.Holds.push (h : b.Holds xs) (c : Byte) : (b.push c).Holds (xs ++ [c]) := by
  refine ⟨?_, ?_⟩
  · have hbelow : (List.range b.i).map (Function.update b.buf b.i c) = (List.range b.i).map b.buf := by
      refine List.map_congr_left fun k hk => ?_
      exact Function.update_of_ne (Nat.ne_of_lt (List.mem_range.mp hk)) _ _
    simp only [NumBuf.push, List.range_succ, List.map_append, List.map_cons, List.map_nil, hbelow, h.entries,
      Function.update_self]
  · simp only [NumBuf.push, List.range_succ, h.writes]

theorem putBuf_eq (buf : Nat → Byte) (i : Nat) : putBuf buf i = ((List.range i).map buf).reverse := by
  induction i with
  | zero => rfl
  | succ i ih =>
    rw [putBuf, ih, List.range_succ, List.map_append, List.reverse_append]
    rfl

theorem NumBuf.Holds.text (h : b.Holds xs) : b.text = xs.reverse := by
  rw [NumBuf.text, putBuf_eq, h.entries]

/-- The loop over the digits ends, and has written them. -/
theorem digitRound_ends (hbase : 1 < base.toNat) {k : Nat} (hk : num.toNat < 2^k) (h : b.Holds xs) :
    ∃ n ≤ k + 1, ∃ r, Ends (digitRound base) n (num, b) r ∧ r.Holds (xs ++ digitLoop base k num) := by
  induction k generalizing num b xs with
  | zero =>
    have hz : num = 0#64 := BitVec.eq_of_toNat_eq (by simpa using hk)
    subst hz
    refine ⟨1, Nat.le_refl 1, b, .last rfl, ?_⟩
    rwa [digitLoop, List.append_nil]
  | succ k ih =>
    by_cases hz : num = 0#64
    · subst hz
      refine ⟨1, Nat.le_add_left 1 _, b, .last rfl, ?_⟩
      rwa [digitLoop, if_pos rfl, List.append_nil]
    · have hpos : num > 0#64 := by
        rw [gt_iff_lt, BitVec.lt_def]
        exact Nat.pos_of_ne_zero fun he => hz (BitVec.eq_of_toNat_eq he)
      obtain ⟨n, hn, r, hr, hholds⟩ := ih (div_lt hbase hk) (h.push (digitChars.getD (num % base).toNat 0#8))
      refine ⟨n + 1, Nat.succ_le_succ hn, r, .next (if_pos hpos) hr, ?_⟩
      rwa [digitLoop, if_neg hz, List.append_cons]

/-- The padding loop ends, and has filled the buffer up to the width. -/
theorem padRound_ends (width : BitVec 32) (pad : Byte) (h : b.Holds xs) :
    ∃ n ≤ width.toInt.toNat - xs.length + 1, ∃ r, Ends (padRound width pad) n b r ∧
      r.Holds (xs ++ List.replicate (width.toInt.toNat - xs.length) pad) := by
  have hlen := h.length
  generalize hk : width.toInt.toNat - xs.length = k
  induction k generalizing b xs with
  | zero =>
    have hend : ¬ (b.i : Int) < width.toInt := by omega
    refine ⟨1, Nat.le_refl 1, b, .last (if_neg hend), ?_⟩
    rwa [List.replicate_zero, List.append_nil]
  | succ k ih =>
    have hpad : (b.i : Int) < width.toInt := by omega
    have hpush := h.push pad
    obtain ⟨n, hn, r, hr, hholds⟩ := ih hpush hpush.length (by rw [List.length_append, List.length_singleton]; omega)
    refine ⟨n + 1, Nat.succ_le_succ hn, r, .next (if_pos hpad) hr, ?_⟩
    rwa [List.replicate_succ, List.append_cons]

/-- The loops end, and the buffer holds what `numBuffer` says. -/
theorem printNumBuf_holds (hbase : 1 < base.toNat) (buf : Nat → Byte) (num : Word) (width : BitVec 32) (pad : Byte) :
    ∃ r, printNumBuf buf num base width pad = some r ∧ r.Holds (numBuffer num base width pad) := by
  have hstart : NumBuf.Holds ⟨buf, 0, []⟩ [] := ⟨rfl, rfl⟩
  obtain ⟨b, hb, hholds⟩ : ∃ b : NumBuf,
      (if num = 0#64 then some (NumBuf.push ⟨buf, 0, []⟩ (byte '0'))
        else iterate (digitRound base) 65 (num, ⟨buf, 0, []⟩)) = some b ∧
      b.Holds (if num = 0#64 then [byte '0'] else digitLoop base 64 num) := by
    split
    · exact ⟨_, rfl, hstart.push _⟩
    · obtain ⟨n, hn, b, hends, hb⟩ := digitRound_ends hbase num.isLt hstart
      exact ⟨b, hends.iterate hn, hb⟩
  obtain ⟨n, hn, r, hends, hr⟩ := padRound_ends width pad hholds
  have hint : width.toInt < 2^31 := by
    have hlt := BitVec.toInt_lt (x := width)
    simpa using hlt
  refine ⟨r, ?_, hr⟩
  rw [printNumBuf, hb, Option.bind_some]
  exact hends.iterate (by omega)

theorem printNumBuf_some {buf : Nat → Byte} {r : NumBuf} (hbase : 1 < base.toNat)
    (h : printNumBuf buf num base width pad = some r) : r.Holds (numBuffer num base width pad) := by
  obtain ⟨r', hr', hholds⟩ := printNumBuf_holds hbase buf num width pad
  rw [h] at hr'
  cases hr'
  exact hholds

end Buffer

/-- The value of a digit. -/
def digitValue (c : Byte) : Option Nat :=
  if isDigit c then some (c.toNat - (byte '0').toNat)
  else if byte 'a' ≤ c ∧ c ≤ byte 'f' then some (c.toNat - (byte 'a').toNat + 10)
  else none

section Exact

theorem digitValue_digitChar {d : Nat} (hd : d < 16) : digitValue (byte (Nat.digitChar d)) = some d := by
  have hall : ∀ d : Fin 16, digitValue (byte (Nat.digitChar d.val)) = some d.val := by decide
  exact hall ⟨d, hd⟩

theorem digitValue_inj (c c' : Byte) (d : Nat) (h : digitValue c = some d) (h' : digitValue c' = some d) : c = c' := by
  -- The digits in the order of their values.
  have hall : ∀ c : Byte, ∀ d, digitValue c = some d → c = digitChars.getD d 0#8 := by decide +kernel
  rw [hall c d h, hall c' d h']

/-- The text that the digits make is the number without leading zeros. -/
theorem toDigits_canonical {base : Nat} (hbase : 1 < base) (hle : base ≤ 16) (n : Nat) :
    Canonical digitValue base n ((Nat.toDigits base n).map byte) := by
  induction n using Nat.strongRecOn with
  | ind n ih =>
    have hlast := Nat.mod_lt n (by omega : 0 < base)
    by_cases hlt : n < base
    · rw [Nat.toDigits_of_lt_base hlt]
      exact .single (digitValue_digitChar (by omega)) hlt
    · have hdiv : n / base < n := Nat.div_lt_self (by omega) hbase
      have hpos : 0 < n / base := Nat.div_pos (by omega) (by omega)
      have hsnoc := (ih (n / base) hdiv).snoc hpos (digitValue_digitChar (by omega : n % base < 16)) hlast
      rw [Nat.div_add_mod] at hsnoc
      rw [Nat.toDigits_of_base_le hbase (by omega), List.map_append]
      exact hsnoc

/-- The bases that `printf` uses. -/
theorem base_range {base : Word} (hbase : base = 10#64 ∨ base = 16#64) : 10 ≤ base.toNat ∧ base.toNat ≤ 16 := by
  rcases hbase with rfl | rfl <;> decide

theorem numBuffer_length {base num : Word} (hbase : 1 < base.toNat) (hle : base.toNat ≤ 16) (width : BitVec 32)
    (pad : Byte) : (numBuffer num base width pad).length =
      max (Nat.toDigits base.toNat num.toNat).length width.toInt.toNat := by
  have hprint : printNum num base width pad = _ := printNum_eq hbase hle width pad
  have hlen := congrArg List.length hprint
  rw [printNum, List.length_reverse, List.length_append, List.length_replicate, List.length_map] at hlen
  omega

/-- A word has at most 20 decimal digits. -/
theorem toDigits_length {base : Nat} (hbase : 10 ≤ base) (num : Word) : (Nat.toDigits base num.toNat).length ≤ 20 := by
  rw [Nat.length_toDigits_le_iff (by omega) (by decide)]
  have hpow : 10^20 ≤ base^20 := Nat.pow_le_pow_left hbase 20
  have hnum := num.isLt
  omega

/-- The writes stay within `buf` exactly when the width fits in. -/
theorem printNumBuf_within_iff {buf : Nat → Byte} {num base : Word} {width : BitVec 32} {pad : Byte} {r : NumBuf}
    (hbase : 10 ≤ base.toNat) (hle : base.toNat ≤ 16) (h : printNumBuf buf num base width pad = some r) :
    (∀ i ∈ r.writes, i < 32) ↔ width.toInt ≤ 32 := by
  have hholds := printNumBuf_some (by omega) h
  have hlen := hholds.length
  rw [numBuffer_length (by omega) hle] at hlen
  have hdigits := toDigits_length hbase num
  rw [hholds.writes, ← hlen]
  simp only [List.mem_range]
  constructor
  · intro hall
    by_contra hwidth
    exact absurd (hall 32 (by omega)) (by decide)
  · intro hwidth i hi
    omega

/-- What is put out is the number in the base, with the padding in front. -/
theorem printNumBuf_text {buf : Nat → Byte} {num base : Word} {width : BitVec 32} {pad : Byte} {r : NumBuf}
    (hbase : 1 < base.toNat) (hle : base.toNat ≤ 16) (h : printNumBuf buf num base width pad = some r) :
    r.text = List.replicate (width.toInt.toNat - (Nat.toDigits base.toNat num.toNat).length) pad ++
      (Nat.toDigits base.toNat num.toNat).map byte := by
  rw [(printNumBuf_some hbase h).text]
  exact printNum_eq hbase hle width pad

/-- The number can be read from its text, whatever is in front of it. -/
theorem padded_inj {base n m k l : Nat} {pad : Byte} {xs ys : List Byte} (hpad : pad = byte ' ' ∨ pad = byte '0')
    (hbase : 0 < base) (hx : Canonical digitValue base n xs) (hy : Canonical digitValue base m ys)
    (h : List.replicate k pad ++ xs = List.replicate l pad ++ ys) : n = m := by
  have hreads : readNumber digitValue base xs = readNumber digitValue base ys := by
    rcases hpad with rfl | rfl
    · have hblank : digitValue (byte ' ') = none := by decide
      rw [← hx.strip hblank k, h, hy.strip hblank l]
    · have hzero : digitValue (byte '0') = some 0 := by decide
      rw [← readNumber_zeros hzero hbase k, h, readNumber_zeros hzero hbase l]
  rw [hx.reads, hy.reads] at hreads
  exact Option.some.inj hreads

end Exact

/-- The numeral of the number, behind the padding that the width asks for. A padding of zeros can be
read as a part of it, and each padding tells the numbers apart. -/
theorem print_num_exact (buf : Nat → Byte) (num base : Word) (width : BitVec 32) (pad : Byte)
    (hbase : base = 10#64 ∨ base = 16#64) (hwidth : width.toNat ≤ 32) (hpad : pad = byte ' ' ∨ pad = byte '0') :
    ∃ r ds, printNumBuf buf num base width pad = some r ∧ (∀ i ∈ r.writes, i < 32) ∧
      (∀ xs, Canonical digitValue base.toNat num.toNat xs ↔ xs = ds) ∧
      r.text = List.replicate (width.toNat - ds.length) pad ++ ds ∧
      (pad = byte '0' → readNumber digitValue base.toNat r.text = some num.toNat) ∧
      ∀ buf' num' r', printNumBuf buf' num' base width pad = some r' → r'.text = r.text → num' = num := by
  have hrange := base_range hbase
  have hint : width.toInt = width.toNat := BitVec.toInt_eq_toNat_of_lt (by omega)
  obtain ⟨r, hr, _⟩ := printNumBuf_holds (by omega : 1 < base.toNat) buf num width pad
  have hcanon (n : Nat) := toDigits_canonical (by omega : 1 < base.toNat) hrange.2 n
  have htext := printNumBuf_text (by omega) hrange.2 hr
  have hnat : width.toInt.toNat = width.toNat := by omega
  refine ⟨r, (Nat.toDigits base.toNat num.toNat).map byte, hr, ?_, ?_, ?_, ?_, ?_⟩
  · exact (printNumBuf_within_iff hrange.1 hrange.2 hr).mpr (by omega)
  · intro xs
    constructor
    · intro hxs
      exact hxs.unique digitValue_inj (hcanon _)
    · rintro rfl
      exact hcanon _
  · rw [htext, hnat, List.length_map]
  · rintro rfl
    rw [htext, readNumber_zeros (by decide) (by omega)]
    exact (hcanon _).reads
  · intro buf' num' r' hr' hsame
    rw [htext, printNumBuf_text (by omega) hrange.2 hr'] at hsame
    exact BitVec.eq_of_toNat_eq (padded_inj hpad (by omega) (hcanon _) (hcanon _) hsame)

/-- Four digits with four zeros in front. -/
theorem print_num_exact_hex : ∃ r, printNumBuf (fun _ => 7#8) 0xbeef#64 16#64 8#32 (byte '0') = some r ∧
    r.text = "0000beef".toList.map byte ∧ readNumber digitValue 16 r.text = some 0xbeef := by
  obtain ⟨r, ds, hr, _, hds, htext, hread, _⟩ :=
    print_num_exact (fun _ => 7#8) 0xbeef#64 16#64 8#32 (byte '0') (.inr rfl) (by decide) (.inr rfl)
  have hbeef : "beef".toList.map byte = ds := by
    refine (hds _).mp ⟨by decide, by decide, ?_⟩
    intro c cs he hzero
    obtain ⟨rfl, _⟩ := List.cons.inj he
    exact absurd hzero (by decide)
  refine ⟨r, hr, ?_, hread rfl⟩
  rw [htext, ← hbeef]
  rfl

end RiscvOs.Printf
