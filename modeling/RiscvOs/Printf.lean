import RiscvOs.WordMemory
import RiscvOs.CStrings
import Mathlib.Data.Nat.Digits.Defs
set_option autoImplicit false

/-!
`printf` of `kernel/printf.c`. The format is read byte by byte and the variadic arguments one
slot of 64 bits at a time, so a conversion that is not known leaves its argument to the next
one. Loops that run until they meet a byte take the number of rounds they may use.
-/

namespace RiscvOs.Printf
open WordMemory CStrings

/-- The string `digits` of `print_num`. -/
def digitChars : List Byte :=
  [byte '0', byte '1', byte '2', byte '3', byte '4', byte '5', byte '6', byte '7', byte '8', byte '9',
   byte 'a', byte 'b', byte 'c', byte 'd', byte 'e', byte 'f']

/-- The digits of `num`, the last one first. -/
def digitLoop (base : Word) : Nat → Word → List Byte
  | 0, _ => []
  | n+1, num =>
    if num = 0#64 then [] else digitChars.getD (num % base).toNat 0#8 :: digitLoop base n (num / base)

/-- What `print_num` has written to `buf`, from index 0 on. No number has more than 64 digits. -/
def numBuffer (num base : Word) (width : BitVec 32) (pad : Byte) : List Byte :=
  let buf := if num = 0#64 then [byte '0'] else digitLoop base 64 num
  buf ++ List.replicate (width.toInt.toNat - buf.length) pad

def printNum (num base : Word) (width : BitVec 32) (pad : Byte) : List Byte :=
  (numBuffer num base width pad).reverse

/-- A character of a text, with the carriage return that a newline gets. -/
def putText (c : Byte) : List Byte := if c = byte '\n' then [byte '\r', c] else [c]

def uartPuts (mem : Word → Byte) : Nat → Word → Option (List Byte)
  | 0, _ => none
  | n+1, s => if mem s = 0#8 then some [] else (uartPuts mem n (s + 1#64)).map (putText (mem s) ++ ·)

def isDigit (c : Byte) : Bool := byte '0' ≤ c && c ≤ byte '9'

def parseWidth (fmt : Nat → Byte) : Nat → Nat → BitVec 32 → Option (Nat × BitVec 32)
  | 0, _, _ => none
  | n+1, pos, width =>
    if isDigit (fmt pos) then
      parseWidth fmt n (pos + 1) (width * 10#32 + ((fmt pos).setWidth 32 - (byte '0').setWidth 32))
    else some (pos, width)

/-- The text of `uart_puts("(null)")`. -/
def nullText : List Byte := [byte '(', byte 'n', byte 'u', byte 'l', byte 'l', byte ')']

section Format

variable (mem : Word → Byte) (args : Nat → Word)

/-- The `switch` of `printf` on the character `c`: what is put out, and the next argument. -/
def convert (n : Nat) (c : Byte) (width : BitVec 32) (pad : Byte) (arg : Nat) : Option (List Byte × Nat) :=
  if c = byte 'd' then
    let num := args arg
    some (if num.toInt < 0 then byte '-' :: printNum (-num) 10#64 width pad
      else printNum num 10#64 width pad, arg + 1)
  else if c = byte 'u' then some (printNum (args arg) 10#64 width pad, arg + 1)
  else if c = byte 'x' then some (printNum (args arg) 16#64 width pad, arg + 1)
  else if c = byte 'p' then
    some ([byte '0', byte 'x'] ++ printNum (args arg) 16#64 16#32 (byte '0'), arg + 1)
  else if c = byte 's' then
    let s := args arg
    (if s ≠ 0#64 then uartPuts mem n s else some nullText).map fun out => (out, arg + 1)
  else if c = byte 'c' then some ([(args arg).setWidth 8], arg + 1)
  else if c = byte '%' then some ([byte '%'], arg)
  else some ([byte '%', c], arg)

/-- The loop of `printf` from the byte `pos` of the format and the argument `arg` on. -/
def printfLoop (fmt : Nat → Byte) : Nat → Nat → Nat → Option (List Byte)
  | 0, _, _ => none
  | n+1, pos, arg =>
    if fmt pos = 0#8 then some []
    else if fmt pos = byte '%' then
      let flag := fmt (pos + 1) == byte '0'
      (parseWidth fmt n (if flag then pos + 2 else pos + 1) 0#32).bind fun w =>
        (convert mem args n (fmt w.1) w.2 (if flag then byte '0' else byte ' ') arg).bind fun r =>
          (printfLoop fmt n (w.1 + 1) r.2).map (r.1 ++ ·)
    else (printfLoop fmt n (pos + 1) arg).map (putText (fmt pos) ++ ·)

def printf (fmt : Nat → Byte) (fuel : Nat) : Option (List Byte) := printfLoop mem args fmt fuel 0 0

end Format

/-- The conversions that the kernel uses. -/
inductive Conv where
  | d | u | x | p | s | c | lu | percent
  deriving DecidableEq

/-- A piece of a format. -/
inductive Item where
  | lit (c : Byte) (hzero : c ≠ 0#8) (hpercent : c ≠ byte '%')
  | conv (k : Conv)

def Conv.letters : Conv → List Byte
  | .d => [byte 'd'] | .u => [byte 'u'] | .x => [byte 'x'] | .p => [byte 'p'] | .s => [byte 's']
  | .c => [byte 'c'] | .lu => [byte 'l', byte 'u'] | .percent => [byte '%']

def Item.bytes : Item → List Byte
  | .lit c _ _ => [c]
  | .conv k => byte '%' :: k.letters

/-- How many arguments an item takes. -/
def Item.takes : Item → Nat
  | .lit _ _ _ => 0
  | .conv k => if k = .percent then 0 else 1

def decimal (n : Nat) : List Byte := (Nat.toDigits 10 n).map byte

def hex (n : Nat) : List Byte := (Nat.toDigits 16 n).map byte

/-- The text that a conversion stands for; `str` gives the string at an address. -/
def Conv.render (str : Word → List Byte) (w : Word) : Conv → List Byte
  | .d => if w.toInt < 0 then byte '-' :: decimal w.toInt.natAbs else decimal w.toInt.natAbs
  | .u | .lu => decimal w.toNat
  | .x => hex w.toNat
  | .p => [byte '0', byte 'x'] ++ List.replicate (16 - (hex w.toNat).length) (byte '0') ++ hex w.toNat
  | .s => (if w = 0#64 then nullText else str w).flatMap putText
  | .c => [w.setWidth 8]
  | .percent => [byte '%']

def Item.render (str : Word → List Byte) (args : Nat → Word) (arg : Nat) : Item → List Byte
  | .lit c _ _ => putText c
  | .conv k => k.render str (args arg)

/-- The text of a format whose items take the arguments from `arg` on, one after the other. -/
def rendered (str : Word → List Byte) (args : Nat → Word) : List Item → Nat → List Byte
  | [], _ => []
  | i :: is, arg => i.render str args arg ++ rendered str args is (arg + i.takes)

/-- Each argument that a `%s` takes is a null pointer or points to its string. -/
def Strings (mem : Word → Byte) (str : Word → List Byte) (args : Nat → Word) : List Item → Nat → Prop
  | [], _ => True
  | i :: is, arg =>
    (i = .conv .s → args arg ≠ 0#64 → Spells (fun j => mem (args arg + BitVec.ofNat 64 j)) (str (args arg))) ∧
      Strings mem str args is (arg + i.takes)

section Numbers

variable {base num : Word}

theorem digitChars_get {d : Nat} (hd : d < 16) : digitChars.getD d 0#8 = byte (Nat.digitChar d) := by
  have hall : ∀ d : Fin 16, digitChars.getD d.val 0#8 = byte (Nat.digitChar d.val) := by decide
  exact hall ⟨d, hd⟩

/-- Each division takes at least one bit off. -/
theorem div_lt (hbase : 1 < base.toNat) {n : Nat} (hn : num.toNat < 2^(n+1)) : (num / base).toNat < 2^n := by
  rw [BitVec.toNat_udiv]
  refine Nat.div_lt_of_lt_mul (Nat.lt_of_lt_of_le hn ?_)
  rw [pow_succ, mul_comm]
  exact Nat.mul_le_mul_right _ hbase

/-- The loop gives the digits in reverse. -/
theorem digitLoop_eq (hbase : 1 < base.toNat) (hle : base.toNat ≤ 16) {n : Nat} (hn : num.toNat < 2^n)
    (hne : num ≠ 0#64) : (digitLoop base n num).reverse = (Nat.toDigits base.toNat num.toNat).map byte := by
  induction n generalizing num with
  | zero =>
    exact absurd (BitVec.eq_of_toNat_eq (by simpa using hn)) hne
  | succ n ih =>
    have hmod : (num % base).toNat = num.toNat % base.toNat := BitVec.toNat_umod
    have hdiv : (num / base).toNat = num.toNat / base.toNat := BitVec.toNat_udiv
    have hdigit := Nat.mod_lt num.toNat (by omega : 0 < base.toNat)
    rw [digitLoop, if_neg hne, List.reverse_cons, hmod, digitChars_get (by omega), Nat.toDigits_eq_if hbase]
    split
    · next hlt =>
      have hz : num / base = 0#64 := by
        apply BitVec.eq_of_toNat_eq
        rw [hdiv, Nat.div_eq_of_lt hlt]
        rfl
      have hnil : digitLoop base n (num / base) = [] := by
        cases n with
        | zero => rfl
        | succ n => rw [digitLoop, if_pos hz]
      rw [hnil, Nat.mod_eq_of_lt hlt]
      rfl
    · next hge =>
      have hpos : 0 < num.toNat / base.toNat := Nat.div_pos (by omega) (by omega)
      have hz : num / base ≠ 0#64 := by
        intro hz
        rw [hz] at hdiv
        simp at hdiv
        omega
      rw [ih (div_lt hbase hn) hz, hdiv, List.map_append]
      rfl

theorem printNum_eq (hbase : 1 < base.toNat) (hle : base.toNat ≤ 16) (width : BitVec 32) (pad : Byte) :
    printNum num base width pad = List.replicate
        (width.toInt.toNat - (Nat.toDigits base.toNat num.toNat).length) pad ++
      (Nat.toDigits base.toNat num.toNat).map byte := by
  have hbuf : (if num = 0#64 then [byte '0'] else digitLoop base 64 num).reverse =
      (Nat.toDigits base.toNat num.toNat).map byte := by
    split
    · next hz =>
      rw [hz]
      simp [Nat.toDigits_zero]
    · next hne => exact digitLoop_eq hbase hle num.isLt hne
  have hlen := congrArg List.length hbuf
  rw [List.length_reverse, List.length_map] at hlen
  simp only [printNum, numBuffer, List.reverse_append, List.reverse_replicate, hbuf, hlen]

theorem printNum_decimal (w : Word) (pad : Byte) : printNum w 10#64 0#32 pad = decimal w.toNat := by
  rw [printNum_eq (by decide) (by decide)]
  simp [decimal]

theorem printNum_hex (w : Word) (pad : Byte) : printNum w 16#64 0#32 pad = hex w.toNat := by
  rw [printNum_eq (by decide) (by decide)]
  simp [hex]

end Numbers

section Steps

variable {mem : Word → Byte} {str : Word → List Byte} {args : Nat → Word} {fmt : Nat → Byte}
  {pos arg : Nat} {c : Byte} {cs : List Byte}

/-- The loop of `uart_puts` needs one round for each character and one for the terminator. -/
theorem uartPuts_eq {t : List Byte} {s : Word} (h : Spells (fun j => mem (s + BitVec.ofNat 64 j)) t) (n : Nat) :
    uartPuts mem n s = if t.length < n then some (t.flatMap putText) else none := by
  induction n generalizing s t with
  | zero => rfl
  | succ n ih =>
    have hz : s + BitVec.ofNat 64 0 = s := BitVec.add_zero s
    cases t with
    | nil =>
      have hend : mem s = 0#8 := by rw [← hz]; exact h
      rw [uartPuts, if_pos hend, if_pos (by simp)]
      rfl
    | cons c cs =>
      have hc : mem s = c := by rw [← hz]; exact h.1
      have hshift : (fun j => mem (s + BitVec.ofNat 64 (j + 1))) = fun j => mem (s + 1#64 + BitVec.ofNat 64 j) := by
        funext j
        rw [BitVec.ofNat_add, BitVec.add_comm (BitVec.ofNat 64 j), BitVec.add_assoc]
      rw [uartPuts, hc, if_neg h.2.1, ih (hshift ▸ h.2.2)]
      simp only [List.length_cons, Nat.add_lt_add_iff_right, List.flatMap_cons]
      split <;> rfl

theorem toNat_natAbs (w : Word) :
    (if w.toInt < 0 then (-w).toNat else w.toNat) = w.toInt.natAbs := by
  have hw := w.isLt
  rw [BitVec.toInt_eq_toNat_cond, BitVec.toNat_neg]
  split <;> split <;> omega

section Letters

variable (mem : Word → Byte) (args : Nat → Word) (n : Nat) (width : BitVec 32) (pad : Byte) (arg : Nat)

theorem convert_d : convert mem args n (byte 'd') width pad arg =
    some (if (args arg).toInt < 0 then byte '-' :: printNum (-args arg) 10#64 width pad
      else printNum (args arg) 10#64 width pad, arg + 1) := rfl

theorem convert_u : convert mem args n (byte 'u') width pad arg =
    some (printNum (args arg) 10#64 width pad, arg + 1) := rfl

theorem convert_x : convert mem args n (byte 'x') width pad arg =
    some (printNum (args arg) 16#64 width pad, arg + 1) := rfl

theorem convert_p : convert mem args n (byte 'p') width pad arg =
    some ([byte '0', byte 'x'] ++ printNum (args arg) 16#64 16#32 (byte '0'), arg + 1) := rfl

theorem convert_s : convert mem args n (byte 's') width pad arg =
    (if args arg ≠ 0#64 then uartPuts mem n (args arg) else some nullText).map fun out => (out, arg + 1) := rfl

theorem convert_c : convert mem args n (byte 'c') width pad arg = some ([(args arg).setWidth 8], arg + 1) := rfl

theorem convert_percent : convert mem args n (byte '%') width pad arg = some ([byte '%'], arg) := rfl

end Letters

/-- A conversion that the `switch` knows puts out its argument and goes on to the next one. -/
theorem convert_plain {k : Conv} (hs : k ≠ .s) (hk : k ≠ .lu) (n : Nat) :
    convert mem args n (k.letters.headD 0#8) 0#32 (byte ' ') arg =
      some (k.render str (args arg), arg + (Item.conv k).takes) := by
  cases k with
  | d =>
    have habs := toNat_natAbs (args arg)
    simp only [Conv.letters, List.headD_cons, Conv.render, convert_d, printNum_decimal]
    rw [← habs]
    split <;> rfl
  | u =>
    simp only [Conv.letters, List.headD_cons, convert_u, printNum_decimal]
    rfl
  | x =>
    simp only [Conv.letters, List.headD_cons, convert_x, printNum_hex]
    rfl
  | p =>
    have hlen : (hex (args arg).toNat).length = (Nat.toDigits 16 (args arg).toNat).length := List.length_map ..
    simp only [Conv.letters, List.headD_cons, Conv.render, convert_p, List.append_assoc, hlen]
    rw [printNum_eq (by decide) (by decide)]
    rfl
  | s => exact absurd rfl hs
  | c => exact convert_c ..
  | lu => exact absurd rfl hk
  | percent => exact convert_percent ..

/-- `%s` reads its string in as many steps as it has bytes, with the null byte at its end. -/
theorem convert_string (hstr : args arg ≠ 0#64 →
      Spells (fun j => mem (args arg + BitVec.ofNat 64 j)) (str (args arg))) :
    ∃ need, ∀ n, convert mem args n (Conv.s.letters.headD 0#8) 0#32 (byte ' ') arg =
      if need ≤ n then some (Conv.s.render str (args arg), arg + (Item.conv .s).takes) else none := by
  by_cases hz : args arg = 0#64
  · refine ⟨0, fun n => ?_⟩
    have hnull : nullText.flatMap putText = nullText := by decide
    simp only [Conv.letters, List.headD_cons, Conv.render, convert_s, hz, hnull, if_true]
    rw [if_pos (Nat.zero_le n)]
    rfl
  · refine ⟨(str (args arg)).length + 1, fun n => ?_⟩
    simp only [Conv.letters, List.headD_cons, Conv.render, convert_s, uartPuts_eq (hstr hz) n]
    rw [if_pos hz, if_neg hz]
    split
    · next hn =>
      rw [if_pos (Nat.succ_le_of_lt hn)]
      rfl
    · next hn =>
      rw [if_neg (fun hle => hn (Nat.lt_of_succ_le hle))]
      rfl

theorem convert_known {k : Conv} (hk : k ≠ .lu) (hstr : k = .s → args arg ≠ 0#64 →
      Spells (fun j => mem (args arg + BitVec.ofNat 64 j)) (str (args arg))) :
    ∃ need, ∀ n, convert mem args n (k.letters.headD 0#8) 0#32 (byte ' ') arg =
      if need ≤ n then some (k.render str (args arg), arg + (Item.conv k).takes) else none := by
  by_cases hs : k = .s
  · subst hs
    exact convert_string (hstr rfl)
  · refine ⟨0, fun n => ?_⟩
    rw [convert_plain hs hk, if_pos (Nat.zero_le n)]

/-- What the loop does at a `%` without a width. -/
theorem printfLoop_percent (h0 : fmt pos = byte '%') (h1 : fmt (pos + 1) = c) (hc : isDigit c = false) (n : Nat) :
    printfLoop mem args fmt (n+1) pos arg = if 1 ≤ n then
      (convert mem args n c 0#32 (byte ' ') arg).bind fun r =>
        (printfLoop mem args fmt n (pos + 2) r.2).map (r.1 ++ ·) else none := by
  have hflag : (fmt (pos + 1) == byte '0') = false := by
    rw [h1, beq_eq_false_iff_ne]
    rintro rfl
    exact absurd hc (by decide)
  rw [printfLoop, if_neg (by rw [h0]; decide), if_pos h0, hflag]
  cases n with
  | zero => rfl
  | succ n =>
    have hwidth : parseWidth fmt (n+1) (pos + 1) 0#32 = some (pos + 1, 0#32) := by
      rw [parseWidth, h1, hc]
      rfl
    simp only [Bool.false_eq_true, if_false, hwidth, Option.bind_some, h1]
    rw [if_pos (Nat.le_add_left 1 n)]

theorem letters_head {k : Conv} (hk : k ≠ .lu) :
    k.letters = [k.letters.headD 0#8] ∧ isDigit (k.letters.headD 0#8) = false := by
  cases k <;> first | exact ⟨rfl, by decide⟩ | exact absurd rfl hk

/-- Any item but `%lu` is rendered from its own argument, once there are rounds enough. -/
theorem step_item {i : Item} (hi : i ≠ .conv .lu) (hfmt : Spells (fun j => fmt (pos + j)) (i.bytes ++ cs))
    (hstr : i = .conv .s → args arg ≠ 0#64 →
      Spells (fun j => mem (args arg + BitVec.ofNat 64 j)) (str (args arg))) :
    Spells (fun j => fmt (pos + i.bytes.length + j)) cs ∧
    ∃ need, ∀ n, printfLoop mem args fmt (n+1) pos arg = if need ≤ n then
      (printfLoop mem args fmt n (pos + i.bytes.length) (arg + i.takes)).map (i.render str args arg ++ ·)
      else none := by
  cases i with
  | lit c hzero hpercent =>
    obtain ⟨hc, _, hrest⟩ := hfmt.next
    refine ⟨hrest, 0, fun n => ?_⟩
    rw [printfLoop, hc, if_neg hzero, if_neg hpercent, if_pos (Nat.zero_le n)]
    rfl
  | conv k =>
    have hk : k ≠ .lu := fun he => hi (congrArg Item.conv he)
    obtain ⟨hone, hdigit⟩ := letters_head hk
    have hbytes : (Item.conv k).bytes = [byte '%', k.letters.headD 0#8] := congrArg (List.cons (byte '%')) hone
    rw [hbytes] at hfmt ⊢
    obtain ⟨h0, _, hnext⟩ := hfmt.next
    obtain ⟨h1, _, hrest⟩ := hnext.next
    obtain ⟨need, hneed⟩ := convert_known hk (fun he => hstr (congrArg Item.conv he))
    refine ⟨hrest, max 1 need, fun n => ?_⟩
    rw [printfLoop_percent h0 h1 hdigit, hneed]
    by_cases hn : 1 ≤ n ∧ need ≤ n
    · rw [if_pos hn.1, if_pos hn.2, if_pos (Nat.max_le.mpr hn)]
      rfl
    · rw [if_neg (fun hle => hn (Nat.max_le.mp hle))]
      by_cases h1n : 1 ≤ n
      · rw [if_pos h1n, if_neg (fun hle => hn ⟨h1n, hle⟩)]
        rfl
      · rw [if_neg h1n]

/-- A `%lu` is put out as it stands and takes no argument. -/
theorem step_lu (hfmt : Spells (fun j => fmt (pos + j)) ((Item.conv .lu).bytes ++ cs)) (n : Nat) {out : List Byte}
    (h : printfLoop mem args fmt n pos arg = some out) : ∃ rest, out = byte '%' :: rest := by
  obtain ⟨h0, _, hnext⟩ := hfmt.next
  obtain ⟨h1, _, _⟩ := hnext.next
  cases n with
  | zero => cases h
  | succ n =>
    rw [printfLoop_percent h0 h1 (by decide)] at h
    split at h
    · have hconvert : convert mem args n (byte 'l') 0#32 (byte ' ') arg = some ([byte '%', byte 'l'], arg) := rfl
      rw [hconvert, Option.bind_some, Option.map_eq_some_iff] at h
      obtain ⟨rest, _, rfl⟩ := h
      exact ⟨byte 'l' :: rest, rfl⟩
    · cases h

end Steps

section Formats

variable {mem : Word → Byte} {str : Word → List Byte} {args : Nat → Word} {fmt : Nat → Byte}
  {items : List Item} {pos arg : Nat}

/-- A format without `%lu` is rendered as it should be. -/
theorem printfLoop_render (hlu : .conv .lu ∉ items)
    (hfmt : Spells (fun j => fmt (pos + j)) (items.flatMap Item.bytes)) (hstr : Strings mem str args items arg) :
    ∃ n, ∀ fuel ≥ n, printfLoop mem args fmt fuel pos arg = some (rendered str args items arg) := by
  induction items generalizing pos arg with
  | nil =>
    refine ⟨1, fun fuel hfuel => ?_⟩
    obtain ⟨n, rfl⟩ := Nat.exists_eq_add_of_le' hfuel
    rw [printfLoop, if_pos (show fmt pos = 0#8 from hfmt)]
    rfl
  | cons i is ih =>
    rw [List.mem_cons, not_or] at hlu
    rw [List.flatMap_cons] at hfmt
    obtain ⟨hrest, need, hneed⟩ := step_item (Ne.symm hlu.1) hfmt hstr.1
    obtain ⟨n, hn⟩ := ih hlu.2 hrest hstr.2
    refine ⟨max n need + 1, fun fuel hfuel => ?_⟩
    obtain ⟨m, rfl⟩ := Nat.exists_eq_add_of_le' (Nat.le_trans (Nat.le_add_left 1 _) hfuel)
    have hm := Nat.max_le.mp (Nat.le_of_succ_le_succ hfuel)
    rw [hneed, if_pos hm.2, hn m hm.1]
    rfl

theorem byte_digit_ne {d : Char} (hd : d.isDigit = true) : byte d ≠ byte '%' := by
  intro he
  have hn := congrArg BitVec.toNat he
  simp only [Char.isDigit, Bool.and_eq_true, decide_eq_true_eq, ge_iff_le, UInt32.le_iff_toNat_le] at hd
  simp only [byte, BitVec.toNat_ofNat] at hn
  have hlow : 48 ≤ d.toNat := hd.1
  have hhigh : d.toNat ≤ 57 := hd.2
  have hpercent : '%'.toNat = 37 := rfl
  omega

/-- A decimal number does not start with a `%`. -/
theorem decimal_ne (n : Nat) (xs ys : List Byte) : decimal n ++ xs ≠ byte '%' :: ys := by
  intro he
  cases hd : Nat.toDigits 10 n with
  | nil => exact Nat.toDigits_ne_nil hd
  | cons d ds =>
    have hdigit : d.isDigit = true :=
      Nat.isDigit_of_mem_toDigits (by decide) (Nat.le_refl 10) (hd ▸ List.mem_cons_self)
    rw [decimal, hd] at he
    exact byte_digit_ne hdigit (List.cons.inj he).1

/-- A format with a `%lu` is not. -/
theorem printfLoop_lu (hlu : .conv .lu ∈ items)
    (hfmt : Spells (fun j => fmt (pos + j)) (items.flatMap Item.bytes)) (hstr : Strings mem str args items arg)
    (fuel : Nat) : printfLoop mem args fmt fuel pos arg ≠ some (rendered str args items arg) := by
  induction items generalizing pos arg fuel with
  | nil => cases hlu
  | cons i is ih =>
    rw [List.flatMap_cons] at hfmt
    intro h
    by_cases hi : i = .conv .lu
    · rw [hi] at h hfmt
      obtain ⟨rest, hrest⟩ := step_lu hfmt fuel h
      exact decimal_ne _ _ _ hrest
    · obtain ⟨hrest, need, hneed⟩ := step_item hi hfmt hstr.1
      cases fuel with
      | zero => cases h
      | succ n =>
        rw [hneed] at h
        split at h
        · rw [Option.map_eq_some_iff] at h
          obtain ⟨out, hout, happend⟩ := h
          refine ih ((List.mem_cons.mp hlu).resolve_left (Ne.symm hi)) hrest hstr.2 n ?_
          rw [hout, List.append_cancel_left happend]
        · cases h

/-- `printf` renders a format as it should exactly when there is no `%lu` in it. -/
theorem printf_aligned_iff (mem : Word → Byte) (str : Word → List Byte) (args : Nat → Word) (fmt : Nat → Byte)
    (items : List Item) (hfmt : Spells fmt (items.flatMap Item.bytes)) (hstr : Strings mem str args items 0) :
    (∃ n, ∀ fuel ≥ n, printf mem args fmt fuel = some (rendered str args items 0)) ↔ .conv .lu ∉ items := by
  have hstart : Spells (fun j => fmt (0 + j)) (items.flatMap Item.bytes) := by simpa only [Nat.zero_add] using hfmt
  constructor
  · rintro ⟨n, hn⟩ hlu
    exact printfLoop_lu hlu hstart hstr n (hn n (Nat.le_refl n))
  · intro hlu
    exact printfLoop_render hlu hstart hstr

/-- A space between two conversions. -/
def blank : Item := .lit (byte ' ') (by decide) (by decide)

/-- A negative number, a string with a newline, and an address. -/
theorem printf_aligned_iff_three :
    let items := [.conv .d, blank, .conv .s, .conv .p]
    let text := [byte 'h', byte 'i', byte '\n']
    let mem (a : Word) : Byte := cstring text (a - 0x1000#64).toNat
    let args (k : Nat) : Word := if k = 0 then -5#64 else if k = 1 then 0x1000#64 else 255#64
    let out := rendered (fun _ => text) args items 0
    out = "-5 hi\r\n0x00000000000000ff".toList.map byte ∧
      ∃ n, ∀ fuel ≥ n, printf mem args (cstring (items.flatMap Item.bytes)) fuel = some out := by
  intro items text mem args out
  refine ⟨by decide +kernel, ?_⟩
  refine (printf_aligned_iff mem (fun _ => text) args _ items (cstring_spells (by decide)) ?_).mpr ?_
  · refine ⟨fun he => absurd he (by simp), fun he => absurd he (by simp [blank]), fun _ _ => ?_,
      fun he => absurd he (by simp), trivial⟩
    exact ⟨by decide +kernel, by decide, by decide +kernel, by decide, by decide +kernel, by decide,
      show _ = 0#8 by decide +kernel⟩
  · simp [items, blank]

/-- The `%lu` takes no argument, and the `%d` after it takes the wrong one. -/
theorem printf_lu_misaligned :
    let items := [.conv .lu, blank, .conv .d]
    let args (k : Nat) : Word := if k = 0 then 7#64 else 9#64
    let out := rendered (fun _ => []) args items 0
    out = "7 9".toList.map byte ∧
      printf (fun _ => 0#8) args (cstring (items.flatMap Item.bytes)) 8 = some ("%lu 7".toList.map byte) ∧
      ∀ fuel, printf (fun _ => 0#8) args (cstring (items.flatMap Item.bytes)) fuel ≠ some out := by
  intro items args out
  refine ⟨by decide +kernel, by decide +kernel, ?_⟩
  refine printfLoop_lu List.mem_cons_self ?_ ?_
  · simp only [Nat.zero_add]
    exact cstring_spells (by decide)
  · exact ⟨fun he => absurd he (by simp), fun he => absurd he (by simp [blank]), fun he => absurd he (by simp), trivial⟩

end Formats

end RiscvOs.Printf
