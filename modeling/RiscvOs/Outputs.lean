import RiscvOs.Uart
import RiscvOs.FormatWidths
set_option autoImplicit false

/-!
The outputs of the kernel as texts. Where each conversion of a format meets an argument of its kind,
`printf` puts out a text that only its arguments decide: it reads no argument behind them, no byte
behind the format and, of the memory, only its strings.
-/

namespace RiscvOs.Uart
open WordMemory CStrings Printf

/-- The kind of argument that a conversion takes, if it takes one: `true` for a string. -/
def takes (c : Byte) : Option Bool :=
  if c = byte 's' then some true
  else if c = byte 'd' ∨ c = byte 'u' ∨ c = byte 'x' ∨ c = byte 'p' ∨ c = byte 'c' then some false
  else none

/-- The kinds of the arguments behind the conversion, if it meets one that it takes. -/
def takeKind (c : Byte) (kinds : List Bool) : Option (List Bool) :=
  match takes c with
  | none => some kinds
  | some kind =>
    match kinds with
    | [] => none
    | k :: kinds => if kind = k then some kinds else none

/-- The conversions of a format have no width and meet arguments of their kinds; `inside` tells that
a `%` is just behind. -/
def kindsOk : Bool → List Byte → List Bool → Bool
  | inside, [], _ => !inside
  | false, c :: cs, kinds => kindsOk (c == byte '%') cs kinds
  | true, c :: cs, kinds => !isDigit c && (takeKind c kinds).elim false fun rest => kindsOk false cs rest

def Arg.isStr : Arg → Bool
  | .num _ => false
  | .str _ => true

/-- The slots from `arg` on hold the arguments, and memory their strings. -/
def Passed (mem : Word → Byte) (slots : Nat → Word) : Nat → List Arg → Prop
  | _, [] => True
  | arg, .num w :: args => slots arg = w ∧ Passed mem slots (arg + 1) args
  | arg, .str s :: args =>
    (slots arg ≠ 0#64 ∧ ∀ t, Spells s t → Spells (fun j => mem (slots arg + BitVec.ofNat 64 j)) t) ∧
      Passed mem slots (arg + 1) args

/-- The conversions meet their arguments, and the strings among these have terminators. -/
def Output.Fits : Output → Prop
  | .putc _ => True
  | .printf fmt args =>
    kindsOk false (fmt.toList.map byte) (args.map Arg.isStr) = true ∧ ∀ s, .str s ∈ args → ∃ i, s i = 0#8

/-- The output is this text, wherever its strings lie, and the numbers in it stay within `buf`. -/
def Output.Prints : Output → List Byte → Prop
  | .putc c, out => out = [c]
  | .printf fmt args, out => ∃ n, ∀ mem slots f, Spells f (fmt.toList.map byte) → Passed mem slots 0 args →
      (∀ fuel ≥ n, Printf.printf mem slots f fuel = some out) ∧ ((∃ a, mem a = 0#8) → BufSafe mem slots f)

section Conversions

variable {c : Byte}

end Conversions

section Formats

variable {args : List Arg} {inside : Bool} {kinds : List Bool} {c : Byte} {fmt : List Byte}

end Formats

section Placing

variable {args : List Arg}

/-- Memory with the string of the `i`th argument 4 GiB behind that of the one before. -/
def placedMem (args : List Arg) (a : Word) : Byte :=
  match args[a.toNat / 2^32 - 1]? with
  | some (Arg.str s) => s (a.toNat % 2^32)
  | _ => 0#8

def placedSlots (args : List Arg) (i : Nat) : Word :=
  match args[i]? with
  | some (Arg.num w) => w
  | _ => BitVec.ofNat 64 ((i + 1) * 2^32)

theorem spells_congr {a b : Nat → Byte} {t : List Byte} (h : Spells a t) (hb : ∀ j ≤ t.length, b j = a j) :
    Spells b t := by
  induction t generalizing a b with
  | nil => exact (hb 0 (Nat.le_refl 0)).trans h
  | cons c cs ih =>
    exact ⟨(hb 0 (Nat.zero_le _)).trans h.1, h.2.1, ih h.2.2 fun j hj => hb (j + 1) (Nat.succ_le_succ hj)⟩

theorem placed_passed (hlen : args.length < 2^31) (hstr : ∀ s t, .str s ∈ args → Spells s t → t.length < 2^32)
    {k : Nat} {rest : List Arg} (hrest : args.drop k = rest) : Passed (placedMem args) (placedSlots args) k rest := by
  induction rest generalizing k with
  | nil => trivial
  | cons a rest ih =>
    have hget : args[k]? = some a := by
      rw [← List.head?_drop, hrest]
      rfl
    have hnext := ih (k := k + 1) (by rw [← List.tail_drop, hrest]; rfl)
    have hk : k < args.length := (List.getElem?_eq_some_iff.mp hget).1
    cases a with
    | num w => exact ⟨by rw [placedSlots, hget], hnext⟩
    | str s =>
      have hslot : placedSlots args k = BitVec.ofNat 64 ((k + 1) * 2^32) := by rw [placedSlots, hget]
      have hnat : (placedSlots args k).toNat = (k + 1) * 2^32 := by
        rw [hslot, BitVec.toNat_ofNat]
        omega
      refine ⟨⟨fun hzero => ?_, fun t ht => spells_congr ht fun j hj => ?_⟩, hnext⟩
      · rw [hzero, BitVec.toNat_zero] at hnat
        omega
      · have hshort := hstr s t (List.mem_of_getElem? hget) ht
        have haddr : (placedSlots args k + BitVec.ofNat 64 j).toNat = (k + 1) * 2^32 + j := by
          rw [BitVec.toNat_add, hnat, BitVec.toNat_ofNat]
          omega
        have hindex : ((k + 1) * 2^32 + j) / 2^32 - 1 = k := by omega
        have hoffset : ((k + 1) * 2^32 + j) % 2^32 = j := by omega
        rw [placedMem, haddr, hindex, hget, hoffset]

/-- Any arguments with strings of less than 4 GiB can be passed. -/
theorem exists_passed (hlen : args.length < 2^31)
    (hstr : ∀ s t, .str s ∈ args → Spells s t → t.length < 2^32) : ∃ mem slots, Passed mem slots 0 args :=
  ⟨_, _, placed_passed hlen hstr List.drop_zero⟩

/-- The text of an output is the only one. -/
theorem Output.Prints.unique {fmt : String} {x y : List Byte} (hx : (Output.printf fmt args).Prints x)
    (hy : (Output.printf fmt args).Prints y) (hfmt : 0#8 ∉ fmt.toList.map byte) (hlen : args.length < 2^31)
    (hstr : ∀ s t, .str s ∈ args → Spells s t → t.length < 2^32) : x = y := by
  obtain ⟨mem, slots, hpassed⟩ := exists_passed hlen hstr
  obtain ⟨n, hx⟩ := hx
  obtain ⟨m, hy⟩ := hy
  have hf := cstring_spells hfmt
  have hout := (hx mem slots _ hf hpassed).1 (max n m) (Nat.le_max_left n m)
  exact Option.some.inj (hout.symm.trans ((hy mem slots _ hf hpassed).1 _ (Nat.le_max_right n m)))

end Placing

end RiscvOs.Uart
