import RiscvOs.Printf
import RiscvOs.Runs
set_option autoImplicit false

/-!
The console: what arrives at the UART of `drivers/uart/uart.c` and what the kernel puts out. A
text of `printf` is kept as its format with the arguments.
-/

namespace RiscvOs.Uart
open WordMemory CStrings Runs

/-- An argument of `printf`: a number, or a string by its bytes. -/
inductive Arg where
  | num (w : Word)
  | str (s : Nat → Byte)

inductive Output where
  | putc (c : Byte)
  | printf (fmt : String) (args : List Arg)

/-- `taken` counts the characters that `uart_getc` has returned. -/
structure Console where
  taken : Nat
  out : List Output

def Console.uartPutc (c : Byte) (s : Console) : Console := { s with out := s.out ++ [.putc c] }

def Console.printf (fmt : String) (args : List Arg) (s : Console) : Console :=
  { s with out := s.out ++ [.printf fmt args] }

/-- `uart_getc` waits for the next of the characters that are typed. -/
def Console.uartGetc (typed : Nat → Byte) (s : Console) : Byte × Console :=
  (typed s.taken, { s with taken := s.taken + 1 })

/-- A number of 32 bits as an argument; it is widened with its sign to the slot it is passed in. -/
def num32 (v : BitVec 32) : Arg := .num (v.signExtend 64)

/-- The characters that were put out one by one, without the texts of `printf`. -/
def Output.char : Output → List Byte
  | .putc c => [c]
  | .printf _ _ => []

def Console.chars (s : Console) : List Byte := s.out.flatMap Output.char

end RiscvOs.Uart
