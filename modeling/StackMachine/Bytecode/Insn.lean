import StackMachine.Bytecode.Opcode
import StackMachine.Value

/-!
# Instructions

An instruction is an opcode with its decoded operand.  `encode` gives its words and `decode` reads the instruction
that starts at a position of a stream.

* A local is named by its distance below the end of the argument list, from 1 for the last argument.
* A jump offset counts words from the start of the next instruction.
* The operand of `send` is an index into the method's table of call sites.
-/

namespace StackMachine

inductive Insn where
  | nop
  | getLocal (idx : UInt64)
  | setLocal (idx : UInt64)
  | putNil
  | putSelf
  | putObject (value : Value)
  | putZero
  | putOne
  | dup
  | pop
  | plus
  | minus
  | mult
  | less
  | jump (offset : Int64)
  | branchIf (offset : Int64)
  | send (site : UInt64)
  | leave
deriving DecidableEq, Repr

namespace Insn

def opcode : Insn → Opcode
  | nop => .nop | getLocal _ => .getLocal | setLocal _ => .setLocal | putNil => .putNil
  | putSelf => .putSelf | putObject _ => .putObject | putZero => .putZero | putOne => .putOne
  | dup => .dup | pop => .pop | plus => .plus | minus => .minus | mult => .mult | less => .less
  | jump _ => .jump | branchIf _ => .branchIf | send _ => .send | leave => .leave

def operand? : Insn → Option UInt64
  | getLocal idx | setLocal idx => some idx
  | putObject value => some value.raw
  | jump offset | branchIf offset => some offset.toUInt64
  | send site => some site
  | _ => none

/-- The instruction of an opcode; an opcode without operand ignores the word. -/
def ofOpcode (op : Opcode) (w : UInt64) : Insn :=
  match op with
  | .nop => nop | .getLocal => getLocal w | .setLocal => setLocal w | .putNil => putNil
  | .putSelf => putSelf | .putObject => putObject ⟨w⟩ | .putZero => putZero | .putOne => putOne
  | .dup => dup | .pop => pop | .plus => plus | .minus => minus | .mult => mult | .less => less
  | .jump => jump w.toInt64 | .branchIf => branchIf w.toInt64 | .send => send w | .leave => leave

def size (i : Insn) : Nat := i.opcode.size

def encode (i : Insn) : List UInt64 := i.opcode.word :: i.operand?.toList

/-! ### Text -/

def text : Insn → String
  | putObject value => "putobject " ++ value.text
  | send site => "send_without_block <calldata:" ++ Decimal.ofNat site.toNat ++ ">"
  | getLocal idx => "getlocal " ++ Decimal.ofNat idx.toNat
  | setLocal idx => "setlocal " ++ Decimal.ofNat idx.toNat
  | jump offset => "jump " ++ Decimal.ofInt offset.toInt
  | branchIf offset => "branchif " ++ Decimal.ofInt offset.toInt
  | i => i.opcode.name

/-- The form used in diagnostics, which names the operand. -/
def inspect (i : Insn) : String :=
  let labelled (label operand : String) := i.opcode.inspect ++ " \x7b " ++ label ++ ": " ++ operand ++ " \x7d"
  match i with
  | getLocal idx | setLocal idx => labelled "idx" (Decimal.ofNat idx.toNat)
  | putObject value => i.opcode.inspect ++ "(" ++ value.inspect ++ ")"
  | jump offset | branchIf offset => labelled "offset" (Decimal.ofInt offset.toInt)
  | send site => labelled "call_data" (Decimal.ofNat site.toNat)
  | _ => i.opcode.inspect

/-! ### Decoding -/

/-- Why no instruction starts at `pc`.  A stream that ends before the opcode word is truncated there, without an
opcode to name. -/
inductive DecodeError where
  | unknownOpcode (pc : Nat) (word : UInt64)
  | truncated (pc : Nat) (op : Option Opcode) (available : Nat)
deriving DecidableEq, Repr

def DecodeError.message : DecodeError → String
  | .unknownOpcode pc word => "unknown opcode " ++ Hex.ofWord word ++ " at pc " ++ Decimal.ofNat pc
  | .truncated pc op available =>
    let name := (op.map Opcode.name).getD "<opcode>"
    let size := (op.map Opcode.size).getD 1
    "truncated `" ++ name ++ "` at pc " ++ Decimal.ofNat pc ++ ": needs " ++ Decimal.ofNat size ++ " words, "
      ++ Decimal.ofNat available ++ " left"

def decode (code : Array UInt64) (pc : Nat) : Except DecodeError Insn :=
  match code[pc]? with
  | none => .error (.truncated pc none 0)
  | some w =>
    match Opcode.ofWord? w with
    | none => .error (.unknownOpcode pc w)
    | some op =>
      if op.hasOperand then
        match code[pc + 1]? with
        | some operand => .ok (ofOpcode op operand)
        | none => .error (.truncated pc (some op) 1)
      else .ok (ofOpcode op 0)

theorem size_pos (i : Insn) : 0 < i.size := i.opcode.size_pos

theorem length_encode (i : Insn) : i.encode.length = i.size := by cases i <;> rfl

theorem opcode_ofOpcode (op : Opcode) (w : UInt64) : (ofOpcode op w).opcode = op := by cases op <;> rfl

end Insn

end StackMachine
