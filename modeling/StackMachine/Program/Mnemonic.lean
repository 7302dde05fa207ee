import StackMachine.Program.Basic
import StackMachine.Program.Literal
import StackMachine.Text.Blank

/-!
# Lines of a method body

A line holds one instruction: a mnemonic and its operands, divided by blanks.  Everything from the first `#` on is a
comment, and a line without words stands for nothing.  A `send` names its callee and the number of arguments.
-/

namespace StackMachine

inductive LineError where
  | unknownInstruction (mnemonic : String)
  | operandCount (mnemonic : String) (expected given : Nat)
  | invalidIndex (text mnemonic : String)
  | invalidNumber (text mnemonic : String)
  | literal (error : LiteralError)
  | unknownMethod (name : String)
deriving DecidableEq, Repr

def LineError.message : LineError → String
  | .unknownInstruction m => "unknown instruction `" ++ m ++ "`"
  | .operandCount m expected given =>
    "`" ++ m ++ "` takes " ++ Decimal.ofNat expected ++ " operand(s), " ++ Decimal.ofNat given ++ " given"
  | .invalidIndex text m => "invalid index `" ++ text ++ "` for `" ++ m ++ "`"
  | .invalidNumber text m => "invalid number `" ++ text ++ "` for `" ++ m ++ "`"
  | .literal e => e.message
  | .unknownMethod name => "unknown method `" ++ name ++ "`"

namespace Mnemonic

/-- The words of a line, without its comment. -/
def lineWords (line : String) : List String :=
  (Text.words (line.toList.takeWhile (· ≠ '#'))).map String.ofList

def opcode? (mnemonic : String) : Option Opcode :=
  if mnemonic = "send" then some .send else Opcode.ofName? mnemonic

/-- Number of operands in text, which for a call is not that of the encoded instruction. -/
def arity : Opcode → Nat
  | .send => 2
  | op => op.size - 1

def index (mnemonic text : String) : Except LineError UInt64 :=
  match Decimal.uint64? text.toList with
  | some n => .ok n
  | none => .error (.invalidIndex text mnemonic)

def number (mnemonic text : String) : Except LineError Int64 :=
  match Decimal.int64? text.toList with
  | some n => .ok n
  | none => .error (.invalidNumber text mnemonic)

def literal (text : String) : Except LineError Value :=
  match Value.parse text with
  | .ok v => .ok v
  | .error e => .error (.literal e)

/-- The word of an opcode's single operand. -/
def operandWord (mnemonic : String) (op : Opcode) (text : String) : Except LineError UInt64 :=
  match op with
  | .putObject => (literal text).map Value.raw
  | .jump | .branchIf => (number mnemonic text).map Int64.toUInt64
  | _ => index mnemonic text

/-- Adds the instruction of a mnemonic whose operands have been counted. -/
def emit (resolve : String → Option Nat) (d : Draft) (mnemonic : String) (op : Opcode) (operands : List String) :
    Except LineError Draft :=
  match op, operands with
  | .send, [callee, argc] =>
    match resolve callee with
    | none => .error (.unknownMethod callee)
    | some id => (index mnemonic argc).map fun n => d.send ⟨id, n⟩
  | op, [text] => (operandWord mnemonic op text).map fun w => d.insn (.ofOpcode op w)
  | op, _ => .ok (d.insn (.ofOpcode op 0))

/-- Adds the instruction of a line to a draft; `resolve` gives the index of a method from its name. -/
def parseLine (resolve : String → Option Nat) (d : Draft) (line : String) : Except LineError Draft :=
  match lineWords line with
  | [] => .ok d
  | mnemonic :: operands =>
    match opcode? mnemonic with
    | none => .error (.unknownInstruction mnemonic)
    | some op =>
      if operands.length ≠ arity op then .error (.operandCount mnemonic (arity op) operands.length)
      else emit resolve d mnemonic op operands

end Mnemonic

end StackMachine
