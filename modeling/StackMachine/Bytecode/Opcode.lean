/-!
# Opcodes

The eighteen operations of the instruction set.  An instruction is its opcode's word, followed by one operand word
when the opcode has an operand.
-/

namespace StackMachine

inductive Opcode where
  | nop | getLocal | setLocal | putNil | putSelf | putObject | putZero | putOne | dup | pop
  | plus | minus | mult | less | jump | branchIf | send | leave
deriving DecidableEq, Repr

namespace Opcode

def all : List Opcode :=
  [nop, getLocal, setLocal, putNil, putSelf, putObject, putZero, putOne, dup, pop,
    plus, minus, mult, less, jump, branchIf, send, leave]

/-- The word that stands for the opcode in an instruction stream. -/
def index : Opcode → Nat
  | nop => 0 | getLocal => 1 | setLocal => 2 | putNil => 3 | putSelf => 4 | putObject => 5
  | putZero => 6 | putOne => 7 | dup => 8 | pop => 9 | plus => 10 | minus => 11 | mult => 12
  | less => 13 | jump => 14 | branchIf => 15 | send => 16 | leave => 17

def ofIndex? : Nat → Option Opcode
  | 0 => some nop | 1 => some getLocal | 2 => some setLocal | 3 => some putNil | 4 => some putSelf
  | 5 => some putObject | 6 => some putZero | 7 => some putOne | 8 => some dup | 9 => some pop
  | 10 => some plus | 11 => some minus | 12 => some mult | 13 => some less | 14 => some jump
  | 15 => some branchIf | 16 => some send | 17 => some leave | _ => none

def word (op : Opcode) : UInt64 := UInt64.ofNat op.index

def ofWord? (w : UInt64) : Option Opcode := ofIndex? w.toNat

def name : Opcode → String
  | nop => "nop" | getLocal => "getlocal" | setLocal => "setlocal" | putNil => "putnil"
  | putSelf => "putself" | putObject => "putobject" | putZero => "putobject_int_0"
  | putOne => "putobject_int_1" | dup => "dup" | pop => "pop" | plus => "opt_plus"
  | minus => "opt_minus" | mult => "opt_mult" | less => "opt_lt" | jump => "jump"
  | branchIf => "branchif" | send => "send_without_block" | leave => "leave"

def ofName? (s : String) : Option Opcode := all.find? fun op => op.name == s

def hasOperand : Opcode → Bool
  | getLocal | setLocal | putObject | jump | branchIf | send => true
  | _ => false

/-- Number of words, operand included. -/
def size (op : Opcode) : Nat := if op.hasOperand then 2 else 1

/-- The form used in diagnostics. -/
def inspect : Opcode → String
  | nop => "Nop" | getLocal => "GetLocal" | setLocal => "SetLocal" | putNil => "PutNil"
  | putSelf => "PutSelf" | putObject => "PutObject" | putZero => "PutObjectInt0"
  | putOne => "PutObjectInt1" | dup => "Dup" | pop => "Pop" | plus => "OptPlus"
  | minus => "OptMinus" | mult => "OptMult" | less => "OptLt" | jump => "Jump"
  | branchIf => "BranchIf" | send => "SendWithoutBlock" | leave => "Leave"

theorem index_of_ofIndex? {n : Nat} {op : Opcode} (h : ofIndex? n = some op) : op.index = n := by
  unfold ofIndex? at h
  split at h <;> simp_all <;> subst h <;> rfl

theorem ofWord?_word (op : Opcode) : ofWord? op.word = some op := by cases op <;> rfl

theorem size_pos (op : Opcode) : 0 < op.size := by cases op <;> decide

end Opcode

end StackMachine
