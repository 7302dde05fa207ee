/-!
# Registers, conditions and arithmetic operations

The sixteen general-purpose registers, the sixteen condition codes and the three operations of the first arithmetic
group.  A register's number is split for encoding: the low three bits stand in the instruction's own fields and the
fourth in its REX byte.
-/

namespace StackMachine.X86

inductive Reg where
  | rax | rcx | rdx | rbx | rsp | rbp | rsi | rdi | r8 | r9 | r10 | r11 | r12 | r13 | r14 | r15
deriving DecidableEq, Repr

namespace Reg

def number : Reg → Nat
  | rax => 0 | rcx => 1 | rdx => 2 | rbx => 3 | rsp => 4 | rbp => 5 | rsi => 6 | rdi => 7
  | r8 => 8 | r9 => 9 | r10 => 10 | r11 => 11 | r12 => 12 | r13 => 13 | r14 => 14 | r15 => 15

/-- Only the low four bits of the number count. -/
def ofNumber (n : Nat) : Reg :=
  match n % 16 with
  | 0 => rax | 1 => rcx | 2 => rdx | 3 => rbx | 4 => rsp | 5 => rbp | 6 => rsi | 7 => rdi
  | 8 => r8 | 9 => r9 | 10 => r10 | 11 => r11 | 12 => r12 | 13 => r13 | 14 => r14 | _ => r15

/-- The low three bits. -/
def code (r : Reg) : Nat := r.number % 8

/-- Whether the fourth bit is set. -/
def extended (r : Reg) : Bool := 8 ≤ r.number

/-- The REX bit for the register in the r/m or base position. -/
def rexB (r : Reg) : Nat := if r.extended then 1 else 0

/-- The REX bit for the register in the reg position. -/
def rexR (r : Reg) : Nat := if r.extended then 4 else 0

def name : Reg → String
  | rax => "rax" | rcx => "rcx" | rdx => "rdx" | rbx => "rbx" | rsp => "rsp" | rbp => "rbp"
  | rsi => "rsi" | rdi => "rdi" | r8 => "r8" | r9 => "r9" | r10 => "r10" | r11 => "r11"
  | r12 => "r12" | r13 => "r13" | r14 => "r14" | r15 => "r15"

def inspect : Reg → String
  | rax => "Rax" | rcx => "Rcx" | rdx => "Rdx" | rbx => "Rbx" | rsp => "Rsp" | rbp => "Rbp"
  | rsi => "Rsi" | rdi => "Rdi" | r8 => "R8" | r9 => "R9" | r10 => "R10" | r11 => "R11"
  | r12 => "R12" | r13 => "R13" | r14 => "R14" | r15 => "R15"

theorem ofNumber_number (r : Reg) : ofNumber r.number = r := by cases r <;> rfl

theorem number_lt (r : Reg) : r.number < 16 := by cases r <;> decide

end Reg

inductive Cond where
  | o | no | b | ae | e | ne | be | a | s | ns | p | np | l | ge | le | g
deriving DecidableEq, Repr

namespace Cond

def code : Cond → Nat
  | o => 0 | no => 1 | b => 2 | ae => 3 | e => 4 | ne => 5 | be => 6 | a => 7
  | s => 8 | ns => 9 | p => 10 | np => 11 | l => 12 | ge => 13 | le => 14 | g => 15

/-- Only the low four bits of the code count. -/
def ofCode (n : Nat) : Cond :=
  match n % 16 with
  | 0 => o | 1 => no | 2 => b | 3 => ae | 4 => e | 5 => ne | 6 => be | 7 => a
  | 8 => s | 9 => ns | 10 => p | 11 => np | 12 => l | 13 => ge | 14 => le | _ => g

/-- The end of a mnemonic such as `cmovl`. -/
def suffix : Cond → String
  | o => "o" | no => "no" | b => "b" | ae => "ae" | e => "e" | ne => "ne" | be => "be" | a => "a"
  | s => "s" | ns => "ns" | p => "p" | np => "np" | l => "l" | ge => "ge" | le => "le" | g => "g"

def inspect : Cond → String
  | o => "O" | no => "No" | b => "B" | ae => "Ae" | e => "E" | ne => "Ne" | be => "Be" | a => "A"
  | s => "S" | ns => "Ns" | p => "P" | np => "Np" | l => "L" | ge => "Ge" | le => "Le" | g => "G"

end Cond

inductive AluOp where
  | add | sub | cmp
deriving DecidableEq, Repr

namespace AluOp

/-- Opcode of the form whose first operand is the r/m operand. -/
def storeOpcode : AluOp → Nat
  | add => 0x01 | sub => 0x29 | cmp => 0x39

/-- Opcode of the form whose first operand is the register. -/
def loadOpcode (op : AluOp) : Nat := op.storeOpcode + 2

/-- What stands in the reg field of the forms with an immediate. -/
def ext : AluOp → Nat
  | add => 0 | sub => 5 | cmp => 7

def ofExt? : Nat → Option AluOp
  | 0 => some add | 5 => some sub | 7 => some cmp | _ => none

/-- The operation of an opcode, and whether the register is its first operand. -/
def ofOpcode? : Nat → Option (AluOp × Bool)
  | 0x01 => some (add, false) | 0x03 => some (add, true)
  | 0x29 => some (sub, false) | 0x2B => some (sub, true)
  | 0x39 => some (cmp, false) | 0x3B => some (cmp, true)
  | _ => none

def mnemonic : AluOp → String
  | add => "add" | sub => "sub" | cmp => "cmp"

theorem ofExt?_ext (op : AluOp) : ofExt? op.ext = some op := by cases op <;> rfl

end AluOp

end StackMachine.X86
