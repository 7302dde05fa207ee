import StackMachine.Text.Decimal
import StackMachine.X86.Form

/-!
# Assembly

An assembly is a list of abstract instructions over arbitrary operands.  `encode` turns it into bytes for a given
address: each instruction becomes one form, except that a call to an address out of the reach of a 32-bit offset goes
through `rax`.  An illegal combination of operands is an error, and so is a comparison whose result is not used by the
very next instruction.
-/

namespace StackMachine.X86

inductive Insn where
  | mov (dst src : Operand)
  | alu (op : AluOp) (dst src : Operand)
  | cmovl (dst src : Operand)
  | push (r : Reg)
  | pop (r : Reg)
  | call (target : Operand)
  | ret
deriving DecidableEq, Repr

namespace Insn

def mnemonic : Insn → String
  | mov _ _ => "mov"
  | alu op _ _ => op.mnemonic
  | cmovl _ _ => "cmovl"
  | push _ => "push"
  | pop _ => "pop"
  | call _ => "call"
  | ret => "ret"

def operands : Insn → List Operand
  | mov dst src | alu _ dst src | cmovl dst src => [dst, src]
  | push r | pop r => [.reg r]
  | call target => [target]
  | ret => []

def text (i : Insn) : String :=
  if i.operands.isEmpty then i.mnemonic else i.mnemonic ++ " " ++ Operand.listText i.operands

def isCompare : Insn → Bool
  | alu .cmp _ _ => true
  | _ => false

def isCMov : Insn → Bool
  | cmovl _ _ => true
  | _ => false

end Insn

inductive AsmError where
  | invalidOperands (mnemonic : String) (dst src : Operand)
  | invalidCallTarget (target : Operand)
  | immediateOutOfRange (mnemonic : String) (value : Int64)
  | danglingCompare (index : Nat)
  | bufferTooSmall (needed available : Nat)
deriving DecidableEq, Repr

def AsmError.message : AsmError → String
  | .invalidOperands mnemonic dst src =>
    "invalid operands for `" ++ mnemonic ++ "`: " ++ dst.text ++ ", " ++ src.text
  | .invalidCallTarget target => "invalid call target " ++ target.text
  | .immediateOutOfRange mnemonic value =>
    "immediate " ++ Hex.ofInt64 value ++ " does not fit in 32 bits for `" ++ mnemonic ++ "`"
  | .danglingCompare index =>
    "`cmp` at index " ++ Decimal.ofNat index ++ " is not immediately followed by `cmovl`"
  | .bufferTooSmall needed available =>
    "code needs " ++ Decimal.ofNat needed ++ " bytes but only " ++ Decimal.ofNat available ++ " are available"

/-! ### Choosing forms -/

def imm32 (mnemonic : String) (value : Int64) : Except AsmError Int32 :=
  match Word.int32? value.toInt with
  | some n => .ok n
  | none => .error (.immediateOutOfRange mnemonic value)

/-- Bytes of a call with a 32-bit offset, which counts from its end. -/
def callRelSize : Nat := 5

namespace Insn

def movForm (dst src : Operand) : Except AsmError Form :=
  match dst, src with
  | .reg d, .reg s => .ok (.movRR d s)
  | .reg d, .mem base disp => .ok (.movRM d base disp)
  | .mem base disp, .reg s => .ok (.movMR base disp s)
  | .reg d, .imm value =>
    match Word.int32? value.toInt with
    | some n => .ok (.movRI32 d n)
    | none => .ok (.movRI64 d value)
  | .mem base disp, .imm value => (imm32 "mov" value).map (.movMI32 base disp)
  | _, _ => .error (.invalidOperands "mov" dst src)

def aluForm (op : AluOp) (dst src : Operand) : Except AsmError Form :=
  match dst, src with
  | .reg d, .reg s => .ok (.aluRR op d s)
  | .reg d, .mem base disp => .ok (.aluRM op d base disp)
  | .mem base disp, .reg s => .ok (.aluMR op base disp s)
  | .reg d, .imm value => (imm32 op.mnemonic value).map (.aluRI op d)
  | .mem base disp, .imm value => (imm32 op.mnemonic value).map (.aluMI op base disp)
  | _, _ => .error (.invalidOperands op.mnemonic dst src)

def cmovForm (dst src : Operand) : Except AsmError Form :=
  match dst, src with
  | .reg d, .reg s => .ok (.cmovRR .l d s)
  | .reg d, .mem base disp => .ok (.cmovRM .l d base disp)
  | _, _ => .error (.invalidOperands "cmovl" dst src)

/-- A near target is reached by its distance from the end of the call, a far one through `rax`. -/
def callForms (here : UInt64) : Operand → List Form
  | .imm addr =>
    match Word.int32? (addr.toUInt64 - (here + UInt64.ofNat callRelSize)).toInt64.toInt with
    | some offset => [.callRel offset]
    | none => [.movRI64 .rax addr, .callR .rax]
  | .reg r => [.callR r]
  | .mem base disp => [.callM base disp]

/-- The forms of an instruction that starts at the address `here`. -/
def forms (i : Insn) (here : UInt64) : Except AsmError (List Form) :=
  match i with
  | mov dst src => (movForm dst src).map fun f => [f]
  | alu op dst src => (aluForm op dst src).map fun f => [f]
  | cmovl dst src => (cmovForm dst src).map fun f => [f]
  | push r => .ok [.push r]
  | pop r => .ok [.pop r]
  | call target => .ok (callForms here target)
  | ret => .ok [.ret]

def encode (i : Insn) (here : UInt64) : Except AsmError (List UInt8) :=
  (i.forms here).map fun fs => fs.flatMap Form.bytes

end Insn

/-! ### Lists of instructions -/

abbrev Assembly := List Insn

namespace Assembly

/-- Whether a comparison before this list has its result used. -/
def consumesCompare : Assembly → Bool
  | i :: _ => i.isCMov
  | [] => false

/-- Encodes from the address `here`; `index` is the position of the list's head in the whole assembly. -/
def encodeFrom (index : Nat) (here : UInt64) : Assembly → Except AsmError (List UInt8)
  | [] => .ok []
  | i :: rest =>
    if i.isCompare && !consumesCompare rest then .error (.danglingCompare index)
    else
      match i.encode here with
      | .error e => .error e
      | .ok code =>
        match encodeFrom (index + 1) (here + UInt64.ofNat code.length) rest with
        | .error e => .error e
        | .ok more => .ok (code ++ more)

def encode (asm : Assembly) (target : UInt64) : Except AsmError (List UInt8) := encodeFrom 0 target asm

/-- The bytes for the front of a buffer with `available` bytes.  Nothing is written when the code does not fit. -/
def assemble (asm : Assembly) (target : UInt64) (available : Nat) : Except AsmError (List UInt8) :=
  match asm.encode target with
  | .error e => .error e
  | .ok code => if code.length ≤ available then .ok code else .error (.bufferTooSmall code.length available)

end Assembly

end StackMachine.X86
