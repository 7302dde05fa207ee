import StackMachine.X86.LittleEndian
import StackMachine.X86.Operand

/-!
# Instruction forms and their bytes

A `Form` is one machine instruction in one of the shapes that code is generated in.  All of them work on 64 bits.
`Form.bytes` is its encoding:

* a REX byte, where the operand size or an extended register asks for it;
* the opcode;
* the ModR/M byte, a SIB byte when the base is `rsp` or `r12`, and the shortest displacement.  `rbp` and `r13` always
  carry one, since without it their number means an address relative to the instruction;
* the immediate, in one byte where an arithmetic form allows that.
-/

namespace StackMachine.X86

inductive Form where
  | movRR (dst src : Reg)
  | movRI64 (dst : Reg) (imm : Int64)
  | movRI32 (dst : Reg) (imm : Int32)
  | movRM (dst base : Reg) (disp : Int32)
  | movMR (base : Reg) (disp : Int32) (src : Reg)
  | movMI32 (base : Reg) (disp : Int32) (imm : Int32)
  | aluRR (op : AluOp) (dst src : Reg)
  | aluRM (op : AluOp) (dst base : Reg) (disp : Int32)
  | aluMR (op : AluOp) (base : Reg) (disp : Int32) (src : Reg)
  | aluRI (op : AluOp) (dst : Reg) (imm : Int32)
  | aluMI (op : AluOp) (base : Reg) (disp : Int32) (imm : Int32)
  | cmovRR (cond : Cond) (dst src : Reg)
  | cmovRM (cond : Cond) (dst base : Reg) (disp : Int32)
  | push (r : Reg)
  | pop (r : Reg)
  | callRel (offset : Int32)
  | callR (r : Reg)
  | callM (base : Reg) (disp : Int32)
  | ret
deriving DecidableEq, Repr

/-! ### Parts of an encoding -/

/-- Whether a number can be stored in one signed byte. -/
def fitsByte (n : Int32) : Bool := -128 ≤ n.toInt && n.toInt ≤ 127

/-- The REX byte of a 64-bit operation. -/
def rexW (r b : Nat) : UInt8 := UInt8.ofNat (0x48 + r + b)

/-- The REX byte of an operation that is 64 bits wide without it. -/
def rexB? (r : Reg) : List UInt8 := if r.extended then [0x41] else []

def modrmByte (mode field rm : Nat) : UInt8 := UInt8.ofNat (mode * 64 + field * 8 + rm)

/-- How a displacement is stored: not at all, in one byte, or in four. -/
inductive DispSize where
  | none | byte | dword
deriving DecidableEq, Repr

namespace DispSize

def mode : DispSize → Nat
  | none => 0 | byte => 1 | dword => 2

def select (base : Reg) (disp : Int32) : DispSize :=
  if disp = 0 ∧ base.code ≠ 5 then none else if fitsByte disp then byte else dword

def bytes (disp : Int32) : DispSize → List UInt8
  | none => []
  | byte => [disp.toUInt32.toUInt8]
  | dword => LittleEndian.ofInt32 disp

end DispSize

/-- ModR/M and what follows it, for a value in the reg field and a place in the r/m position. -/
def modrm (field : Nat) : Place → List UInt8
  | .reg r => [modrmByte 3 field r.code]
  | .mem base disp =>
    let size := DispSize.select base disp
    let sib := if base.code = 4 then [0x24] else []
    modrmByte size.mode field base.code :: sib ++ size.bytes disp

/-- The opcode, the place and the immediate of an arithmetic form. -/
def aluImmBytes (op : AluOp) (place : Place) (imm : Int32) : List UInt8 :=
  if fitsByte imm then 0x83 :: modrm op.ext place ++ [imm.toUInt32.toUInt8]
  else 0x81 :: modrm op.ext place ++ LittleEndian.ofInt32 imm

namespace Form

def bytes : Form → List UInt8
  | movRR dst src => rexW src.rexR dst.rexB :: 0x89 :: modrm src.code (.reg dst)
  | movRI64 dst imm => rexW 0 dst.rexB :: UInt8.ofNat (0xB8 + dst.code) :: LittleEndian.ofInt64 imm
  | movRI32 dst imm => rexW 0 dst.rexB :: 0xC7 :: modrm 0 (.reg dst) ++ LittleEndian.ofInt32 imm
  | movRM dst base disp => rexW dst.rexR base.rexB :: 0x8B :: modrm dst.code (.mem base disp)
  | movMR base disp src => rexW src.rexR base.rexB :: 0x89 :: modrm src.code (.mem base disp)
  | movMI32 base disp imm => rexW 0 base.rexB :: 0xC7 :: modrm 0 (.mem base disp) ++ LittleEndian.ofInt32 imm
  | aluRR op dst src => rexW src.rexR dst.rexB :: UInt8.ofNat op.storeOpcode :: modrm src.code (.reg dst)
  | aluRM op dst base disp => rexW dst.rexR base.rexB :: UInt8.ofNat op.loadOpcode :: modrm dst.code (.mem base disp)
  | aluMR op base disp src => rexW src.rexR base.rexB :: UInt8.ofNat op.storeOpcode :: modrm src.code (.mem base disp)
  | aluRI op dst imm => rexW 0 dst.rexB :: aluImmBytes op (.reg dst) imm
  | aluMI op base disp imm => rexW 0 base.rexB :: aluImmBytes op (.mem base disp) imm
  | cmovRR cond dst src =>
    rexW dst.rexR src.rexB :: 0x0F :: UInt8.ofNat (0x40 + cond.code) :: modrm dst.code (.reg src)
  | cmovRM cond dst base disp =>
    rexW dst.rexR base.rexB :: 0x0F :: UInt8.ofNat (0x40 + cond.code) :: modrm dst.code (.mem base disp)
  | push r => rexB? r ++ [UInt8.ofNat (0x50 + r.code)]
  | pop r => rexB? r ++ [UInt8.ofNat (0x58 + r.code)]
  | callRel offset => 0xE8 :: LittleEndian.ofInt32 offset
  | callR r => rexB? r ++ 0xFF :: modrm 2 (.reg r)
  | callM base disp => rexB? base ++ 0xFF :: modrm 2 (.mem base disp)
  | ret => [0xC3]

end Form

end StackMachine.X86
