import StackMachine.Text.Hex
import StackMachine.X86.Register

/-!
# Operands

An operand is a register, a word of memory at a register plus displacement, or an immediate.  A `Place` is one of the
first two: what the r/m position of an instruction can name.
-/

namespace StackMachine.X86

inductive Place where
  | reg (r : Reg)
  | mem (base : Reg) (disp : Int32)
deriving DecidableEq, Repr

inductive Operand where
  | reg (r : Reg)
  | mem (base : Reg) (disp : Int32)
  | imm (value : Int64)
deriving DecidableEq, Repr

def Place.operand : Place → Operand
  | .reg r => .reg r
  | .mem base disp => .mem base disp

def Operand.text : Operand → String
  | .reg r => r.name
  | .mem base disp =>
    if disp.toInt < 0 then "[" ++ base.name ++ "-" ++ Hex.ofNat disp.toInt.natAbs ++ "]"
    else if disp.toInt = 0 then "[" ++ base.name ++ "]"
    else "[" ++ base.name ++ "+" ++ Hex.ofNat disp.toInt.natAbs ++ "]"
  | .imm value => Hex.ofInt64 value

/-- Operands as they stand after a mnemonic. -/
def Operand.listText (ops : List Operand) : String := String.intercalate ", " (ops.map Operand.text)

end StackMachine.X86
