import StackMachine.Overflow
import StackMachine.Text.Blank
import StackMachine.X86.Assembly

/-!
# Disassembly

`Decoded.ofBytes?` reads one instruction from the front of a byte string.  `disassemble` cuts a whole byte string into
lines, one for each instruction; a byte at which no known instruction starts has a `.byte` line of its own, so every
byte is shown and none twice.

Only the operand of a relative call depends on where the code lies.
-/

namespace StackMachine.X86

/-- The operands of a decoded instruction.  A relative call names its target by the distance from its own end. -/
inductive Operands where
  | listed (ops : List Operand)
  | relative (offset : Int64)
deriving DecidableEq, Repr

structure Decoded where
  mnemonic : String
  operands : Operands
deriving DecidableEq, Repr

/-! ### Reading the parts -/

structure Rex where
  w : Bool
  r : Bool
  b : Bool
deriving DecidableEq, Repr

namespace Rex

def none : Rex := ⟨false, false, false⟩

def ofByte (b : UInt8) : Rex := ⟨b.toNat / 8 % 2 == 1, b.toNat / 4 % 2 == 1, b.toNat % 2 == 1⟩

def isPrefixByte (b : UInt8) : Bool := b.toNat / 16 == 4

/-- What the bit adds to the register in the reg field. -/
def extR (rex : Rex) : Nat := if rex.r then 8 else 0

/-- What the bit adds to the register in the r/m or base position. -/
def extB (rex : Rex) : Nat := if rex.b then 8 else 0

end Rex

def takeByte? : List UInt8 → Option (UInt8 × List UInt8)
  | [] => none
  | b :: rest => some (b, rest)

def takeInt8? : List UInt8 → Option (Int64 × List UInt8)
  | [] => none
  | b :: rest => some (b.toInt8.toInt64, rest)

def takeInt32? (code : List UInt8) : Option (Int64 × List UInt8) :=
  (LittleEndian.take? 4 code).map fun (n, rest) => ((UInt32.ofNat n).toInt32.toInt64, rest)

def takeInt64? (code : List UInt8) : Option (Int64 × List UInt8) :=
  (LittleEndian.take? 8 code).map fun (n, rest) => ((UInt64.ofNat n).toInt64, rest)

/-- The base register of a memory operand.  A SIB byte is accepted without index only, and the form relative to the
instruction not at all. -/
def takeBase? (rex : Rex) (mode rm : Nat) (code : List UInt8) : Option (Reg × List UInt8) :=
  if rm = 4 then
    match code with
    | sib :: rest => if sib.toNat / 8 % 8 = 4 then some (.ofNumber (sib.toNat % 8 + rex.extB), rest) else none
    | [] => none
  else if mode = 0 ∧ rm = 5 then none
  else some (.ofNumber (rm + rex.extB), code)

def takeDisp? (mode : Nat) (code : List UInt8) : Option (Int64 × List UInt8) :=
  if mode = 0 then some (0, code) else if mode = 1 then takeInt8? code else takeInt32? code

/-- ModR/M and what follows it: the register of the reg field and the r/m operand. -/
def takeModrm? (rex : Rex) : List UInt8 → Option ((Reg × Operand) × List UInt8)
  | [] => none
  | b :: code =>
    let mode := b.toNat / 64
    let reg := Reg.ofNumber (b.toNat / 8 % 8 + rex.extR)
    let rm := b.toNat % 8
    if mode = 3 then some ((reg, .reg (.ofNumber (rm + rex.extB))), code)
    else do
      let (base, code) ← takeBase? rex mode rm code
      let (disp, code) ← takeDisp? mode code
      return ((reg, .mem base disp.toInt32), code)

/-! ### Reading an instruction -/

namespace Decoded

def binary (mnemonic : String) (dst src : Operand) : Decoded := ⟨mnemonic, .listed [dst, src]⟩

def unary (mnemonic : String) (op : Operand) : Decoded := ⟨mnemonic, .listed [op]⟩

/-- Two operands named by ModR/M, the register first or second. -/
def takeRegRm? (mnemonic : String) (regFirst : Bool) (rex : Rex) (code : List UInt8) :
    Option (Decoded × List UInt8) := do
  let ((reg, rm), code) ← takeModrm? rex code
  return (if regFirst then binary mnemonic (.reg reg) rm else binary mnemonic rm (.reg reg), code)

/-- The instruction of an opcode, given what its REX byte says and the bytes after it. -/
def ofOpcode? (rex : Rex) (op : Nat) (code : List UInt8) : Option (Decoded × List UInt8) :=
  if 0x50 ≤ op ∧ op ≤ 0x57 then some (unary "push" (.reg (.ofNumber (op - 0x50 + rex.extB))), code)
  else if 0x58 ≤ op ∧ op ≤ 0x5F then some (unary "pop" (.reg (.ofNumber (op - 0x58 + rex.extB))), code)
  else if op = 0xE8 then do
    let (offset, code) ← takeInt32? code
    return (⟨"call", .relative offset⟩, code)
  else if op = 0xFF then do
    let ((reg, rm), code) ← takeModrm? { rex with r := false } code
    if reg.code = 2 then return (unary "call" rm, code) else none
  else if op = 0xC3 then some (⟨"ret", .listed []⟩, code)
  else if !rex.w then none
  else if op = 0x89 then takeRegRm? "mov" false rex code
  else if op = 0x8B then takeRegRm? "mov" true rex code
  else if 0xB8 ≤ op ∧ op ≤ 0xBF then do
    let (imm, code) ← takeInt64? code
    return (binary "mov" (.reg (.ofNumber (op - 0xB8 + rex.extB))) (.imm imm), code)
  else if op = 0xC7 then do
    let ((reg, rm), code) ← takeModrm? rex code
    if reg.code ≠ 0 then none
    else
      let (imm, code) ← takeInt32? code
      return (binary "mov" rm (.imm imm), code)
  else if op = 0x81 ∨ op = 0x83 then do
    let ((reg, rm), code) ← takeModrm? { rex with r := false } code
    let alu ← AluOp.ofExt? reg.code
    let (imm, code) ← if op = 0x83 then takeInt8? code else takeInt32? code
    return (binary alu.mnemonic rm (.imm imm), code)
  else if op = 0x0F then do
    let (second, code) ← takeByte? code
    if second.toNat / 16 = 4 then
      takeRegRm? ("cmov" ++ (Cond.ofCode second.toNat).suffix) true rex code
    else none
  else do
    let (alu, regFirst) ← AluOp.ofOpcode? op
    takeRegRm? alu.mnemonic regFirst rex code

/-- Reads one instruction off the front; at most one REX byte may stand before the opcode. -/
def ofBytes? : List UInt8 → Option (Decoded × List UInt8)
  | [] => none
  | b :: code =>
    if Rex.isPrefixByte b then do
      let (op, code) ← takeByte? code
      ofOpcode? (.ofByte b) op.toNat code
    else ofOpcode? .none b.toNat code

end Decoded

/-! ### Lines -/

structure Line where
  address : Nat
  size : Nat
  mnemonic : String
  operands : String
deriving DecidableEq, Repr

namespace Line

/-- A byte at which no known instruction starts. -/
def ofByte (address : Nat) (b : UInt8) : Line := ⟨address, 1, ".byte", Hex.padded 4 b.toNat⟩

/-- The line of an instruction of `size` bytes.  The end of a relative call must be an address. -/
def ofDecoded (address size : Nat) (d : Decoded) : Except Overflow Line :=
  match d.operands with
  | .listed ops => .ok ⟨address, size, d.mnemonic, Operand.listText ops⟩
  | .relative offset =>
    if address + size < UInt64.size then
      .ok ⟨address, size, d.mnemonic, Hex.ofWord (UInt64.ofNat (address + size) + offset.toUInt64)⟩
    else .error .addition

/-- The first line of a byte string that starts with `b`. -/
def first (address : Nat) (b : UInt8) (code : List UInt8) : Except Overflow Line :=
  match Decoded.ofBytes? (b :: code) with
  | some (d, rest) => ofDecoded address (code.length + 1 - rest.length) d
  | none => .ok (ofByte address b)

end Line

/-- Every line must start at an address. -/
def disassembleFrom (address : Nat) : List UInt8 → Except Overflow (List Line)
  | [] => .ok []
  | b :: code =>
    if address < UInt64.size then
      match Line.first address b code with
      | .error e => .error e
      | .ok line =>
        match disassembleFrom (address + (line.size - 1) + 1) (code.drop (line.size - 1)) with
        | .error e => .error e
        | .ok lines => .ok (line :: lines)
    else .error .addition
termination_by code => code.length
decreasing_by
  simp only [List.length_drop, List.length_cons]
  omega

def disassemble (code : List UInt8) (address : UInt64) : Except Overflow (List Line) :=
  disassembleFrom address.toNat code

/-! ### Rendering -/

inductive DisasmFormat where
  | text | json
deriving DecidableEq, Repr

namespace Line

def renderText (l : Line) : String :=
  let body := if l.operands.isEmpty then l.mnemonic else Text.padRight 6 ' ' l.mnemonic ++ " " ++ l.operands
  "  " ++ Hex.padded 14 l.address ++ ":  " ++ body ++ "\n"

/-- One object a line.  No mnemonic or operand holds a character that needs escaping. -/
def renderJson (l : Line) : String :=
  "\x7b\"address\":" ++ Decimal.ofNat l.address ++ ",\"mnemonic\":\"" ++ l.mnemonic ++ "\",\"operands\":\""
    ++ l.operands ++ "\"\x7d\n"

def render : DisasmFormat → Line → String
  | .text => renderText
  | .json => renderJson

end Line

def renderLines (format : DisasmFormat) (lines : List Line) : String := String.join (lines.map (Line.render format))

end StackMachine.X86
