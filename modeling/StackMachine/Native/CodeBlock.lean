import StackMachine.Native.Error
import StackMachine.Settings

/-!
# Code blocks

A code block is one mapping that code is appended to.  It is executable, except during a placement and after one that
the host has not let it complete.  `place` encodes an assembly for the address where its bytes will lie and returns that
address; when it fails, the code in the block is as before.

Beside the bytes the block remembers the assembly of each placement, which is what runs when that address is called.
-/

namespace StackMachine.Native

structure CodePtr where
  addr : UInt64
deriving DecidableEq, Repr

namespace CodePtr

def text (p : CodePtr) : String := Hex.ofWord p.addr

def inspect (p : CodePtr) : String := "CodePtr(" ++ p.text ++ ")"

end CodePtr

/-- Code in place: where it starts, what it does and its bytes. -/
structure Placement where
  entry : CodePtr
  code : X86.Assembly
  bytes : List UInt8
deriving DecidableEq, Repr

structure CodeBlock where
  memory : Memory
  used : Nat
  /-- Newest first. -/
  placed : List Placement
  /-- Whether placements are also disassembled, and how. -/
  dump : Option X86.DisasmFormat
deriving DecidableEq, Repr

namespace CodeBlock

def new (host : Host) (size : Nat) : Except Error CodeBlock :=
  match Memory.allocate host size with
  | .error e => .error (.memory e)
  | .ok memory =>
    match memory.makeExecutable with
    | (.error e, _) => .error (.memory e)
    | (.ok _, memory) => .ok ⟨memory, 0, [], none⟩

def capacity (b : CodeBlock) : Nat := b.memory.size

def remaining (b : CodeBlock) : Nat := b.memory.size - b.used

def base (b : CodeBlock) : UInt64 := b.memory.base

/-- Distance of an address from the start of the block. -/
def offset? (b : CodeBlock) (p : CodePtr) : Option Nat :=
  if b.base.toNat ≤ p.addr.toNat then some (p.addr.toNat - b.base.toNat) else none

def contains (b : CodeBlock) (p : CodePtr) : Bool :=
  match b.offset? p with
  | some offset => offset < b.used
  | none => false

/-- Bytes of placed code. -/
def bytesAt? (b : CodeBlock) (p : CodePtr) (len : Nat) : Option (List UInt8) :=
  match b.offset? p with
  | some offset => if offset + len ≤ b.used then b.memory.read? offset len else none
  | none => none

/-- Encodes an assembly for the address `target` and writes it there, `start` bytes into a writable memory. -/
def fill (m : Memory) (start : Nat) (target : UInt64) (asm : X86.Assembly) :
    Except Error (List UInt8) × Memory :=
  match m.room start with
  | .error e => (.error (.memory e), m)
  | .ok room =>
    match asm.assemble target room with
    | .error e => (.error (.ofAssembly e), m)
    | .ok code =>
      match m.write start code with
      | .error e => (.error (.memory e), m)
      | .ok m => (.ok code, m)

/-- The block becomes writable for the placement only.  A block that is full has no address left, even for code without
bytes. -/
def place (b : CodeBlock) (asm : X86.Assembly) : Except Error Placement × CodeBlock :=
  let target := b.base + UInt64.ofNat b.used
  match b.memory.makeWritable with
  | (.error e, memory) => (.error (.memory e), { b with memory := memory })
  | (.ok _, memory) =>
    let (written, memory) := fill memory b.used target asm
    match memory.makeExecutable with
    | (.error e, memory) => (.error (.memory e), { b with memory := memory })
    | (.ok _, memory) =>
      let b := { b with memory := memory }
      match written with
      | .error e => (.error e, b)
      | .ok code =>
        if b.used < b.capacity then
          let placement : Placement := ⟨⟨target⟩, asm, code⟩
          (.ok placement, { b with used := b.used + code.length, placed := placement :: b.placed })
        else (.error (.bufferFull code.length 0), b)

/-- What the block's dump shows of a placement. -/
def dumpText (b : CodeBlock) (p : Placement) : String :=
  match b.dump with
  | none => ""
  | some format =>
    match X86.disassemble p.bytes p.entry.addr with
    | .ok lines => X86.renderLines format lines
    | .error _ => ""

/-- The form used in diagnostics. -/
def inspect (b : CodeBlock) : String :=
  let dump := match b.dump with
    | none => "None"
    | some format => "Some(" ++ format.inspect ++ ")"
  "CodeBlock \x7b mem: " ++ b.memory.inspect ++ ", write_pos: " ++ Decimal.ofNat b.used ++ ", dump: " ++ dump ++ " \x7d"

end CodeBlock

end StackMachine.Native
