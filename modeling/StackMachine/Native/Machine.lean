import StackMachine.Native.CodeBlock
import StackMachine.Native.Frames

/-!
# The machine

Generated code runs on a machine with sixteen 64-bit registers, a signed-less flag, a native stack and the memory of a
`FrameStack`: the execution context, the frame array and the value array lie in regions of their own.  An access
outside of them stops the run, and so do an unbalanced native stack and a call to an address where no code is.

* `FrameStack.load?` and `FrameStack.store?` give the words of the frame stack their addresses.
* `Machine.exec` runs an assembly up to its `ret`.  Code can only call code that was placed before it, so the
  placements are passed newest first and a call goes on with those older than its target.
-/

namespace StackMachine.Native

open X86 (Reg Operand AluOp Assembly)

/-! ### Registers -/

structure Registers where
  words : Vector UInt64 16
deriving DecidableEq, Repr

namespace Registers

def zero : Registers := ⟨Vector.replicate 16 0⟩

def get (rs : Registers) (r : Reg) : UInt64 :=
  have := r.number_lt
  rs.words[r.number]

def set (rs : Registers) (r : Reg) (w : UInt64) : Registers := ⟨rs.words.set r.number w r.number_lt⟩

theorem get_set (rs : Registers) (r s : Reg) (w : UInt64) : (rs.set r w).get s = if r = s then w else rs.get s := by
  have inj : r.number = s.number ↔ r = s :=
    ⟨fun h => by rw [← r.ofNumber_number, h, s.ofNumber_number], fun h => h ▸ rfl⟩
  simp only [get, set, Vector.getElem_set, inj]

end Registers

/-! ### Addresses of the frame stack -/

namespace Layout

def contextBase : Nat := 0x1000

def framesBase : Nat := 0x10000000000

def valuesBase : Nat := 0x8000000000000000

def frameAddr (index : Nat) : UInt64 := UInt64.ofNat (framesBase + frameSize * index)

def slotAddr (slot : Nat) : UInt64 := UInt64.ofNat (valuesBase + wordSize * slot)

/-- The frame that starts at an address. -/
def frameIndex? (addr : UInt64) : Option Nat :=
  let offset := addr.toNat - framesBase
  if framesBase ≤ addr.toNat ∧ addr.toNat < valuesBase ∧ offset % frameSize = 0 then some (offset / frameSize) else none

/-- The slot at an address. -/
def slot? (addr : UInt64) : Option Nat :=
  let offset := addr.toNat - valuesBase
  if valuesBase ≤ addr.toNat ∧ offset % wordSize = 0 then some (offset / wordSize) else none

/-- The frame and the field at an address. -/
def field? (addr : UInt64) : Option (Nat × Nat) :=
  let offset := addr.toNat - framesBase
  if framesBase ≤ addr.toNat ∧ addr.toNat < valuesBase then some (offset / frameSize, offset % frameSize) else none

end Layout

namespace Frame

/-- The word of the field at a byte offset. -/
def word? (f : Frame) (offset : Nat) : Option UInt64 :=
  if offset = Layout.sp then some (Layout.slotAddr f.sp)
  else if offset = Layout.self then some f.self.raw
  else if offset = Layout.ep then some ((f.ep.map Layout.slotAddr).getD 0)
  else if offset = Layout.method then some f.method
  else none

/-- A pointer into the value array must be the address of a slot. -/
def setWord? (f : Frame) (offset : Nat) (w : UInt64) : Option Frame :=
  if offset = Layout.sp then (Layout.slot? w).map fun slot => { f with sp := slot }
  else if offset = Layout.self then some { f with self := ⟨w⟩ }
  else if offset = Layout.ep then (Layout.slot? w).map fun slot => { f with ep := some slot }
  else if offset = Layout.method then some { f with method := w }
  else none

end Frame

namespace FrameStack

def load? (s : FrameStack) (addr : UInt64) : Option UInt64 :=
  if addr.toNat = Layout.contextBase + Layout.cfp then some (Layout.frameAddr s.current)
  else
    match Layout.field? addr with
    | some (index, offset) => s.frames[index]?.bind fun f => f.word? offset
    | none => (Layout.slot? addr).bind fun slot => s.values[slot]?.map Value.raw

def store? (s : FrameStack) (addr w : UInt64) : Option FrameStack :=
  if addr.toNat = Layout.contextBase + Layout.cfp then
    (Layout.frameIndex? w).bind fun index =>
      if index < s.frames.size then some { s with current := index } else none
  else
    match Layout.field? addr with
    | some (index, offset) =>
      (s.frames[index]?.bind fun f => f.setWord? offset w).map fun f =>
        { s with frames := s.frames.setIfInBounds index f }
    | none =>
      (Layout.slot? addr).bind fun slot =>
        if slot < s.values.size then some { s with values := s.values.setIfInBounds slot ⟨w⟩ } else none

end FrameStack

/-! ### States -/

/-- What the native stack holds. -/
inductive Cell where
  | word (w : UInt64)
  | returnAddress
deriving DecidableEq, Repr

structure Machine where
  regs : Registers
  less : Bool
  /-- Top first. -/
  native : List Cell
  frames : FrameStack
deriving DecidableEq, Repr

namespace Machine

def setReg (m : Machine) (r : Reg) (w : UInt64) : Machine := { m with regs := m.regs.set r w }

def addr (m : Machine) (base : Reg) (disp : Int32) : UInt64 := m.regs.get base + disp.toInt64.toUInt64

def load (m : Machine) (addr : UInt64) : Except Crash UInt64 :=
  match m.frames.load? addr with
  | some w => .ok w
  | none => .error (.address addr)

def store (m : Machine) (addr w : UInt64) : Except Crash Machine :=
  match m.frames.store? addr w with
  | some frames => .ok { m with frames := frames }
  | none => .error (.address addr)

def read (m : Machine) : Operand → Except Crash UInt64
  | .reg r => .ok (m.regs.get r)
  | .mem base disp => m.load (m.addr base disp)
  | .imm value => .ok value.toUInt64

def write (m : Machine) (dst : Operand) (w : UInt64) : Except Crash Machine :=
  match dst with
  | .reg r => .ok (m.setReg r w)
  | .mem base disp => m.store (m.addr base disp) w
  | .imm _ => .error .operand

/-- Puts a cell on the native stack. -/
def pushCell (m : Machine) (c : Cell) : Machine :=
  { m.setReg .rsp (m.regs.get .rsp - 8) with native := c :: m.native }

def popCell (m : Machine) : Except Crash (Cell × Machine) :=
  match m.native with
  | [] => .error .nativeStack
  | c :: native => .ok (c, { m.setReg .rsp (m.regs.get .rsp + 8) with native := native })

/-- The word that an operation leaves in its first operand, if any, and the sign of its exact result. -/
def alu (op : AluOp) (a b : UInt64) : Option UInt64 × Bool :=
  match op with
  | .add => (some (a + b), a.toInt64.toInt + b.toInt64.toInt < 0)
  | .sub => (some (a - b), a.toInt64 < b.toInt64)
  | .cmp => (none, a.toInt64 < b.toInt64)

/-- Executes an instruction that is neither a call nor a return. -/
def step (m : Machine) : X86.Insn → Except Crash Machine
  | .mov dst src => do m.write dst (← m.read src)
  | .alu op dst src => do
    let a ← m.read dst
    let b ← m.read src
    let (result, less) := alu op a b
    let m := { m with less := less }
    match result with
    | some w => m.write dst w
    | none => return m
  | .cmovl dst src => do
    let w ← m.read src
    if m.less then m.write dst w else return m
  | .push r => .ok (m.pushCell (.word (m.regs.get r)))
  | .pop r => do
    match ← m.popCell with
    | (.word w, m) => return m.setReg r w
    | (.returnAddress, _) => .error .nativeStack
  | .call _ | .ret => .error .operand

def ret (m : Machine) : Except Crash Machine := do
  match ← m.popCell with
  | (.returnAddress, m) => return m
  | (.word _, _) => .error .nativeStack

/-- The code at an address, and what was placed before it. -/
def find? (addr : UInt64) : (placed : List Placement) →
    Option (Assembly × { older : List Placement // older.length < placed.length })
  | [] => none
  | p :: older =>
    if p.entry.addr = addr then some (p.code, ⟨older, by simp⟩)
    else (find? addr older).map fun (code, rest) => (code, ⟨rest.1, Nat.lt_succ_of_lt rest.2⟩)

def exec (placed : List Placement) (code : Assembly) (m : Machine) : Except Crash Machine :=
  match code with
  | [] => .error .endOfCode
  | .ret :: _ => m.ret
  | .call target :: rest =>
    match m.read target with
    | .error e => .error e
    | .ok addr =>
      match find? addr placed with
      | none => .error (.callTarget addr)
      | some (callee, older) =>
        match exec older.1 callee (m.pushCell .returnAddress) with
        | .error e => .error e
        | .ok m => exec placed rest m
  | i :: rest =>
    match m.step i with
    | .error e => .error e
    | .ok m => exec placed rest m
termination_by (placed.length, code.length)
decreasing_by
  · exact Prod.Lex.left _ _ older.2
  · exact Prod.Lex.right _ (by simp)
  · exact Prod.Lex.right _ (by simp)

end Machine

end StackMachine.Native
