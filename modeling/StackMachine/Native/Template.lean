import StackMachine.Native.CodeBlock
import StackMachine.Native.Frames

/-!
# Code templates

Every bytecode instruction has a fixed template of machine instructions.  The operand stack exists only while code is
generated: its slots are the registers `r8` to `r11`, and all that is tracked is its height.

* `r12` holds the address of the execution context and `r13` that of the current frame.
* `rax` carries results; `rcx` and `rdx` are scratch.
* A call stores its arguments and the header at the caller's `sp`, fills in the callee's frame, makes it current, and
  saves the four stack registers around the machine call.
-/

namespace StackMachine.Native

open X86 (Reg Operand Assembly)

namespace Template

def context : Reg := .r12

def frame : Reg := .r13

def result : Reg := .rax

def scratch : Reg := .rcx

def scratch' : Reg := .rdx

def slots : List Reg := [.r8, .r9, .r10, .r11]

/-- The register `depth` slots below the top of a stack of that height. -/
def peek? (height depth : Nat) : Option Reg := if depth + 1 ≤ height then slots[height - (depth + 1)]? else none

def frameField (offset : Nat) : Operand := .mem frame (Int32.ofNat offset)

def imm (n : Int) : Operand := .imm (Int64.ofInt n)

def word (v : Value) : Operand := .imm v.raw.toInt64

/-! ### Calls -/

/-- A call site whose operands are known to be on the stack. -/
structure Call where
  callee : Nat
  receiver : Reg
  args : List Reg
deriving DecidableEq, Repr

namespace Call

/-- Stores each argument in the slot of its position. -/
def storeArgs (args : List Reg) : Assembly :=
  args.mapIdx fun i arg => .mov (.mem scratch (Int32.ofNat (i * Layout.wordSize))) (.reg arg)

/-- From the caller's `sp`, the address of the header. -/
def skipArgs (offset : Nat) : Assembly := if offset = 0 then [] else [.alu .add (.reg scratch') (imm offset)]

/-- Builds the callee's environment and its frame, and makes the frame current. -/
def enter (c : Call) : Assembly :=
  let header := c.args.length * Layout.wordSize
  [.mov (.reg scratch) (frameField Layout.sp)]
    ++ storeArgs c.args
    ++ [.mov (.mem scratch (Int32.ofNat header)) (word envHeader),
      .mov (.reg scratch') (.reg scratch)]
    ++ skipArgs header
    ++ [.alu .sub (.reg frame) (imm Layout.frameSize),
      .mov (frameField Layout.self) (.reg c.receiver),
      .mov (frameField Layout.ep) (.reg scratch'),
      .alu .add (.reg scratch') (imm Layout.wordSize),
      .mov (frameField Layout.sp) (.reg scratch'),
      .mov (frameField Layout.method) (imm c.callee),
      .mov (.mem context (Int32.ofNat Layout.cfp)) (.reg frame)]

def code (c : Call) (entry : CodePtr) : Assembly :=
  c.enter
    ++ slots.map .push
    ++ [.call (.imm entry.addr.toInt64)]
    ++ slots.reverse.map .pop
    ++ [.mov (.reg c.receiver) (.reg result)]

/-- Checks a call site: it must exist, name a method of the program, fit its arity and find its operands. -/
def plan (p : Program) (m : Method) (pc height : Nat) (idx : UInt64) : Except Error Call :=
  match m.site? idx with
  | none => .error (.badCallSite m.name idx)
  | some site =>
    match p.method? site.callee with
    | none => .error (.unknownMethod site.callee)
    | some callee =>
      let argc := site.argc.toNat
      if argc ≠ callee.locals then .error (.arity callee.name callee.locals argc)
      else if argc + 1 = UInt64.size then .error (.overflow .addition)
      else
        match peek? height argc with
        | none => .error (.stackUnderflow m.name pc .send)
        | some receiver => .ok ⟨site.callee, receiver, (List.range argc).reverse.filterMap (peek? height)⟩

end Call

/-! ### Other instructions -/

/-- Code for one instruction and the height of the operand stack after it. -/
structure Emitted where
  code : Assembly
  height : Nat
deriving DecidableEq, Repr

/-- Byte offset of a local from the header, if the index is that of a local and the offset fits in 32 bits. -/
def localDisp? (m : Method) (idx : UInt64) : Option Int32 :=
  if 1 ≤ idx.toNat ∧ idx.toNat ≤ m.locals ∧ idx.toNat * Layout.wordSize ≤ 0x80000000 then
    some (Int32.ofInt (-(idx.toNat * Layout.wordSize : Int)))
  else none

/-- Code that fills the next free slot. -/
def pushed (m : Method) (pc height : Nat) (code : Reg → Assembly) : Except Error Emitted :=
  match slots[height]? with
  | some dst => .ok ⟨code dst, height + 1⟩
  | none => .error (.stackOverflow m.name pc slots.length)

/-- Code that combines the two topmost slots in the lower one. -/
def combined (m : Method) (pc height : Nat) (op : Opcode) (code : Reg → Reg → Assembly) : Except Error Emitted :=
  match peek? height 1, peek? height 0 with
  | some left, some right => .ok ⟨code left right, height - 1⟩
  | _, _ => .error (.stackUnderflow m.name pc op)

def plus (left right : Reg) : Assembly := [.alu .add (.reg left) (.reg right), .alu .sub (.reg left) (imm 1)]

def minus (left right : Reg) : Assembly := [.alu .sub (.reg left) (.reg right), .alu .add (.reg left) (imm 1)]

/-- Chooses between the two truth values without a branch. -/
def less (left right : Reg) : Assembly :=
  [.mov (.reg result) (word .false), .mov (.reg scratch) (word .true), .alu .cmp (.reg left) (.reg right),
    .cmovl (.reg result) (.reg scratch), .mov (.reg left) (.reg result)]

/-- Makes the caller's frame current and returns the value. -/
def leave (top : Reg) : Assembly :=
  [.alu .add (.reg frame) (imm Layout.frameSize), .mov (.mem context (Int32.ofNat Layout.cfp)) (.reg frame),
    .mov (.reg result) (.reg top), .ret]

/-- The template of an instruction that is not a call. -/
def emit (m : Method) (pc height : Nat) (i : Insn) : Except Error Emitted :=
  let literal (v : Value) := pushed m pc height fun dst => [.mov (.reg dst) (word v)]
  let underflow : Except Error Emitted := .error (.stackUnderflow m.name pc i.opcode)
  match i with
  | .nop => .ok ⟨[], height⟩
  | .getLocal idx =>
    match localDisp? m idx with
    | none => .error (.badLocal m.name pc idx m.locals)
    | some disp =>
      pushed m pc height fun dst =>
        [.mov (.reg scratch) (frameField Layout.ep), .mov (.reg dst) (.mem scratch disp)]
  | .putNil => literal .nil
  | .putSelf => pushed m pc height fun dst => [.mov (.reg dst) (frameField Layout.self)]
  | .putObject v => literal v
  | .putZero => literal (.ofInt 0)
  | .putOne => literal (.ofInt 1)
  | .dup =>
    match peek? height 0 with
    | none => underflow
    | some src => pushed m pc height fun dst => [.mov (.reg dst) (.reg src)]
  | .pop => if height = 0 then underflow else .ok ⟨[], height - 1⟩
  | .plus => combined m pc height .plus plus
  | .minus => combined m pc height .minus minus
  | .less => combined m pc height .less less
  | .leave =>
    match peek? height 0 with
    | none => underflow
    | some top => .ok ⟨leave top, height - 1⟩
  | .setLocal _ | .mult | .jump _ | .branchIf _ | .send _ => .error (.unsupported m.name pc i.opcode)

end Template

end StackMachine.Native
