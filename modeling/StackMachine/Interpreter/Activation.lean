import StackMachine.Interpreter.Fault

/-!
# Activations

An activation is one method being executed: its receiver, its locals, its operand stack and the position of its next
instruction.  `step` executes that instruction and says how to go on.

* Arithmetic checks that both operands are fixnums and then works modulo `2^63`.
* A call leaves the activation with the receiver and the arguments taken off, waiting for the result on its stack.
-/

namespace StackMachine

structure Activation where
  method : Method
  self : Value
  locals : List Value
  /-- The operand stack, top first. -/
  stack : List Value
  pc : Nat
  /-- How many further calls may be nested in this one. -/
  room : Nat
deriving DecidableEq, Repr

/-- What executing one instruction leads to. -/
inductive Step where
  | next (a : Activation)
  | call (waiting : Activation) (callee : Nat) (receiver : Value) (args : List Value)
  | result (v : Value)
  | fault (f : Fault)
deriving DecidableEq, Repr

/-- The first operand that is no fixnum is the one reported. -/
def Value.arith (op : Opcode) (f : Value → Value → Value) (a b : Value) : Except Fault Value :=
  if !a.isFixnum then .error (.notFixnum op a)
  else if !b.isFixnum then .error (.notFixnum op b)
  else .ok (f a b)

namespace Activation

def done (a : Activation) : Bool := a.method.code.size ≤ a.pc

def push (a : Activation) (v : Value) : Activation := { a with stack := v :: a.stack }

def underflow (a : Activation) : Step := .fault (.stackUnderflow a.method.name a.pc)

/-- Position in `locals` of the local with that index. -/
def localSlot? (a : Activation) (idx : UInt64) : Option Nat :=
  if 1 ≤ idx.toNat ∧ idx.toNat ≤ a.method.locals then some (a.method.locals - idx.toNat) else none

def badLocal (a : Activation) (idx : UInt64) : Step := .fault (.badLocal a.method.name a.pc idx)

/-- Goes on after the instruction with another operand stack. -/
def advance (a : Activation) (i : Insn) (stack : List Value) : Step :=
  .next { a with stack := stack, pc := a.pc + i.size }

/-- The offset counts from the next instruction; the target must lie in the stream. -/
def jump (a : Activation) (i : Insn) (offset : Int64) (stack : List Value) : Step :=
  let target : Int := (a.pc + i.size : Nat) + offset.toInt
  if Int64.maxValue.toInt < target then .fault (.overflow .addition)
  else if 0 ≤ target ∧ target < a.method.code.size then .next { a with stack := stack, pc := target.toNat }
  else .fault (.jumpOutOfRange a.method.name a.pc target)

def binary (a : Activation) (i : Insn) (f : Value → Value → Except Fault Value) : Step :=
  match a.stack with
  | y :: x :: stack =>
    match f x y with
    | .ok v => a.advance i (v :: stack)
    | .error e => .fault e
  | _ => a.underflow

def send (a : Activation) (i : Insn) (idx : UInt64) : Step :=
  match a.method.site? idx with
  | none => .fault (.badCallSite a.method.name idx)
  | some site =>
    let argc := site.argc.toNat
    if argc + 1 = UInt64.size then .fault (.overflow .addition)
    else
      match a.stack.drop argc with
      | receiver :: stack =>
        .call { a with stack := stack, pc := a.pc + i.size } site.callee receiver (a.stack.take argc).reverse
      | [] => a.underflow

def exec (a : Activation) : Insn → Step
  | i@.nop => a.advance i a.stack
  | i@(.getLocal idx) =>
    match a.localSlot? idx with
    | some slot => a.advance i (a.locals.getD slot .nil :: a.stack)
    | none => a.badLocal idx
  | i@(.setLocal idx) =>
    match a.localSlot? idx, a.stack with
    | none, _ => a.badLocal idx
    | some _, [] => a.underflow
    | some slot, v :: stack => { a with locals := a.locals.set slot v }.advance i stack
  | i@.putNil => a.advance i (.nil :: a.stack)
  | i@.putSelf => a.advance i (a.self :: a.stack)
  | i@(.putObject v) => a.advance i (v :: a.stack)
  | i@.putZero => a.advance i (.ofInt 0 :: a.stack)
  | i@.putOne => a.advance i (.ofInt 1 :: a.stack)
  | i@.dup =>
    match a.stack with
    | v :: stack => a.advance i (v :: v :: stack)
    | [] => a.underflow
  | i@.pop =>
    match a.stack with
    | _ :: stack => a.advance i stack
    | [] => a.underflow
  | i@.plus => a.binary i (Value.arith .plus .add)
  | i@.minus => a.binary i (Value.arith .minus .sub)
  | i@.mult => a.binary i (Value.arith .mult .mul)
  | i@.less => a.binary i (Value.arith .less .less)
  | i@(.jump offset) => a.jump i offset a.stack
  | i@(.branchIf offset) =>
    match a.stack with
    | v :: stack => if v.truthy then a.jump i offset stack else a.advance i stack
    | [] => a.underflow
  | i@(.send idx) => a.send i idx
  | .leave =>
    match a.stack with
    | v :: _ => .result v
    | [] => a.underflow

def step (a : Activation) : Step :=
  match Insn.decode a.method.code a.pc with
  | .ok i => a.exec i
  | .error e => .fault (.decode e)

end Activation

end StackMachine
