import StackMachine.Interpreter.Activation

/-!
# Interpreted calls

A call runs activations until the outermost one returns.  Two limits bound it: the number of nested calls and the
number of instructions executed.  The count of instructions goes on from call to call on one interpreter; the nesting
starts afresh with every call.
-/

namespace StackMachine

structure Limits where
  depth : Nat
  steps : Nat
deriving DecidableEq, Repr

def Limits.default : Limits := ⟨1024, 10000000⟩

/-- A finished call: its outcome and the count of instructions so far. -/
structure Finished where
  outcome : Except Fault Value
  steps : Nat

namespace Interpreter

/-- The activation of a call for which `room` levels of nesting are left. -/
def enter (p : Program) (limits : Limits) (room : Nat) (id : Nat) (self : Value) (args : List Value) :
    Except Fault Activation :=
  match room with
  | 0 => .error (.depthExceeded limits.depth)
  | room + 1 =>
    match p.method? id with
    | none => .error (.unknownMethod id)
    | some m =>
      if args.length = m.locals then .ok ⟨m, self, args, [], 0, room⟩
      else .error (.arity m.name m.locals args.length)

/-- Executes at most `left` further instructions of `top` and of what it calls; `waiting` are the callers, innermost
first. -/
def run (p : Program) (limits : Limits) (left steps : Nat) (waiting : List Activation) (top : Activation) : Finished :=
  if top.done then ⟨.error (.missingReturn top.method.name), steps⟩
  else
    match left with
    | 0 => ⟨.error (.stepLimit limits.steps), steps + 1⟩
    | left + 1 =>
      match top.step with
      | .next top => run p limits left (steps + 1) waiting top
      | .call caller callee receiver args =>
        match enter p limits caller.room callee receiver args with
        | .ok top => run p limits left (steps + 1) (caller :: waiting) top
        | .error e => ⟨.error e, steps + 1⟩
      | .result v =>
        match waiting with
        | [] => ⟨.ok v, steps + 1⟩
        | caller :: waiting => run p limits left (steps + 1) waiting (caller.push v)
      | .fault e => ⟨.error e, steps + 1⟩

/-- Calls a method when `steps` instructions have been executed before. -/
def call (p : Program) (limits : Limits) (steps : Nat) (id : Nat) (self : Value) (args : List Value) : Finished :=
  match enter p limits limits.depth id self args with
  | .ok top => run p limits (limits.steps - steps) steps [] top
  | .error e => ⟨.error e, steps⟩

end Interpreter

end StackMachine
