import StackMachine.Native.CodeBlock

/-!
# Notices

What the compiler and its user report about their work.  A notice has a level and comes from one part of the program,
so that a reader can choose which ones to see.
-/

namespace StackMachine.Native

/-- Levels in order of growing detail. -/
inductive Level where
  | error | warn | info | debug | trace
deriving DecidableEq, Repr

namespace Level

/-- Position in the order. -/
def rank : Level → Nat
  | error => 1 | warn => 2 | info => 3 | debug => 4 | trace => 5

def name : Level → String
  | error => "ERROR" | warn => "WARN" | info => "INFO" | debug => "DEBUG" | trace => "TRACE"

end Level

inductive Notice where
  /-- Code was placed; `used` counts it. -/
  | placed (placement : Placement) (used capacity : Nat)
  /-- One method was compiled. -/
  | compiled (method : String) (insns bytes : Nat) (entry : CodePtr)
  /-- A code block is ready for use. -/
  | ready (capacity : Nat) (trampoline : CodePtr)
  /-- A request was met, callees included. -/
  | requested (method : String) (entry : CodePtr) (bytes remaining : Nat)
  | executed (method : String) (value : Value)
  | failed (method : String) (error : Error)
  | interpreting
deriving DecidableEq, Repr

namespace Notice

def level : Notice → Level
  | placed .. => .trace
  | compiled .. => .debug
  | ready .. | requested .. | executed .. | interpreting => .info
  | failed .. => .error

/-- The name by which a log filter refers to the part that reports it. -/
def source : Notice → String
  | placed .. => "stackjit::jit::codeblock"
  | compiled .. => "stackjit::jit::compiler"
  | ready .. | requested .. | executed .. | failed .. => "stackjit::jit"
  | interpreting => "stackjit"

def message : Notice → String
  | placed p used capacity =>
    "[JIT] placed " ++ Decimal.ofNat p.bytes.length ++ " bytes at " ++ p.entry.text ++ " (" ++ Decimal.ofNat used
      ++ " of " ++ Decimal.ofNat capacity ++ " used)"
  | compiled m insns bytes entry =>
    "[JIT] compiled `" ++ m ++ "` (" ++ Decimal.ofNat insns ++ " insns, " ++ Decimal.ofNat bytes ++ " bytes at "
      ++ entry.text ++ ")"
  | ready capacity trampoline =>
    "[JIT] code block ready: " ++ Decimal.ofNat capacity ++ " bytes, trampoline at " ++ trampoline.text
  | requested m entry bytes remaining =>
    "[JIT] compiled '" ++ m ++ "' at " ++ entry.text ++ " (" ++ Decimal.ofNat bytes ++ " bytes incl. callees, "
      ++ Decimal.ofNat remaining ++ " left)"
  | executed m v => "[JIT] executed `" ++ m ++ "`, result: " ++ v.text
  | failed m e => "[JIT] failed to compile `" ++ m ++ "`: " ++ e.message
  | interpreting => "[JIT] disabled, interpreting"

end Notice

end StackMachine.Native
