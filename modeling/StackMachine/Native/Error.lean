import StackMachine.Native.Memory
import StackMachine.Overflow
import StackMachine.Program.Basic
import StackMachine.X86.Assembly

/-!
# Errors of native compilation and execution
-/

namespace StackMachine.Native

/-- Why a run of generated code stopped before returning. -/
inductive Crash where
  | address (addr : UInt64)
  | callTarget (addr : UInt64)
  | operand
  | nativeStack
  | endOfCode
  | protection
deriving DecidableEq, Repr

inductive Error where
  | memory (error : MemoryError)
  | assembly (error : X86.AsmError)
  | decode (method : String) (error : Insn.DecodeError)
  | bufferFull (needed available : Nat)
  | unsupported (method : String) (pc : Nat) (op : Opcode)
  | stackOverflow (method : String) (pc max : Nat)
  | stackUnderflow (method : String) (pc : Nat) (op : Opcode)
  | badLocal (method : String) (pc : Nat) (idx : UInt64) (locals : Nat)
  | badCallSite (method : String) (idx : UInt64)
  | unknownMethod (id : Nat)
  | arity (callee : String) (expected given : Nat)
  | missingReturn (method : String)
  | recursiveCall (caller callee : String)
  | depthExceeded (limit : Nat)
  | foreignEntry (method : String)
  | stackExhausted (method : String)
  | frameMismatch (method : String)
  | crash (method : String) (cause : Crash)
  | overflow (kind : Overflow)
deriving DecidableEq, Repr

def Crash.message : Crash → String
  | .address addr => "access to address " ++ Hex.ofWord addr
  | .callTarget addr => "call to address " ++ Hex.ofWord addr
  | .operand => "write to an immediate"
  | .nativeStack => "unbalanced native stack"
  | .endOfCode => "end of code without return"
  | .protection => "code that is not executable"

def Error.message : Error → String
  | .memory e => e.message
  | .assembly e => e.message
  | .decode m e => "in `" ++ m ++ "`: " ++ e.message
  | .bufferFull needed available =>
    "code buffer full: " ++ Decimal.ofNat needed ++ " bytes needed, " ++ Decimal.ofNat available ++ " available"
  | .unsupported m pc op =>
    "`" ++ op.name ++ "` at pc " ++ Decimal.ofNat pc ++ " in `" ++ m ++ "` is not supported by the JIT"
  | .stackOverflow m pc max =>
    "stack height exceeds " ++ Decimal.ofNat max ++ " registers at pc " ++ Decimal.ofNat pc ++ " in `" ++ m ++ "`"
  | .stackUnderflow m pc op =>
    "`" ++ op.name ++ "` at pc " ++ Decimal.ofNat pc ++ " in `" ++ m ++ "` pops from an empty stack"
  | .badLocal m pc idx locals =>
    "local " ++ Decimal.ofNat idx.toNat ++ " out of range at pc " ++ Decimal.ofNat pc ++ " in `" ++ m ++ "` ("
      ++ Decimal.ofNat locals ++ " locals)"
  | .badCallSite m idx => "call data " ++ Decimal.ofNat idx.toNat ++ " out of range in `" ++ m ++ "`"
  | .unknownMethod id => "unknown method " ++ Method.ref id
  | .arity callee expected given =>
    "`" ++ callee ++ "` takes " ++ Decimal.ofNat expected ++ " arguments, " ++ Decimal.ofNat given ++ " given"
  | .missingReturn m => "`" ++ m ++ "` has no `leave` at the end of its instruction stream"
  | .recursiveCall caller callee =>
    "`" ++ callee ++ "` is already being compiled (recursive call from `" ++ caller ++ "`)"
  | .depthExceeded limit => "callee compilation nested deeper than " ++ Decimal.ofNat limit
  | .foreignEntry m => "`" ++ m ++ "` is compiled into a different code block"
  | .stackExhausted m => "value or frame stack exhausted before entering `" ++ m ++ "`"
  | .frameMismatch m => "frame pointer not restored after returning from `" ++ m ++ "`"
  | .crash m cause => "`" ++ m ++ "` stopped: " ++ cause.message
  | .overflow kind => kind.message

/-- Code that does not fit is a matter of the code buffer. -/
def Error.ofAssembly : X86.AsmError → Error
  | .bufferTooSmall needed available => .bufferFull needed available
  | e => .assembly e

end StackMachine.Native
