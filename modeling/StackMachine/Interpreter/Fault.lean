import StackMachine.Overflow
import StackMachine.Program.Basic

/-!
# Faults

Why an interpreted call has no value.
-/

namespace StackMachine

inductive Fault where
  | decode (error : Insn.DecodeError)
  | unknownMethod (id : Nat)
  | stackUnderflow (method : String) (pc : Nat)
  | notFixnum (op : Opcode) (value : Value)
  | badLocal (method : String) (pc : Nat) (idx : UInt64)
  | badCallSite (method : String) (idx : UInt64)
  | arity (callee : String) (expected given : Nat)
  | jumpOutOfRange (method : String) (pc : Nat) (target : Int)
  | missingReturn (method : String)
  | depthExceeded (limit : Nat)
  | stepLimit (limit : Nat)
  | overflow (kind : Overflow)
deriving DecidableEq, Repr

def Fault.message : Fault → String
  | .decode e => e.message
  | .unknownMethod id => "unknown method " ++ Method.ref id
  | .stackUnderflow m pc => "stack underflow in `" ++ m ++ "` at pc " ++ Decimal.ofNat pc
  | .notFixnum op v => "`" ++ op.name ++ "` expects fixnum operands, got " ++ v.inspect
  | .badLocal m pc idx =>
    "local " ++ Decimal.ofNat idx.toNat ++ " out of range in `" ++ m ++ "` at pc " ++ Decimal.ofNat pc
  | .badCallSite m idx => "call data " ++ Decimal.ofNat idx.toNat ++ " out of range in `" ++ m ++ "`"
  | .arity callee expected given =>
    "`" ++ callee ++ "` takes " ++ Decimal.ofNat expected ++ " arguments, " ++ Decimal.ofNat given ++ " given"
  | .jumpOutOfRange m pc target =>
    "jump to " ++ Decimal.ofInt target ++ " out of range in `" ++ m ++ "` at pc " ++ Decimal.ofNat pc
  | .missingReturn m => "`" ++ m ++ "` ran off the end of its instruction stream"
  | .depthExceeded limit => "call depth exceeded " ++ Decimal.ofNat limit
  | .stepLimit limit => "step limit of " ++ Decimal.ofNat limit ++ " instructions exceeded"
  | .overflow kind => kind.message

end StackMachine
