import StackMachine.Bytecode.Insn

/-!
# Linear sweeps

`sweep` reads a stream from its first word to its last, one instruction after the other, whatever the jumps in it say.
It stops at the first position where no instruction starts, so an error can only come last.
-/

namespace StackMachine

/-- The instructions of a stream with their positions, and what stopped the sweep before the end. -/
structure Sweep where
  insns : List (Nat × Insn)
  error : Option Insn.DecodeError
deriving DecidableEq, Repr

namespace Sweep

def ofCodeFrom (code : Array UInt64) (pc : Nat) : Sweep :=
  if pc < code.size then
    match Insn.decode code pc with
    | .ok i =>
      let rest := ofCodeFrom code (pc + i.size)
      ⟨(pc, i) :: rest.insns, rest.error⟩
    | .error e => ⟨[], some e⟩
  else ⟨[], none⟩
termination_by code.size - pc
decreasing_by
  have := i.size_pos
  omega

def ofCode (code : Array UInt64) : Sweep := ofCodeFrom code 0

end Sweep

end StackMachine
