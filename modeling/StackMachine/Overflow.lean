/-!
# Overflow

Program counters, argument counts and code addresses are 64-bit quantities.  A sum of two of them that leaves
that range is not an ordinary error of the program being run: it stops the whole request.  So does an array that is
too large for any allocator.
-/

namespace StackMachine

inductive Overflow where
  | addition
  | capacity
deriving DecidableEq, Repr

def Overflow.message : Overflow → String
  | .addition => "attempt to add with overflow"
  | .capacity => "capacity overflow"

end StackMachine
