import StackMachine.Value

/-!
# Literals

The operand of `putobject` is written `nil`, `true`, `false` or as a decimal integer.  An integer of 64 bits that is too
large for a fixnum is told apart from a text that is no literal at all.
-/

namespace StackMachine

inductive LiteralError where
  | invalid (text : String)
  | range (n : Int64)
deriving DecidableEq, Repr

/-- What is said of an integer that has no word of its own. -/
def rangeMessage (n : Int64) : String := "integer " ++ Decimal.ofInt n.toInt ++ " does not fit in a fixnum"

def LiteralError.message : LiteralError → String
  | .invalid text => "invalid literal `" ++ text ++ "`"
  | .range n => rangeMessage n

def Value.parse (text : String) : Except LiteralError Value :=
  if text = "nil" then .ok .nil
  else if text = "true" then .ok .true
  else if text = "false" then .ok .false
  else
    match Decimal.int64? text.toList with
    | none => .error (.invalid text)
    | some n =>
      match Value.ofInt? n.toInt with
      | some v => .ok v
      | none => .error (.range n)

end StackMachine
