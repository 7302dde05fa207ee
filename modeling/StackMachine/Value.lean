import StackMachine.Text.Decimal
import StackMachine.Text.Hex

/-!
# Tagged values

A value is one 64-bit word.  An odd word is a *fixnum*: the word of the integer `n` is `2n + 1`, so the integers from
`-2^62` to `2^62 - 1` have a word each.  Three small even words stand for `false`, `nil` and `true`; every other even
word is an object reference.

* `ofInt` tags an integer, dropping the bits above the range; `ofInt?` refuses what does not fit.
* `toInt?` untags.
* `add`, `sub`, `mul` and `less` work on the tagged words and look at no tag.
-/

namespace StackMachine

structure Value where
  raw : UInt64
deriving DecidableEq, Repr, Inhabited

namespace Value

protected def false : Value := ⟨0x00⟩

protected def nil : Value := ⟨0x08⟩

protected def true : Value := ⟨0x14⟩

def maxFixnum : Int := 0x3FFFFFFFFFFFFFFF

def minFixnum : Int := -0x4000000000000000

def ofInt (n : Int) : Value := ⟨UInt64.ofInt (2 * n + 1)⟩

def ofInt? (n : Int) : Option Value :=
  if minFixnum ≤ n ∧ n ≤ maxFixnum then some (ofInt n) else none

def ofBool : Bool → Value
  | .true => Value.true
  | .false => Value.false

def isFixnum (v : Value) : Bool := v.raw % 2 == 1

def isNil (v : Value) : Bool := v == Value.nil

def toInt? (v : Value) : Option Int :=
  if v.isFixnum then some (v.raw.toInt64.toInt / 2) else none

/-- Everything except `nil` and `false` counts as true in a condition. -/
def truthy (v : Value) : Bool := v != Value.nil && v != Value.false

/-- On fixnums `(2a + 1) + (2b + 1) - 1 = 2(a + b) + 1`. -/
def add (a b : Value) : Value := ⟨a.raw + b.raw - 1⟩

/-- On fixnums `(2a + 1) - (2b + 1) + 1 = 2(a - b) + 1`. -/
def sub (a b : Value) : Value := ⟨a.raw - b.raw + 1⟩

/-- The machine integer of a fixnum; the shift takes off the tag. -/
def untagged (v : Value) : Int64 := v.raw.toInt64 >>> 1

/-- Tags a machine integer, whose top bit is shifted out. -/
def tagged (n : Int64) : Value := ⟨n.toUInt64 <<< 1 ||| 1⟩

/-- The product of the machine integers, which wraps before it is tagged. -/
def mul (a b : Value) : Value := tagged (a.untagged * b.untagged)

/-- Compares the words as signed numbers, which on fixnums is the order of the integers. -/
def less (a b : Value) : Value := ofBool (a.raw.toInt64 < b.raw.toInt64)

def typeName (v : Value) : String :=
  if v = Value.nil then "nil"
  else if v = Value.true then "true"
  else if v = Value.false then "false"
  else if v.isFixnum then "fixnum"
  else "object"

/-! ### Text -/

/-- How a program's result is shown. -/
def text (v : Value) : String :=
  match v.toInt? with
  | some n => Decimal.ofInt n
  | none =>
    if v = Value.nil then "nil"
    else if v = Value.true then "true"
    else if v = Value.false then "false"
    else "#<" ++ Hex.ofWord v.raw ++ ">"

/-- The form used in diagnostics, which names the kind of value. -/
def inspect (v : Value) : String :=
  match v.toInt? with
  | some n => "Fixnum(" ++ Decimal.ofInt n ++ ")"
  | none =>
    if v = Value.nil then "Nil"
    else if v = Value.true then "True"
    else if v = Value.false then "False"
    else "Value(" ++ Hex.ofWord v.raw ++ ")"

end Value

end StackMachine
