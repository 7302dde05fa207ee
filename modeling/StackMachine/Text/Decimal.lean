import StackMachine.Word

/-!
# Decimal numerals

A numeral is an optional sign followed by one or more ASCII digits; leading zeros are allowed.  Reading is bounded:
a numeral that denotes a number outside the 64-bit type is refused.

* `digits?` reads the unsigned part.
* `int64?` takes either sign, `uint64?` only a plus sign.
* `isReal` says which texts are numbers with a fraction or an exponent, infinity or not a number.
-/

namespace StackMachine.Decimal

/-- Refuses the empty list and everything that is not an ASCII digit. -/
def digits? (cs : List Char) : Option Nat :=
  if cs ≠ [] ∧ cs.all Char.isDigit then some (Nat.ofDigitChars 10 cs 0) else none

def int? : List Char → Option Int
  | '-' :: cs => (digits? cs).map fun n => -(n : Int)
  | '+' :: cs => (digits? cs).map fun n => (n : Int)
  | cs => (digits? cs).map fun n => (n : Int)

def int64? (cs : List Char) : Option Int64 := (int? cs).bind Word.int64?

def nat? : List Char → Option Nat
  | '+' :: cs => digits? cs
  | cs => digits? cs

def uint64? (cs : List Char) : Option UInt64 := (nat? cs).bind Word.uint64?

/-- Whether a text is an exponent: nothing, or the letter E, a sign perhaps, and digits. -/
def isExponent : List Char → Bool
  | [] => true
  | c :: cs =>
    let digits := match cs with
      | '+' :: cs | '-' :: cs => cs
      | cs => cs
    (c == 'e' || c == 'E') && !digits.isEmpty && digits.all Char.isDigit

/-- Whether a text is a number without a sign; digits may be missing on one side of the point. -/
def isMagnitude (cs : List Char) : Bool :=
  let whole := cs.takeWhile Char.isDigit
  match cs.drop whole.length with
  | '.' :: cs =>
    let fraction := cs.takeWhile Char.isDigit
    !(whole.isEmpty && fraction.isEmpty) && isExponent (cs.drop fraction.length)
  | cs => !whole.isEmpty && isExponent cs

def isReal (cs : List Char) : Bool :=
  let unsigned := match cs with
    | '+' :: cs | '-' :: cs => cs
    | cs => cs
  isMagnitude unsigned || ["inf", "infinity", "nan"].contains (String.ofList (unsigned.map Char.toLower))

def ofNat (n : Nat) : String := String.ofList (Nat.toDigits 10 n)

def ofInt (n : Int) : String := if n < 0 then "-" ++ ofNat n.natAbs else ofNat n.natAbs

end StackMachine.Decimal
