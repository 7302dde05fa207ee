/-!
# Hexadecimal numerals

Lower-case digits without leading zeros, written after `0x`.  Where a column has a fixed width, zeros fill the space
between the marker and the digits.
-/

namespace StackMachine.Hex

def digits (n : Nat) : String := String.ofList (Nat.toDigits 16 n)

def ofNat (n : Nat) : String := "0x" ++ digits n

/-- At least `width` characters, the marker `0x` included. -/
def padded (width n : Nat) : String :=
  let ds := Nat.toDigits 16 n
  "0x" ++ String.ofList (List.replicate (width - 2 - ds.length) '0' ++ ds)

def ofWord (w : UInt64) : String := ofNat w.toNat

/-- A signed number is written as its two's complement. -/
def ofInt64 (n : Int64) : String := ofWord n.toUInt64

end StackMachine.Hex
