/-!
# Little-endian bytes

A number is stored with its lowest byte first.  `bytes k n` are the low `k` bytes of `n`; `ofBytes` reads them back.
-/

namespace StackMachine.X86.LittleEndian

def bytes : Nat → Nat → List UInt8
  | 0, _ => []
  | k + 1, n => UInt8.ofNat n :: bytes k (n / 256)

def ofBytes : List UInt8 → Nat
  | [] => 0
  | b :: rest => b.toNat + 256 * ofBytes rest

/-- The first number that `k` bytes cannot hold. -/
def bound : Nat → Nat
  | 0 => 1
  | k + 1 => 256 * bound k

def ofInt32 (n : Int32) : List UInt8 := bytes 4 n.toUInt32.toNat

def ofInt64 (n : Int64) : List UInt8 := bytes 8 n.toUInt64.toNat

/-- Takes `k` bytes off the front, if there are as many. -/
def take? (k : Nat) (code : List UInt8) : Option (Nat × List UInt8) :=
  if k ≤ code.length then some (ofBytes (code.take k), code.drop k) else none

theorem length_bytes (k n : Nat) : (bytes k n).length = k := by
  induction k generalizing n with
  | zero => rfl
  | succ k ih => simp [bytes, ih]

theorem ofBytes_bytes (k n : Nat) : ofBytes (bytes k n) = n % bound k := by
  induction k generalizing n with
  | zero => simp [bytes, ofBytes, bound, Nat.mod_one]
  | succ k ih =>
    rw [bytes, ofBytes, ih, bound, Nat.mod_mul]
    simp

theorem take?_bytes (k n : Nat) (rest : List UInt8) : take? k (bytes k n ++ rest) = some (n % bound k, rest) := by
  unfold take?
  rw [if_pos (by simp [length_bytes]), List.take_left' (length_bytes k n), List.drop_left' (length_bytes k n),
    ofBytes_bytes]

end StackMachine.X86.LittleEndian
