import Mathlib
import StackMachine.Interpreter.Activation
import StackMachine.Proofs.Fixnums

/-!
# Fixnum arithmetic

The word of an integer is decided by the integer's class modulo `2^63`, and each class has one integer in the fixnum
range.  Sums, differences and products of fixnums are those of their integers, up to the class.

* `ofInt_eq_iff`: two integers have the same word if they are congruent.
* `add_ofInt`, `sub_ofInt`, `mul_ofInt`, `less_ofInt`: what is done to the words, told of the integers.  A product is
  that of machine integers, which wraps once before it is tagged and once more by the tag.
* `exec_integers`, `exec_not_fixnum`: an instruction with two operands, by what the operands are.
-/

namespace StackMachine

namespace Value

/-! ### Classes modulo `2^63` -/

/-- Tagging drops the bits above the fixnum range, and no others. -/
theorem ofInt_eq_iff {m n : Int} : ofInt m = ofInt n ↔ m ≡ n [ZMOD 2 ^ 63] := by
  have hm := toNat_raw_ofInt m
  have hn := toNat_raw_ofInt n
  have hword : ofInt m = ofInt n ↔ ((ofInt m).raw.toNat : Int) = (ofInt n).raw.toNat := by
    rw [Int.ofNat_inj, UInt64.toNat_inj]
    exact ⟨congrArg raw, congrArg mk⟩
  rw [hword, hm, hn, Int.ModEq]
  omega

/-- `k` is the one integer of the range in the class of `n`. -/
structure Reduces (n k : Int) : Prop where
  inRange : InRange k
  congruent : k ≡ n [ZMOD 2 ^ 63]
  unique : ∀ k', InRange k' → k' ≡ n [ZMOD 2 ^ 63] → k' = k

theorem exists_reduces (n : Int) : ∃ k, Reduces n k := by
  have hrange : InRange (n.bmod (2 ^ 63)) := by
    rw [InRange, Int.bmod_def]
    omega
  have hcongruent : n.bmod (2 ^ 63) ≡ n [ZMOD 2 ^ 63] := by
    rw [Int.ModEq, Int.bmod_def]
    omega
  refine ⟨n.bmod (2 ^ 63), hrange, hcongruent, fun k hk h => ?_⟩
  have hclass := h.trans hcongruent.symm
  simp only [InRange, Int.ModEq] at hrange hk hclass
  omega

/-! ### Operations on words -/

theorem add_ofInt (m n : Int) : (ofInt m).add (ofInt n) = ofInt (m + n) := by
  have hm := toNat_raw_ofInt m
  have hn := toNat_raw_ofInt n
  have hsum := toNat_raw_ofInt (m + n)
  have hadd : ((ofInt m).add (ofInt n)).raw = (ofInt (m + n)).raw := by
    rw [← UInt64.toNat_inj, add, UInt64.toNat_sub, UInt64.toNat_add]
    simp only [UInt64.toNat_one]
    omega
  exact congrArg mk hadd

theorem sub_ofInt (m n : Int) : (ofInt m).sub (ofInt n) = ofInt (m - n) := by
  have hm := toNat_raw_ofInt m
  have hn := toNat_raw_ofInt n
  have hdiff := toNat_raw_ofInt (m - n)
  have hlt := (ofInt n).raw.toNat_lt
  have hsub : ((ofInt m).sub (ofInt n)).raw = (ofInt (m - n)).raw := by
    rw [← UInt64.toNat_inj, sub, UInt64.toNat_add, UInt64.toNat_sub]
    simp only [UInt64.toNat_one]
    omega
  exact congrArg mk hsub

theorem toInt_untagged (v : Value) : v.untagged.toInt = v.raw.toInt64.toInt / 2 := by
  have hshift : v.untagged.toBitVec = v.raw.toInt64.toBitVec.sshiftRight 1 := by
    rw [untagged, Int64.toBitVec_shiftRight]
    rfl
  rw [← Int64.toInt_toBitVec, hshift, BitVec.toInt_sshiftRight, Int.shiftRight_eq_div_pow]
  rfl

theorem toInt_untagged_ofInt {n : Int} (h : InRange n) : (ofInt n).untagged.toInt = n := by
  rw [toInt_untagged, toInt_raw_ofInt (inRange_iff.1 h)]
  omega

/-- Tagging a machine integer shifts its top bit out, which tagging the integer drops too. -/
theorem tagged_eq_ofInt (n : Int64) : tagged n = ofInt n.toInt := by
  have hword := toNat_raw_ofInt n.toInt
  have hn : n.toInt = (n.toUInt64.toNat : Int).bmod (2 ^ 64) := BitVec.toInt_eq_toNat_bmod _
  rw [Int.bmod_def] at hn
  have hshift : (n.toUInt64 <<< 1).toNat = (n.toUInt64.toNat % 2 ^ 63) <<< 1 := by
    rw [UInt64.toNat_shiftLeft]
    simp only [Nat.shiftLeft_eq, UInt64.toNat_one, Nat.reduceMod, pow_one]
    omega
  have hraw : (tagged n).raw.toNat = 2 * (n.toUInt64.toNat % 2 ^ 63) + 1 := by
    rw [tagged, UInt64.toNat_or, hshift, UInt64.toNat_one, ← Nat.shiftLeft_add_eq_or_of_lt (by decide),
      Nat.shiftLeft_eq]
    omega
  have hsame : (tagged n).raw = (ofInt n.toInt).raw := by
    rw [← UInt64.toNat_inj]
    omega
  exact congrArg mk hsame

/-- The product wraps modulo `2^64`, which does not show in its class modulo `2^63`. -/
theorem mul_ofInt {m n : Int} (hm : InRange m) (hn : InRange n) : (ofInt m).mul (ofInt n) = ofInt (m * n) := by
  rw [mul, tagged_eq_ofInt, Int64.toInt_mul, toInt_untagged_ofInt hm, toInt_untagged_ofInt hn, ofInt_eq_iff]
  generalize m * n = k
  rw [Int.ModEq, Int.bmod_def]
  omega

theorem less_ofInt {m n : Int} (hm : InRange m) (hn : InRange n) : (ofInt m).less (ofInt n) = ofBool (m < n) := by
  have hlt : (ofInt m).raw.toInt64 < (ofInt n).raw.toInt64 ↔ m < n := by
    rw [Int64.lt_iff_toInt_lt, toInt_raw_ofInt (inRange_iff.1 hm), toInt_raw_ofInt (inRange_iff.1 hn)]
    omega
  rw [less, decide_eq_decide.2 hlt]

/-- Taking off what was added, on any two words. -/
theorem sub_add (u v : Value) : (u.add v).sub v = u := by
  have hword : u.raw + v.raw - 1 - v.raw + 1 = u.raw := by grind
  exact congrArg mk hword

end Value

/-! ### Instructions -/

/-- The operation on integers that an instruction of arithmetic stands for. -/
def Insn.operation? : Insn → Option (Int → Int → Int)
  | .plus => some (· + ·)
  | .minus => some (· - ·)
  | .mult => some (· * ·)
  | _ => none

/-- What an instruction makes of the integers of its two operands. -/
def Insn.combined? : Insn → Option (Int → Int → Value)
  | .less => some fun m n => .ofBool (m < n)
  | i => i.operation?.map fun op m n => .ofInt (op m n)

namespace Activation

variable {a : Activation} {i : Insn} {x y : Value} {below : List Value} {f : Int → Int → Value}

/-- The word of the result is computed from the words of the operands; what counts is how it depends on the integers. -/
private theorem exec_eq_binary (hi : i.combined? = some f) :
    ∃ g : Value → Value → Value, a.exec i = a.binary i (Value.arith i.opcode g) ∧
      ∀ m n, Value.InRange m → Value.InRange n → g (.ofInt m) (.ofInt n) = f m n := by
  cases i with
  | plus =>
    cases hi
    exact ⟨.add, rfl, fun m n _ _ => Value.add_ofInt m n⟩
  | minus =>
    cases hi
    exact ⟨.sub, rfl, fun m n _ _ => Value.sub_ofInt m n⟩
  | mult =>
    cases hi
    exact ⟨.mul, rfl, fun _ _ hm hn => Value.mul_ofInt hm hn⟩
  | less =>
    cases hi
    exact ⟨.less, rfl, fun _ _ hm hn => Value.less_ofInt hm hn⟩
  | _ => cases hi

/-- Where both operands are fixnums, the instruction combines their integers. -/
theorem exec_integers (hs : a.stack = y :: x :: below) (hi : i.combined? = some f) {m n : Int} (hx : x.toInt? = some m)
    (hy : y.toInt? = some n) : a.exec i = a.advance i (f m n :: below) := by
  obtain ⟨g, hexec, hg⟩ := exec_eq_binary (a := a) hi
  have hword := hg m n (Value.inRange_of_toInt? hx) (Value.inRange_of_toInt? hy)
  have hfix : x.isFixnum = true ∧ y.isFixnum = true := by
    rw [Value.eq_ofInt_of_toInt? hx, Value.eq_ofInt_of_toInt? hy]
    exact ⟨Value.isFixnum_ofInt m, Value.isFixnum_ofInt n⟩
  rw [← Value.eq_ofInt_of_toInt? hx, ← Value.eq_ofInt_of_toInt? hy] at hword
  simp [hexec, binary, hs, Value.arith, hfix, hword]

/-- The first operand that is no fixnum is reported. -/
theorem exec_not_fixnum (hs : a.stack = y :: x :: below) (hi : i.combined? = some f)
    (h : ¬(x.isFixnum = true ∧ y.isFixnum = true)) :
    a.exec i = .fault (.notFixnum i.opcode (if x.isFixnum then y else x)) := by
  obtain ⟨g, hexec, _⟩ := exec_eq_binary (a := a) hi
  by_cases hx : x.isFixnum = true
  · have hy : y.isFixnum ≠ true := fun hy => h ⟨hx, hy⟩
    simp [hexec, binary, hs, Value.arith, hx, hy]
  · simp [hexec, binary, hs, Value.arith, hx]

/-- What the next instruction does to its two operands, `x` below `y`, if it is one that combines two. -/
structure Combines (a : Activation) (i : Insn) (x y : Value) (below : List Value) : Prop where
  modular : ∀ op, i.operation? = some op → ∀ m n, x.toInt? = some m → y.toInt? = some n →
    ∃ k v, Value.Reduces (op m n) k ∧ Value.ofInt? k = some v ∧ a.step = a.advance i (v :: below)
  exact : ∀ op, i.operation? = some op → ∀ m n, x.toInt? = some m → y.toInt? = some n →
    ∀ v, Value.ofInt? (op m n) = some v → a.step = a.advance i (v :: below)
  order : i = .less → ∀ m n, x.toInt? = some m → y.toInt? = some n →
    a.step = a.advance i ((if m < n then .true else .false) :: below)
  refused : i.combined?.isSome = true → ¬(x.isFixnum = true ∧ y.isFixnum = true) →
    a.step = .fault (.notFixnum i.opcode (if x.isFixnum then y else x))

private theorem combined?_of_operation? {op : Int → Int → Int} (h : i.operation? = some op) :
    i.combined? = some fun m n => .ofInt (op m n) := by
  cases i <;> cases h <;> rfl

theorem step_combines (hi : Insn.decode a.method.code a.pc = .ok i) (hs : a.stack = y :: x :: below) :
    Combines a i x y below := by
  have hstep : a.step = a.exec i := by
    simp only [step, hi]
  refine ⟨fun op hop m n hx hy => ?_, fun op hop m n hx hy v hv => ?_, ?_, fun hsome hnot => ?_⟩
  · obtain ⟨k, hk⟩ := Value.exists_reduces (op m n)
    refine ⟨k, .ofInt k, hk, Value.ofInt?_of_inRange hk.inRange, ?_⟩
    rw [hstep, exec_integers hs (combined?_of_operation? hop) hx hy, Value.ofInt_eq_iff.2 hk.congruent]
  · have hword := Value.eq_ofInt_of_toInt? (Value.toInt?_eq_some.2 hv)
    rw [hstep, exec_integers hs (combined?_of_operation? hop) hx hy, hword]
  · rintro rfl m n hx hy
    rw [hstep, exec_integers hs rfl hx hy]
    by_cases hlt : m < n <;> simp [hlt, Value.ofBool]
  · obtain ⟨f, hf⟩ := Option.isSome_iff_exists.1 hsome
    rw [hstep, exec_not_fixnum hs hf hnot]

end Activation

/-- The interpreter computes with fixnums as with integers modulo `2^63`, compares them as integers and takes no other
operands.  Adding to a word and taking off again gives the word back.  Tagging and untagging are inverse bijections
between the integers of the range and the odd words. -/
theorem tagged_arithmetic :
    (∀ (a : Activation) (i : Insn) (x y : Value) (below : List Value), Insn.decode a.method.code a.pc = .ok i →
      a.stack = y :: x :: below → a.Combines i x y below) ∧
    (∀ u v : Value, (u.add v).sub v = u) ∧
    (∀ n, (Value.ofInt? n).isSome = true ↔ -2 ^ 62 ≤ n ∧ n < 2 ^ 62) ∧
    (∀ v : Value, v.toInt?.isSome = true ↔ v.raw.toNat % 2 = 1) ∧
    (∀ n v, Value.ofInt? n = some v ↔ v.toInt? = some n) :=
  ⟨fun _ _ _ _ _ hi hs => Activation.step_combines hi hs, Value.sub_add, fun _ => Value.isSome_ofInt?,
    fun _ => Value.isSome_toInt?, fun _ _ => Value.toInt?_eq_some.symm⟩

/-- About to multiply the two values. -/
def multiplying (x y : Value) : Activation :=
  ⟨(Draft.empty.insn .mult).method "product" 0, .nil, [], [y, x], 0, 0⟩

/-- The square of the largest fixnum is one, and `nil` has no square. -/
theorem tagged_arithmetic_largest :
    (multiplying (.ofInt Value.maxFixnum) (.ofInt Value.maxFixnum)).step =
        (multiplying (.ofInt Value.maxFixnum) (.ofInt Value.maxFixnum)).advance .mult [.ofInt 1] ∧
      (multiplying .nil .nil).step = .fault (.notFixnum .mult .nil) := by
  obtain ⟨hcombines, _⟩ := tagged_arithmetic
  have hlargest : (Value.ofInt Value.maxFixnum).toInt? = some Value.maxFixnum := Value.toInt?_ofInt (by decide)
  constructor
  · have hsquare := hcombines (multiplying (.ofInt Value.maxFixnum) (.ofInt Value.maxFixnum)) .mult _ _ [] rfl rfl
    obtain ⟨k, v, hk, hv, hstep⟩ := hsquare.modular _ rfl _ _ hlargest hlargest
    obtain rfl : 1 = k := hk.unique 1 (by simp [Value.InRange]) (by decide)
    cases hv
    exact hstep
  · exact (hcombines (multiplying .nil .nil) .mult _ _ [] rfl rfl).refused rfl (by decide)

end StackMachine
