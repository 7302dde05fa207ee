import Mathlib
import StackMachine.Program.Literal
import StackMachine.Proofs.Fixnums
import StackMachine.Proofs.LineLayout

/-!
# Numerals and literals read back

What is printed is read as what it was printed for, over the whole range of 64 bits.

* `Decimal.uint64?_ofNat`, `Decimal.int64?_ofInt`: numbers without and with a sign.
* `Value.parse_text`: the values that have literals.
* `Decimal.isWord_ofNat`, `Decimal.isWord_ofInt`, `Value.isWord_text`: what is printed is a single word.
-/

namespace StackMachine

open Text (IsWord)

namespace Decimal

/-! ### Digits -/

theorem isDigit_of_mem {n : Nat} {c : Char} (hc : c ∈ Nat.toDigits 10 n) : c.isDigit = true :=
  Nat.isDigit_of_mem_toDigits (by decide) (by decide) hc

theorem digits?_toDigits (n : Nat) : digits? (Nat.toDigits 10 n) = some n := by
  have hdigits : (Nat.toDigits 10 n).all Char.isDigit = true := List.all_eq_true.2 fun c hc => isDigit_of_mem hc
  rw [digits?, if_pos ⟨Nat.toDigits_ne_nil, hdigits⟩, Nat.ofDigitChars_ten_toDigits]

/-- The first digit is not a sign. -/
theorem toDigits_head {n : Nat} {c : Char} {cs : List Char} (h : Nat.toDigits 10 n = c :: cs) :
    c ≠ '-' ∧ c ≠ '+' := by
  have hc : c.isDigit = true := isDigit_of_mem (n := n) (h ▸ List.mem_cons_self)
  constructor
  · rintro rfl
    cases hc
  · rintro rfl
    cases hc

theorem toList_ofNat (n : Nat) : (ofNat n).toList = Nat.toDigits 10 n := String.toList_ofList

theorem toList_ofInt_of_neg {n : Int} (hn : n < 0) : (ofInt n).toList = '-' :: Nat.toDigits 10 n.natAbs := by
  rw [ofInt, if_pos hn, String.toList_append, toList_ofNat]
  rfl

theorem toList_ofInt_of_nonneg {n : Int} (hn : 0 ≤ n) : (ofInt n).toList = Nat.toDigits 10 n.natAbs := by
  rw [ofInt, if_neg (Int.not_lt.2 hn), toList_ofNat]

/-! ### Reading what is printed -/

theorem nat?_ofNat (n : Nat) : nat? (ofNat n).toList = some n := by
  rw [toList_ofNat]
  unfold nat?
  split
  · rename_i cs hcs
    exact absurd rfl (toDigits_head hcs).2
  · exact digits?_toDigits n

theorem int?_ofInt (n : Int) : int? (ofInt n).toList = some n := by
  by_cases hn : n < 0
  · have hneg : -(n.natAbs : Int) = n := by omega
    rw [toList_ofInt_of_neg hn, int?, digits?_toDigits]
    exact congrArg some hneg
  · have hpos : (n.natAbs : Int) = n := by omega
    rw [toList_ofInt_of_nonneg (Int.not_lt.1 hn)]
    unfold int?
    split
    · rename_i cs hcs
      exact absurd rfl (toDigits_head hcs).1
    · rename_i cs hcs
      exact absurd rfl (toDigits_head hcs).2
    · rw [digits?_toDigits]
      exact congrArg some hpos

theorem uint64?_ofNat (n : UInt64) : uint64? (ofNat n.toNat).toList = some n := by
  rw [uint64?, nat?_ofNat, Option.bind_some, Word.uint64?, if_pos n.toNat_lt, UInt64.ofNat_toNat]

theorem int64?_ofInt (n : Int64) : int64? (ofInt n.toInt).toList = some n := by
  rw [int64?, int?_ofInt, Option.bind_some, Word.int64?, if_pos ⟨n.minValue_le_toInt, n.toInt_le⟩, Int64.ofInt_toInt]

/-! ### Words -/

theorem plain_of_isDigit {c : Char} (hc : c.isDigit = true) : Text.isBlank c = false ∧ c ≠ '#' := by
  obtain ⟨hlow, hhigh⟩ := Char.isDigit_iff_toNat.1 hc
  have hzero : '0'.toNat = 48 := rfl
  have hnine : '9'.toNat = 57 := rfl
  constructor
  · simp [Text.isBlank]
    omega
  · rintro rfl
    cases hc

theorem isWord_toDigits (n : Nat) : IsWord (Nat.toDigits 10 n) :=
  ⟨Nat.toDigits_ne_nil, fun _ hc => plain_of_isDigit (isDigit_of_mem hc)⟩

theorem isWord_ofNat (n : Nat) : IsWord (ofNat n).toList := toList_ofNat n ▸ isWord_toDigits n

theorem isWord_ofInt (n : Int) : IsWord (ofInt n).toList := by
  have hdigits := isWord_toDigits n.natAbs
  by_cases hn : n < 0
  · rw [toList_ofInt_of_neg hn]
    exact ⟨List.cons_ne_nil _ _, List.forall_mem_cons.2 ⟨by decide, hdigits.2⟩⟩
  · rw [toList_ofInt_of_nonneg (Int.not_lt.1 hn)]
    exact hdigits

end Decimal

namespace Value

/-- The values that can be written in a program. -/
def IsLiteral (v : Value) : Prop := v.isFixnum = true ∨ v = .nil ∨ v = .true ∨ v = .false

/-- The text of a fixnum is the numeral of its integer. -/
theorem text_of_isFixnum {v : Value} (h : v.isFixnum = true) : ∃ n, ofInt? n = some v ∧ v.text = Decimal.ofInt n := by
  obtain ⟨n, hn⟩ := exists_ofInt?_of_isFixnum h
  refine ⟨n, hn, ?_⟩
  rw [text, toInt?_of_ofInt? hn]

/-- The integer of a fixnum is one of 64 bits. -/
theorem toInt_ofInt_of_ofInt? {n : Int} {v : Value} (h : ofInt? n = some v) : (Int64.ofInt n).toInt = n := by
  unfold ofInt? at h
  split at h
  · rename_i hrange
    simp only [minFixnum, maxFixnum] at hrange
    exact Int64.toInt_ofInt_of_le (by omega) (by omega)
  · cases h

theorem parse_text {v : Value} (h : v.IsLiteral) : parse v.text = .ok v := by
  rcases h with h | rfl | rfl | rfl
  · obtain ⟨n, hn, htext⟩ := text_of_isFixnum h
    have hint := toInt_ofInt_of_ofInt? hn
    have hread := Decimal.int64?_ofInt (Int64.ofInt n)
    -- a text that is no numeral is another text
    have hother : ∀ other, Decimal.int? other.toList = none → Decimal.ofInt n ≠ other := by
      rintro other hnone rfl
      rw [Decimal.int?_ofInt] at hnone
      cases hnone
    rw [hint] at hread
    rw [htext, parse, if_neg (hother _ rfl), if_neg (hother _ rfl), if_neg (hother _ rfl), hread]
    simp only [hint, hn]
  · rfl
  · rfl
  · rfl

theorem isWord_text {v : Value} (h : v.IsLiteral) : IsWord v.text.toList := by
  rcases h with h | rfl | rfl | rfl
  · obtain ⟨n, _, htext⟩ := text_of_isFixnum h
    rw [htext]
    exact Decimal.isWord_ofInt n
  · decide
  · decide
  · decide

end Value

end StackMachine
