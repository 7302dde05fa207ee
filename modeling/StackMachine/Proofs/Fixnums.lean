import Mathlib
import StackMachine.Value

/-!
# Fixnums and their integers

The word of the integer `n` is `2n + 1` modulo `2^64`.  It is odd, and for the integers of the fixnum range untagging it
gives back the integer.  Every odd word is the word of one of them: tagging and untagging are inverse to each other
(`toInt?_eq_some`).
-/

namespace StackMachine.Value

theorem toNat_raw_ofInt (n : Int) : ((ofInt n).raw.toNat : Int) = (2 * n + 1) % 2 ^ 64 := by
  have hnonneg : 0 ≤ (2 * n + 1) % 2 ^ 64 := Int.emod_nonneg _ (by decide)
  have hlt : (2 * n + 1) % 2 ^ 64 < 2 ^ 64 := Int.emod_lt_of_pos _ (by decide)
  rw [ofInt, UInt64.ofInt, UInt64.toNat_ofNat_of_lt' (by simp only [UInt64.size]; omega), Int.toNat_of_nonneg hnonneg]

theorem isFixnum_iff {v : Value} : v.isFixnum = true ↔ v.raw.toNat % 2 = 1 := by
  rw [isFixnum, beq_iff_eq, ← UInt64.toNat_inj, UInt64.toNat_mod]
  rfl

theorem isFixnum_ofInt (n : Int) : (ofInt n).isFixnum = true := by
  have hraw := toNat_raw_ofInt n
  rw [isFixnum_iff]
  omega

theorem toInt_raw (v : Value) : v.raw.toInt64.toInt = (v.raw.toNat : Int).bmod (2 ^ 64) :=
  BitVec.toInt_eq_toNat_bmod _

/-- As a signed number, the word of an integer in the fixnum range is `2n + 1` without a carry. -/
theorem toInt_raw_ofInt {n : Int} (h : minFixnum ≤ n ∧ n ≤ maxFixnum) :
    (ofInt n).raw.toInt64.toInt = 2 * n + 1 := by
  simp only [minFixnum, maxFixnum] at h
  have hraw := toNat_raw_ofInt n
  rw [toInt_raw, hraw, Int.bmod_def]
  omega

theorem toInt?_ofInt {n : Int} (h : minFixnum ≤ n ∧ n ≤ maxFixnum) : (ofInt n).toInt? = some n := by
  have hhalf : (2 * n + 1) / 2 = n := by omega
  rw [toInt?, if_pos (isFixnum_ofInt n), toInt_raw_ofInt h, hhalf]

/-- An integer that has a word of its own is the integer of that word. -/
theorem toInt?_of_ofInt? {n : Int} {v : Value} (h : ofInt? n = some v) : v.toInt? = some n := by
  unfold ofInt? at h
  split at h
  · rename_i hrange
    cases h
    exact toInt?_ofInt hrange
  · cases h

/-- Every odd word is the word of an integer. -/
theorem exists_ofInt?_of_isFixnum {v : Value} (h : v.isFixnum = true) : ∃ n, ofInt? n = some v := by
  have hodd := isFixnum_iff.1 h
  have hlt := v.raw.toNat_lt
  have hsigned := toInt_raw v
  rw [Int.bmod_def] at hsigned
  refine ⟨v.raw.toInt64.toInt / 2, ?_⟩
  have hrange : minFixnum ≤ v.raw.toInt64.toInt / 2 ∧ v.raw.toInt64.toInt / 2 ≤ maxFixnum := by
    simp only [minFixnum, maxFixnum]
    omega
  have hword := toNat_raw_ofInt (v.raw.toInt64.toInt / 2)
  have hraw : (ofInt (v.raw.toInt64.toInt / 2)).raw = v.raw := by
    rw [← UInt64.toNat_inj]
    omega
  rw [ofInt?, if_pos hrange]
  exact congrArg (fun raw => some (mk raw)) hraw

/-! ### The fixnum range -/

/-- The integers that have a word of their own. -/
def InRange (n : Int) : Prop := -2 ^ 62 ≤ n ∧ n < 2 ^ 62

theorem inRange_iff {n : Int} : InRange n ↔ minFixnum ≤ n ∧ n ≤ maxFixnum := by
  simp only [InRange, minFixnum, maxFixnum]
  omega

theorem isSome_ofInt? {n : Int} : (ofInt? n).isSome = true ↔ InRange n := by
  rw [inRange_iff, ofInt?]
  split <;> simp_all

theorem isSome_toInt? {v : Value} : v.toInt?.isSome = true ↔ v.raw.toNat % 2 = 1 := by
  rw [← isFixnum_iff, toInt?]
  split <;> simp_all

theorem ofInt?_of_inRange {n : Int} (h : InRange n) : ofInt? n = some (ofInt n) := if_pos (inRange_iff.1 h)

/-- Untagging is the inverse of tagging. -/
theorem toInt?_eq_some {v : Value} {n : Int} : v.toInt? = some n ↔ ofInt? n = some v := by
  refine ⟨fun h => ?_, toInt?_of_ofInt?⟩
  have hfix : v.isFixnum = true := by
    by_contra hfix
    rw [toInt?, if_neg hfix] at h
    cases h
  obtain ⟨n', hn'⟩ := exists_ofInt?_of_isFixnum hfix
  rw [toInt?_of_ofInt? hn'] at h
  cases h
  exact hn'

theorem inRange_of_toInt? {v : Value} {n : Int} (h : v.toInt? = some n) : InRange n :=
  isSome_ofInt?.1 (Option.isSome_of_eq_some (toInt?_eq_some.1 h))

theorem eq_ofInt_of_toInt? {v : Value} {n : Int} (h : v.toInt? = some n) : v = ofInt n := by
  have htag := toInt?_eq_some.1 h
  rw [ofInt?_of_inRange (inRange_of_toInt? h)] at htag
  exact (Option.some.inj htag).symm

end StackMachine.Value
