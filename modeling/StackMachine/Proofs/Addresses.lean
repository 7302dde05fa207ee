import Mathlib
import StackMachine.Native.Machine

/-!
# Addresses of the frame stack

Generated code reaches the frame stack through addresses.  As long as both arrays lie in their regions (`Addressable`),
a displacement from a frame or a slot is again the address of a field or a slot, and loading and storing there is
reading and updating the field or the slot:

* `frameAddr_add`, `frameAddr_sub`, `slotAddr_add`, `slotAddr_sub`: moving by whole frames and slots;
* `load?_field`, `load?_slot`, `store?_field`, `store?_slot`, `store?_cfp`: what an access does.
-/

namespace StackMachine.Native

/-! ### Displacements -/

theorem disp_ofNat {n : Nat} (h : n < 0x80000000) : (Int32.ofNat n).toInt64.toUInt64 = UInt64.ofNat n := by
  have hn : (n : Int) ≤ Int32.maxValue.toInt := by
    rw [show Int32.maxValue.toInt = 0x7FFFFFFF from rfl]
    omega
  rw [Int32.toInt64_ofNat' hn, Int64.toUInt64_ofNat']

theorem disp_neg {n : Nat} (h : n ≤ 0x80000000) :
    (Int32.ofInt (-(n : Int))).toInt64.toUInt64 = -UInt64.ofNat n := by
  have hlo : Int32.minValue.toInt ≤ -(n : Int) := by
    rw [show Int32.minValue.toInt = -0x80000000 from rfl]
    omega
  have hhi : -(n : Int) ≤ Int32.maxValue.toInt := by
    rw [show Int32.maxValue.toInt = 0x7FFFFFFF from rfl]
    omega
  rw [Int32.toInt64_ofInt hlo hhi, Int64.ofInt_neg, Int64.toUInt64_neg, Int64.ofInt_eq_ofNat, Int64.toUInt64_ofNat']

namespace Layout

theorem frameAddr_add (index n : Nat) :
    frameAddr index + UInt64.ofNat (frameSize * n) = frameAddr (index + n) := by
  rw [frameAddr, frameAddr, ← UInt64.ofNat_add, Nat.mul_add, Nat.add_assoc]

theorem frameAddr_sub {index n : Nat} (h : n ≤ index) :
    frameAddr index - UInt64.ofNat (frameSize * n) = frameAddr (index - n) := by
  rw [← Nat.sub_add_cancel h, ← frameAddr_add (index - n) n, UInt64.add_sub_cancel, Nat.add_sub_cancel]

theorem slotAddr_add (slot n : Nat) : slotAddr slot + UInt64.ofNat (wordSize * n) = slotAddr (slot + n) := by
  rw [slotAddr, slotAddr, ← UInt64.ofNat_add, Nat.mul_add, Nat.add_assoc]

theorem slotAddr_sub {slot n : Nat} (h : n ≤ slot) :
    slotAddr slot + -UInt64.ofNat (wordSize * n) = slotAddr (slot - n) := by
  rw [← Nat.sub_add_cancel h, ← slotAddr_add (slot - n) n, Nat.add_sub_cancel, ← UInt64.sub_eq_add_neg,
    UInt64.add_sub_cancel]

end Layout

/-! ### The regions -/

namespace FrameStack

open Layout

/-- Both arrays lie in their regions. -/
structure Addressable (s : FrameStack) : Prop where
  frames : framesBase + frameSize * s.frames.size ≤ valuesBase
  values : valuesBase + wordSize * s.values.size < UInt64.size

/-- The frame array of a stack made for a depth is at most two thirds as large as its value array. -/
theorem addressable_forDepth {depth entryArgs : Nat} (h : (forDepth depth entryArgs).fits = true) :
    (forDepth depth entryArgs).Addressable := by
  simp only [fits, allocationLimit, forDepth, new, wordSize, frameSize, wordsPerFrame, Array.size_replicate,
    Bool.and_eq_true, decide_eq_true_eq] at h
  constructor
  · simp only [framesBase, valuesBase, frameSize, forDepth, new, wordsPerFrame, Array.size_replicate]
    omega
  · simp only [valuesBase, wordSize, forDepth, new, wordsPerFrame, Array.size_replicate, UInt64.size]
    omega

variable {s t : FrameStack}

theorem Addressable.congr (h : s.Addressable) (hf : t.frames.size = s.frames.size)
    (hv : t.values.size = s.values.size) : t.Addressable :=
  ⟨by rw [hf]; exact h.frames, by rw [hv]; exact h.values⟩

private theorem toNat_field (h : s.Addressable) {index offset : Nat} (hi : index < s.frames.size)
    (ho : offset < frameSize) :
    (frameAddr index + UInt64.ofNat offset).toNat = framesBase + frameSize * index + offset := by
  have := h.frames
  simp only [framesBase, frameSize, valuesBase] at *
  rw [frameAddr, ← UInt64.ofNat_add, UInt64.toNat_ofNat_of_lt']
  · rfl
  · simp only [framesBase, frameSize, UInt64.size]
    omega

private theorem toNat_slot (h : s.Addressable) {slot : Nat} (hs : slot ≤ s.values.size) :
    (slotAddr slot).toNat = valuesBase + wordSize * slot := by
  have := h.values
  simp only [wordSize, valuesBase] at *
  rw [slotAddr, UInt64.toNat_ofNat_of_lt']
  · rfl
  · simp only [valuesBase, wordSize]
    omega

private theorem field?_field (h : s.Addressable) {index offset : Nat} (hi : index < s.frames.size)
    (ho : offset < frameSize) : field? (frameAddr index + UInt64.ofNat offset) = some (index, offset) := by
  have := h.frames
  have hdiv : (framesBase + frameSize * index + offset - framesBase) / frameSize = index := by
    simp only [frameSize] at *
    omega
  have hmod : (framesBase + frameSize * index + offset - framesBase) % frameSize = offset := by
    simp only [frameSize] at *
    omega
  unfold field?
  rw [toNat_field h hi ho, if_pos (by simp only [framesBase, frameSize, valuesBase] at *; omega), hdiv, hmod]

private theorem field?_slot (h : s.Addressable) {slot : Nat} (hs : slot ≤ s.values.size) :
    field? (slotAddr slot) = none := by
  unfold field?
  rw [toNat_slot h hs, if_neg (by omega)]

/-- The first slot after the array has an address too: it is what `sp` holds when the array is full. -/
theorem slot?_slotAddr (h : s.Addressable) {slot : Nat} (hs : slot ≤ s.values.size) :
    slot? (slotAddr slot) = some slot := by
  unfold slot?
  rw [toNat_slot h hs, if_pos (by simp only [wordSize]; omega)]
  simp only [wordSize]
  congr 1
  omega

private theorem frameIndex?_frameAddr (h : s.Addressable) {index : Nat} (hi : index < s.frames.size) :
    frameIndex? (frameAddr index) = some index := by
  have hn : (frameAddr index + UInt64.ofNat 0).toNat = _ := toNat_field h hi (by decide)
  rw [show UInt64.ofNat 0 = 0 from rfl, UInt64.add_zero] at hn
  have := h.frames
  unfold frameIndex?
  rw [hn, if_pos (by simp only [framesBase, frameSize, valuesBase] at *; omega)]
  simp only [frameSize]
  congr 1
  omega

/-! ### Accesses -/

theorem load?_field (h : s.Addressable) {index offset : Nat} (hi : index < s.frames.size) (ho : offset < frameSize) :
    s.load? (frameAddr index + UInt64.ofNat offset) = s.frames[index].word? offset := by
  unfold load?
  rw [toNat_field h hi ho, field?_field h hi ho, if_neg (by simp only [framesBase, contextBase, cfp]; omega)]
  simp only [Array.getElem?_eq_getElem hi, Option.bind_some]

theorem load?_slot (h : s.Addressable) {slot : Nat} (hs : slot < s.values.size) :
    s.load? (slotAddr slot) = some s.values[slot].raw := by
  unfold load?
  rw [toNat_slot h hs.le, field?_slot h hs.le, slot?_slotAddr h hs.le,
    if_neg (by simp only [valuesBase, contextBase, cfp]; omega)]
  simp only [Array.getElem?_eq_getElem hs, Option.bind_some, Option.map_some]

theorem store?_cfp (h : s.Addressable) {index : Nat} (hi : index < s.frames.size) :
    s.store? (UInt64.ofNat contextBase + UInt64.ofNat cfp) (frameAddr index) = some { s with current := index } := by
  unfold store?
  rw [if_pos (by decide), frameIndex?_frameAddr h hi, Option.bind_some, if_pos hi]

theorem store?_field (h : s.Addressable) {index offset : Nat} (hi : index < s.frames.size) (ho : offset < frameSize)
    {w : UInt64} {f : Frame} (hf : s.frames[index].setWord? offset w = some f) :
    s.store? (frameAddr index + UInt64.ofNat offset) w =
      some { s with frames := s.frames.setIfInBounds index f } := by
  unfold store?
  rw [toNat_field h hi ho, field?_field h hi ho, if_neg (by simp only [framesBase, contextBase, cfp]; omega)]
  simp only [Array.getElem?_eq_getElem hi, Option.bind_some, hf, Option.map_some]

theorem store?_slot (h : s.Addressable) {slot : Nat} (hs : slot < s.values.size) (w : UInt64) :
    s.store? (slotAddr slot) w = some { s with values := s.values.setIfInBounds slot ⟨w⟩ } := by
  unfold store?
  rw [toNat_slot h hs.le, field?_slot h hs.le, slot?_slotAddr h hs.le,
    if_neg (by simp only [valuesBase, contextBase, cfp]; omega)]
  simp only [Option.bind_some, if_pos hs]

end FrameStack

end StackMachine.Native
