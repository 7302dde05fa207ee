import Mathlib
import StackMachine.Native.Frames

/-!
# Activations on the frame stack

The current frame is the activation of a call (`Activated`) when its receiver is in the frame and its arguments lie
below the header.  `push` makes one, and it leaves alone all older frames and all values below the caller's `sp`
(`Unchanged`), so activations further up survive whatever is pushed and popped below them.

A frame stack has `Room n` for a chain of calls when `n` frames and four words for each fit; a call takes away one.
-/

namespace StackMachine.Native.FrameStack

variable {s t u : FrameStack} {self : Value} {args : List Value} {method : UInt64}

/-! ### Updates -/

/-- The frame stack with another value array. -/
def withValues (s : FrameStack) (values : Array Value) : FrameStack := { s with values := values }

/-- The frame stack with another frame at an index. -/
def withFrame (s : FrameStack) (index : Nat) (f : Frame) : FrameStack :=
  { s with frames := s.frames.setIfInBounds index f }

/-- The frame stack with another current frame. -/
def withCurrent (s : FrameStack) (index : Nat) : FrameStack := { s with current := index }

/-- The frame stack with the caller's frame current. -/
def caller (s : FrameStack) : FrameStack := s.withCurrent (s.current + 1)

theorem withFrame_withFrame (s : FrameStack) (index : Nat) (f g : Frame) :
    (s.withFrame index f).withFrame index g = s.withFrame index g := by
  simp [withFrame]

theorem withFrame_eq_self {s : FrameStack} {index : Nat} {f : Frame} (h : s.frames[index]? = some f) :
    s.withFrame index f = s := by
  obtain ⟨hi, rfl⟩ := Array.getElem?_eq_some_iff.1 h
  rw [withFrame, Array.setIfInBounds, dif_pos hi, Array.set_getElem_self]

/-! ### Writing values -/

private theorem size_writeValues (values : Array Value) (slot : Nat) (vs : List Value) :
    (writeValues values slot vs).size = values.size := by
  induction vs generalizing values slot with
  | nil => rfl
  | cons v vs ih => rw [writeValues, ih, Array.size_setIfInBounds]

private theorem getElem?_writeValues_of_lt {values : Array Value} {slot k : Nat} {vs : List Value} (h : k < slot) :
    (writeValues values slot vs)[k]? = values[k]? := by
  induction vs generalizing values slot with
  | nil => rfl
  | cons v vs ih => rw [writeValues, ih (by omega), Array.getElem?_setIfInBounds_ne (by omega)]

private theorem getElem?_writeValues {values : Array Value} {slot i : Nat} {vs : List Value}
    (h : slot + vs.length ≤ values.size) (hi : i < vs.length) : (writeValues values slot vs)[slot + i]? = vs[i]? := by
  induction vs generalizing values slot i with
  | nil => simp at hi
  | cons v vs ih =>
    simp only [List.length_cons] at h hi
    rw [writeValues]
    cases i with
    | zero =>
      show (writeValues (values.setIfInBounds slot v) (slot + 1) vs)[slot]? = some v
      rw [getElem?_writeValues_of_lt (by omega), Array.getElem?_setIfInBounds_self_of_lt (by omega)]
    | succ i =>
      rw [show slot + (i + 1) = slot + 1 + i by omega, ih (by rw [Array.size_setIfInBounds]; omega) (by omega)]
      rfl

theorem writeValues_append (values : Array Value) (slot : Nat) (vs ws : List Value) :
    writeValues values slot (vs ++ ws) = writeValues (writeValues values slot vs) (slot + vs.length) ws := by
  induction vs generalizing values slot with
  | nil => rfl
  | cons v vs ih =>
    simp only [List.cons_append, writeValues, List.length_cons, ih]
    congr 1
    omega

/-! ### What stays -/

/-- The frames from `index` on and the values below `slot` are the same, and so are the sizes. -/
structure Unchanged (index slot : Nat) (s t : FrameStack) : Prop where
  framesSize : t.frames.size = s.frames.size
  valuesSize : t.values.size = s.values.size
  frames : ∀ i, index ≤ i → t.frames[i]? = s.frames[i]?
  values : ∀ k, k < slot → t.values[k]? = s.values[k]?

namespace Unchanged

variable {index slot index' slot' : Nat}

theorem refl (index slot : Nat) (s : FrameStack) : Unchanged index slot s s :=
  ⟨rfl, rfl, fun _ _ => rfl, fun _ _ => rfl⟩

theorem trans (h : Unchanged index slot s t) (h' : Unchanged index slot t u) : Unchanged index slot s u where
  framesSize := h'.framesSize.trans h.framesSize
  valuesSize := h'.valuesSize.trans h.valuesSize
  frames i hi := (h'.frames i hi).trans (h.frames i hi)
  values k hk := (h'.values k hk).trans (h.values k hk)

theorem mono (h : Unchanged index slot s t) (hi : index ≤ index') (hs : slot' ≤ slot) :
    Unchanged index' slot' s t where
  framesSize := h.framesSize
  valuesSize := h.valuesSize
  frames i hi' := h.frames i (hi.trans hi')
  values k hk := h.values k (hk.trans_le hs)

theorem frame (h : Unchanged index slot s t) (hc : t.current = s.current) (hi : index ≤ s.current) :
    t.frame = s.frame := by
  rw [FrameStack.frame, FrameStack.frame, hc, Array.getD_eq_getD_getElem?, Array.getD_eq_getD_getElem?, h.frames _ hi]

end Unchanged

theorem unchanged_writeValues (s : FrameStack) (index slot : Nat) (vs : List Value) :
    Unchanged index slot s (s.withValues (writeValues s.values slot vs)) :=
  ⟨rfl, size_writeValues _ _ _, fun _ _ => rfl, fun _ hk => getElem?_writeValues_of_lt hk⟩

theorem unchanged_withFrame (s : FrameStack) {index i : Nat} (h : i < index) (slot : Nat) (f : Frame) :
    Unchanged index slot s (s.withFrame i f) :=
  ⟨Array.size_setIfInBounds, rfl, fun _ hk => Array.getElem?_setIfInBounds_ne (by omega), fun _ _ => rfl⟩

/-! ### Room -/

/-- Room for a chain of `n` more calls, each with its arguments and header. -/
structure Room (n : Nat) (s : FrameStack) : Prop where
  frames : n ≤ s.current
  values : s.frame.sp + 4 * n + 1 ≤ s.values.size

theorem Room.mono {n n' : Nat} (h : Room n s) (hn : n' ≤ n) : Room n' s :=
  ⟨hn.trans h.frames, by have := h.values; omega⟩

theorem Room.congr {n : Nat} (h : Room n s) (hc : t.current = s.current) (hf : t.frame = s.frame)
    (hv : t.values.size = s.values.size) : Room n t :=
  ⟨by rw [hc]; exact h.frames, by rw [hf, hv]; exact h.values⟩

/-- A push succeeds as long as there is room. -/
theorem Room.push {n : Nat} (h : Room (n + 1) s) (self : Value) (method : UInt64) (ha : args.length ≤ 4) :
    ∃ t, s.push self args method = some t := by
  have hf := h.frames
  have hv := h.values
  refine ⟨_, if_neg ?_⟩
  omega

/-! ### Entering a call -/

/-- What a push that succeeds has checked and done. -/
theorem push_eq_some (h : s.push self args method = some t) :
    s.current ≠ 0 ∧ s.frame.sp + args.length + 1 ≤ s.values.size ∧
      t = ⟨writeValues s.values s.frame.sp (args ++ [envHeader]),
        s.frames.setIfInBounds (s.current - 1)
          ⟨s.frame.sp + args.length + 1, self, some (s.frame.sp + args.length), method⟩, s.current - 1⟩ := by
  simp only [push] at h
  split at h
  · cases h
  · rename_i hn
    cases h
    exact ⟨fun h0 => hn (.inl h0), by omega, rfl⟩

theorem current_push (h : s.push self args method = some t) : t.current + 1 = s.current := by
  obtain ⟨h0, _, rfl⟩ := push_eq_some h
  show s.current - 1 + 1 = s.current
  omega

theorem unchanged_push (h : s.push self args method = some t) : Unchanged s.current s.frame.sp s t := by
  obtain ⟨h0, _, rfl⟩ := push_eq_some h
  refine ⟨Array.size_setIfInBounds, size_writeValues _ _ _, ?_, fun k hk => getElem?_writeValues_of_lt hk⟩
  intro i hi
  exact Array.getElem?_setIfInBounds_ne (by omega)

theorem frame_push (h : s.push self args method = some t) (hc : s.current < s.frames.size) :
    t.frame = ⟨s.frame.sp + args.length + 1, self, some (s.frame.sp + args.length), method⟩ := by
  obtain ⟨h0, _, rfl⟩ := push_eq_some h
  rw [frame, Array.getD_eq_getD_getElem?, Array.getElem?_setIfInBounds_self_of_lt (by omega)]
  rfl

theorem Room.pushed {n : Nat} (h : Room (n + 1) s) (hp : s.push self args method = some t)
    (hc : s.current < s.frames.size) (ha : args.length ≤ 3) : Room n t := by
  have hf := h.frames
  have hv := h.values
  have := current_push hp
  refine ⟨by omega, ?_⟩
  rw [frame_push hp hc, (unchanged_push hp).valuesSize]
  show s.frame.sp + args.length + 1 + 4 * n + 1 ≤ s.values.size
  omega

/-- The arguments and the header lie at the caller's `sp`. -/
theorem values_push (h : s.push self args method = some t) {i : Nat} (hi : i ≤ args.length) :
    t.values[s.frame.sp + i]? = (args ++ [envHeader])[i]? := by
  obtain ⟨_, hs, rfl⟩ := push_eq_some h
  have hlen : (args ++ [envHeader]).length = args.length + 1 := by simp
  exact getElem?_writeValues (by omega) (by omega)

/-- The current frame is that of a call on a receiver and arguments. -/
structure Activated (s : FrameStack) (receiver : Value) (args : List Value) : Prop where
  current_lt : s.current < s.frames.size
  receiver_eq : s.frame.self = receiver
  ep_eq : s.frame.ep = some (s.frame.sp - 1)
  args_lt : args.length < s.frame.sp
  sp_le : s.frame.sp ≤ s.values.size
  args_eq : ∀ i, i < args.length → s.values[s.frame.sp - 1 - args.length + i]? = args[i]?

theorem activated_push (h : s.push self args method = some t) (hc : s.current < s.frames.size) :
    t.Activated self args := by
  have hf := frame_push h hc
  have hv := (unchanged_push h).valuesSize
  have hcur := current_push h
  obtain ⟨_, hs, _⟩ := push_eq_some h
  refine ⟨?_, by rw [hf], by rw [hf]; rfl, by rw [hf]; show args.length < _ + _ + 1; omega, ?_, ?_⟩
  · rw [(unchanged_push h).framesSize]
    omega
  · rw [hf, hv]
    exact hs
  · intro i hi
    have hslot : t.frame.sp - 1 - args.length + i = s.frame.sp + i := by
      rw [hf]
      show s.frame.sp + args.length + 1 - 1 - args.length + i = s.frame.sp + i
      omega
    rw [hslot, values_push h hi.le, List.getElem?_append_left hi]

/-- An activation survives what happens below its frame and above its values. -/
theorem Activated.congr (h : s.Activated self args) (hu : Unchanged s.current s.frame.sp s t)
    (hc : t.current = s.current) : t.Activated self args := by
  have hf := hu.frame hc (Nat.le_refl _)
  have := h.args_lt
  refine ⟨by rw [hc, hu.framesSize]; exact h.current_lt, by rw [hf]; exact h.receiver_eq, by rw [hf]; exact h.ep_eq,
    by rw [hf]; exact h.args_lt, by rw [hf, hu.valuesSize]; exact h.sp_le, ?_⟩
  intro i hi
  rw [hf, hu.values _ (by omega), h.args_eq i hi]

/-- The local with an index lies that many slots below the header. -/
theorem Activated.local (h : s.Activated self args) {n : Nat} (h1 : 1 ≤ n) (hn : n ≤ args.length) :
    s.values[s.frame.sp - 1 - n]? = args[args.length - n]? := by
  have := h.args_lt
  rw [← h.args_eq (args.length - n) (by omega)]
  congr 1
  omega

end StackMachine.Native.FrameStack
