import Mathlib
import StackMachine.Proofs.Activations

/-!
# Live calls

A frame stack stands for the calls that were entered and not left.  `run` performs pushes and pops on a frame stack and
keeps a list of those calls beside it; `Holds` says what the two arrays contain for such a list:

* one frame for each call, from the current one up to the root frame;
* one run of values for each call, its arguments and the header, the oldest at the bottom.

What is popped stays in the arrays and is overwritten by later pushes.  A push writes below the current frame and above
the last header only, so what belongs to a live call stays (`Holds.push`, `Holds.pop`, `run_holds`).
-/

namespace StackMachine.Native.FrameStack

/-- A call that was entered. -/
structure LiveCall where
  self : Value
  args : List Value
  method : UInt64
deriving DecidableEq, Repr

/-- Slots of the value array that calls take up. -/
def space (live : List LiveCall) : Nat := (live.map fun c => c.args.length + 1).sum

@[simp] theorem space_nil : space [] = 0 := rfl

@[simp] theorem space_cons (c : LiveCall) (live : List LiveCall) :
    space (c :: live) = c.args.length + 1 + space live := by
  simp [space]

/-- A call takes up its arguments and a header, above the calls that it was made from. -/
theorem space_drop {live : List LiveCall} {k : Nat} {c : LiveCall} (hk : live[k]? = some c) :
    space (live.drop k) = c.args.length + 1 + space (live.drop (k + 1)) := by
  obtain ⟨hlt, rfl⟩ := List.getElem?_eq_some_iff.1 hk
  rw [List.drop_eq_getElem_cons hlt, space_cons]

theorem space_drop_le (live : List LiveCall) (k : Nat) : space (live.drop k) ≤ space live := by
  induction live generalizing k with
  | nil => simp
  | cons c live ih =>
    cases k with
    | zero => exact Nat.le_refl _
    | succ k =>
      have := ih k
      rw [List.drop_succ_cons, space_cons]
      omega

inductive Op where
  | push (call : LiveCall)
  | pop
deriving DecidableEq, Repr

/-- Performs an operation and keeps account of the live calls, innermost first. -/
def step (state : FrameStack × List LiveCall) : Op → FrameStack × List LiveCall
  | .push c =>
    match state.1.push c.self c.args c.method with
    | some t => (t, c :: state.2)
    | none => state
  | .pop =>
    match state.1.pop with
    | some t => (t, state.2.tail)
    | none => state

def run (valueSlots frameSlots : Nat) (ops : List Op) : FrameStack × List LiveCall :=
  ops.foldl step (new valueSlots frameSlots, [])

/-- The two arrays hold the live calls. -/
structure Holds (s : FrameStack) (live : List LiveCall) : Prop where
  current : s.current + live.length + 1 = s.frames.size
  root : s.frames[s.current + live.length]? = some .empty
  frames : ∀ k c, live[k]? = some c →
    s.frames[s.current + k]? = some ⟨space (live.drop k), c.self, some (space (live.drop k) - 1), c.method⟩
  values : ∀ k c, live[k]? = some c → ∀ i, i ≤ c.args.length →
    s.values[space (live.drop (k + 1)) + i]? = (c.args ++ [envHeader])[i]?
  space_le : space live ≤ s.values.size

variable {s t : FrameStack} {live : List LiveCall} {c : LiveCall}

namespace Holds

theorem depth (h : s.Holds live) : s.depth = live.length := by
  have := h.current
  simp only [FrameStack.depth, FrameStack.root]
  omega

theorem frame_cons (h : s.Holds (c :: live)) :
    s.frame = ⟨space (c :: live), c.self, some (space (c :: live) - 1), c.method⟩ := by
  have hframe := h.frames 0 c rfl
  rw [Nat.add_zero, List.drop_zero] at hframe
  rw [frame, Array.getD_eq_getD_getElem?, hframe]
  rfl

/-- The first free slot is that after all live calls. -/
theorem sp (h : s.Holds live) : s.frame.sp = space live := by
  cases live with
  | nil =>
    have hroot := h.root
    rw [List.length_nil, Nat.add_zero] at hroot
    rw [frame, Array.getD_eq_getD_getElem?, hroot]
    rfl
  | cons c live => rw [h.frame_cons]

theorem push_eq_none (h : s.Holds live) :
    s.push c.self c.args c.method = none ↔
      live.length = s.frames.size - 1 ∨ s.values.size < space live + c.args.length + 1 := by
  have := h.current
  simp only [push, h.sp]
  split
  · rename_i hfull
    exact iff_of_true rfl (by omega)
  · rename_i hroom
    exact iff_of_false (Option.some_ne_none _) (by omega)

/-- The new frame and the new values are those of the new call; older ones are not touched. -/
theorem push (h : s.Holds live) (hp : s.push c.self c.args c.method = some t) : t.Holds (c :: live) := by
  have hcurrent := h.current
  have hcur := current_push hp
  have hsame := unchanged_push hp
  have hnew : ∀ i, i ≤ c.args.length → t.values[space live + i]? = (c.args ++ [envHeader])[i]? := by
    intro i hi
    rw [← h.sp]
    exact values_push hp hi
  obtain ⟨_, hroom, ht⟩ := push_eq_some hp
  have hframe : t.frames[t.current]? =
      some ⟨space (c :: live), c.self, some (space (c :: live) - 1), c.method⟩ := by
    have hspace : space (c :: live) = space live + c.args.length + 1 := by
      rw [space_cons]
      omega
    rw [ht, h.sp, hspace]
    exact Array.getElem?_setIfInBounds_self_of_lt (by omega)
  rw [h.sp] at hsame hroom
  refine ⟨?_, ?_, ?_, ?_, ?_⟩
  · rw [hsame.framesSize, List.length_cons, ← hcurrent]
    omega
  · have hindex : t.current + (c :: live).length = s.current + live.length := by
      rw [List.length_cons]
      omega
    rw [hindex, hsame.frames _ (by omega), h.root]
  · intro k d hk
    cases k with
    | zero =>
      cases hk
      exact hframe
    | succ k =>
      have hindex : t.current + (k + 1) = s.current + k := by omega
      rw [hindex, hsame.frames _ (by omega)]
      exact h.frames k d hk
  · intro k d hk i hi
    cases k with
    | zero =>
      cases hk
      exact hnew i hi
    | succ k =>
      replace hk : live[k]? = some d := hk
      have hlt : space (live.drop (k + 1)) + i < space live := by
        have := space_drop hk
        have := space_drop_le live k
        omega
      rw [List.drop_succ_cons, hsame.values _ hlt]
      exact h.values k d hk i hi
  · rw [hsame.valuesSize, space_cons]
    omega

/-- Only the current frame moves; everything that belongs to the remaining calls is where it was. -/
theorem pop (h : s.Holds live) (hp : s.pop = some t) : t.Holds live.tail := by
  have hdepth := h.depth
  have hcurrent := h.current
  simp only [FrameStack.pop] at hp
  split at hp
  · rename_i hpos
    cases hp
    cases live with
    | nil => simp at hdepth; omega
    | cons c live =>
      rw [List.length_cons] at hcurrent
      refine ⟨?_, ?_, ?_, ?_, ?_⟩
      · simp only [List.tail_cons]
        omega
      · have hroot := h.root
        rw [List.length_cons, ← Nat.add_assoc, Nat.add_right_comm] at hroot
        exact hroot
      · intro k d hk
        have hframe := h.frames (k + 1) d hk
        rw [← Nat.add_assoc, Nat.add_right_comm] at hframe
        exact hframe
      · intro k d hk
        exact h.values (k + 1) d hk
      · have hle := h.space_le
        rw [space_cons] at hle
        simp only [List.tail_cons]
        omega
  · cases hp

theorem new (valueSlots frameSlots : Nat) : (new valueSlots frameSlots).Holds [] := by
  refine ⟨?_, ?_, by simp, by simp, Nat.zero_le _⟩
  · simp only [FrameStack.new, List.length_nil, Array.size_replicate]
    omega
  · simp only [FrameStack.new, List.length_nil, Nat.add_zero]
    rw [Array.getElem?_replicate, if_pos (by omega)]

theorem step (h : s.Holds live) (op : Op) : (step (s, live) op).1.Holds (FrameStack.step (s, live) op).2 := by
  cases op with
  | push c =>
    simp only [FrameStack.step]
    split
    · rename_i t hp
      exact h.push hp
    · exact h
  | pop =>
    simp only [FrameStack.step]
    split
    · rename_i t hp
      exact h.pop hp
    · exact h

/-- The locals of the innermost call are its header and its arguments, the last one first. -/
theorem local? (h : s.Holds (c :: live)) {i : Nat} (hi : i ≤ c.args.length) :
    s.local? i = (c.args ++ [envHeader])[c.args.length - i]? := by
  have hvalue := h.values 0 c rfl (c.args.length - i) (Nat.sub_le _ _)
  have hslot : space (c :: live) - 1 - i = space live + (c.args.length - i) := by
    rw [space_cons]
    omega
  simp only [FrameStack.local?, h.frame_cons]
  rw [if_pos (by rw [space_cons]; omega), hslot]
  exact hvalue

end Holds

theorem size_step (s : FrameStack) (live : List LiveCall) (op : Op) :
    (step (s, live) op).1.values.size = s.values.size ∧ (step (s, live) op).1.frames.size = s.frames.size := by
  cases op with
  | push c =>
    simp only [step]
    split
    · rename_i t hp
      have hsame := unchanged_push hp
      exact ⟨hsame.valuesSize, hsame.framesSize⟩
    · exact ⟨rfl, rfl⟩
  | pop =>
    simp only [step, pop]
    by_cases hpos : 0 < s.depth
    · simp only [if_pos hpos, and_self]
    · simp only [if_neg hpos, and_self]

/-- However often calls are entered and left, the arrays keep their sizes and hold the live calls. -/
theorem run_holds (valueSlots frameSlots : Nat) (ops : List Op) :
    (run valueSlots frameSlots ops).1.Holds (run valueSlots frameSlots ops).2 ∧
      (run valueSlots frameSlots ops).1.values.size = max valueSlots 1 ∧
      (run valueSlots frameSlots ops).1.frames.size = max frameSlots 1 := by
  induction ops using List.reverseRecOn with
  | nil => exact ⟨.new valueSlots frameSlots, Array.size_replicate, Array.size_replicate⟩
  | append_singleton ops op ih =>
    obtain ⟨hholds, hvalues, hframes⟩ := ih
    obtain ⟨hvalues', hframes'⟩ := size_step (run valueSlots frameSlots ops).1 (run valueSlots frameSlots ops).2 op
    have hstep : run valueSlots frameSlots (ops ++ [op]) = step (run valueSlots frameSlots ops) op := by
      rw [run, List.foldl_append]
      rfl
    rw [hstep]
    exact ⟨hholds.step op, hvalues'.trans hvalues, hframes'.trans hframes⟩

/-- After any pushes and pops the frame stack is the list of live calls: its depth is their number, the locals of the
innermost call are its arguments, and each call has the frame that was set when it was entered.  A push is refused
exactly when one of the arrays is full, and then nothing changes. -/
theorem run_refines {valueSlots frameSlots : Nat} {ops : List Op} (hrun : run valueSlots frameSlots ops = (s, live)) :
    s.depth = live.length ∧
      (∀ c callers, live = c :: callers →
        s.local? 0 = some envHeader ∧
        ∀ i, 1 ≤ i → i ≤ c.args.length → s.local? i = c.args[c.args.length - i]?) ∧
      (∀ k c, live[k]? = some c →
        ∃ ep, ep + 1 = space (live.drop k) ∧ s.frames[s.current + k]? = some ⟨ep + 1, c.self, some ep, c.method⟩) ∧
      ∀ c : LiveCall,
        (s.push c.self c.args c.method = none ↔
          s.depth = max frameSlots 1 - 1 ∨ max valueSlots 1 < space live + (c.args.length + 1)) ∧
        (s.push c.self c.args c.method = none → step (s, live) (.push c) = (s, live)) := by
  obtain ⟨hholds, hvalues, hframes⟩ := run_holds valueSlots frameSlots ops
  rw [hrun] at hholds hvalues hframes
  simp only at hholds hvalues hframes
  refine ⟨hholds.depth, ?_, ?_, ?_⟩
  · rintro c callers rfl
    constructor
    · rw [hholds.local? (Nat.zero_le _), Nat.sub_zero, List.getElem?_concat_length]
    · intro i hpos hi
      rw [hholds.local? hi, List.getElem?_append_left (by omega)]
  · intro k c hk
    have hframe := hholds.frames k c hk
    have hspace := space_drop hk
    refine ⟨space (live.drop k) - 1, by omega, ?_⟩
    rw [hframe, Nat.sub_add_cancel (by omega)]
  · intro c
    constructor
    · rw [hholds.push_eq_none, hholds.depth, hvalues, hframes, Nat.add_assoc]
    · intro hnone
      simp only [step, hnone]

/-- On eight values and three frames a call in a call is left again, another one takes its place and is left too.  The
outer call still has its arguments, and there is no room for five more. -/
theorem run_refines_nested :
    ∃ s outer, run 8 3 [.push outer, .push ⟨.nil, [.ofInt 3], 1⟩, .pop, .push ⟨.true, [], 2⟩, .pop] = (s, [outer]) ∧
      outer.args = [.ofInt 1, .ofInt 2] ∧ s.depth = 1 ∧ s.local? 0 = some envHeader ∧ s.local? 2 = some (.ofInt 1) ∧
      s.push .nil (List.replicate 5 .nil) 3 = none := by
  have hrun : run 8 3 [.push ⟨.nil, [.ofInt 1, .ofInt 2], 0⟩, .push ⟨.nil, [.ofInt 3], 1⟩, .pop,
      .push ⟨.true, [], 2⟩, .pop] = (_, [⟨.nil, [.ofInt 1, .ofInt 2], 0⟩]) := rfl
  obtain ⟨hdepth, hlocals, _, hpush⟩ := run_refines hrun
  obtain ⟨hheader, hargs⟩ := hlocals _ _ rfl
  refine ⟨_, _, hrun, rfl, hdepth, hheader, hargs 2 (by decide) (by decide), ?_⟩
  exact (hpush ⟨.nil, List.replicate 5 .nil, 3⟩).1.2 (.inr (by decide))

end StackMachine.Native.FrameStack
