import Mathlib
import StackMachine.Proofs.InterpreterRuns

/-!
# The limits of interpreted calls

The limits of a call cut it off and have no other effect.  No instruction looks at the room that is left for further
calls (`step_withRoom`), so with more room every instruction does what it did before; only where there was no room, or
where no further instruction was allowed, can a call go on.

* `Pending.deepened`: a call in progress whose activations all have more room.  It proceeds as before
  (`Proceeds.deepened`).
* `call_raised`: a call that is not cut off ends with the same outcome and the same count under higher limits.
* `call_stepLimit_iff`: the count tells whether the limit of instructions was reached.
* `call_resumed`: a call that goes on from an earlier count does what it would do from the start.
-/

namespace StackMachine

/-- Faults that lie in the limits and not in the program. -/
def Fault.IsLimit : Fault → Bool
  | .depthExceeded _ | .stepLimit _ => true
  | _ => false

/-- The fault with another limit of instructions, if it names one. -/
def Fault.withStepLimit (limit : Nat) : Fault → Fault
  | .stepLimit _ => .stepLimit limit
  | f => f

/-! ### Instructions and the room for calls -/

namespace Activation

def withRoom (a : Activation) (room : Nat) : Activation := { a with room := room }

end Activation

/-- The step with another room for the activation that goes on or waits. -/
def Step.withRoom (room : Nat) : Step → Step
  | .next a => .next (a.withRoom room)
  | .call waiting callee receiver args => .call (waiting.withRoom room) callee receiver args
  | .result v => .result v
  | .fault f => .fault f

namespace Activation

variable {a b : Activation} {f : Fault}

private theorem jump_withRoom (a : Activation) (room : Nat) (i : Insn) (offset : Int64) (stack : List Value) :
    (a.withRoom room).jump i offset stack = (a.jump i offset stack).withRoom room := by
  simp only [jump, withRoom, apply_ite (Step.withRoom room)]
  rfl

private theorem binary_withRoom (a : Activation) (room : Nat) (i : Insn) (f : Value → Value → Except Fault Value) :
    (a.withRoom room).binary i f = (a.binary i f).withRoom room := by
  simp only [binary, withRoom]
  split
  · split
    · rfl
    · rfl
  · rfl

private theorem send_withRoom (a : Activation) (room : Nat) (i : Insn) (idx : UInt64) :
    (a.withRoom room).send i idx = (a.send i idx).withRoom room := by
  simp only [send, withRoom]
  split
  · rfl
  split
  · rfl
  split
  · rfl
  · rfl

private theorem exec_withRoom (a : Activation) (room : Nat) (i : Insn) :
    (a.withRoom room).exec i = (a.exec i).withRoom room := by
  cases i with
  | nop | putNil | putSelf | putObject | putZero | putOne => rfl
  | getLocal idx =>
    have hslot : (a.withRoom room).localSlot? idx = a.localSlot? idx := rfl
    simp only [exec, hslot]
    cases a.localSlot? idx with
    | none => rfl
    | some slot => rfl
  | setLocal idx =>
    have hslot : (a.withRoom room).localSlot? idx = a.localSlot? idx := rfl
    have hstack : (a.withRoom room).stack = a.stack := rfl
    simp only [exec, hslot, hstack]
    cases a.localSlot? idx with
    | none => rfl
    | some slot =>
      cases a.stack with
      | nil => rfl
      | cons v stack => rfl
  | dup | pop | leave =>
    simp only [exec, withRoom]
    split
    · rfl
    · rfl
  | plus | minus | mult | less => exact binary_withRoom a room _ _
  | jump offset => exact jump_withRoom a room _ offset a.stack
  | branchIf offset =>
    simp only [exec, withRoom]
    split
    · split
      · exact jump_withRoom a room _ offset _
      · rfl
    · rfl
  | send idx => exact send_withRoom a room _ idx

/-- No instruction looks at the room for further calls. -/
theorem step_withRoom (a : Activation) (room : Nat) : (a.withRoom room).step = a.step.withRoom room := by
  unfold step
  cases hi : Insn.decode a.method.code a.pc with
  | ok i =>
    simp only [withRoom, hi]
    exact exec_withRoom a room i
  | error e =>
    simp only [withRoom, hi]
    rfl

private theorem step_eq_withRoom (a : Activation) : a.step = a.step.withRoom a.room := step_withRoom a a.room

theorem room_of_next (h : a.step = .next b) : b.room = a.room := by
  have hroom := a.step_eq_withRoom
  rw [h] at hroom
  have hb : b = b.withRoom a.room := Step.next.inj hroom
  rw [hb]
  rfl

theorem room_of_call {callee : Nat} {receiver : Value} {args : List Value} (h : a.step = .call b callee receiver args) :
    b.room = a.room := by
  have hroom := a.step_eq_withRoom
  rw [h] at hroom
  have hb : b = b.withRoom a.room := (Step.call.inj hroom).1
  rw [hb]
  rfl

end Activation

namespace Interpreter

variable {p : Program} {limits limits' : Limits} {left steps n id room k : Nat} {c c₁ : Pending} {self : Value}
  {args : List Value} {f : Fault} {outcome : Except Fault Value}

/-! ### More room -/

theorem enter_deepened (h : ∀ f, enter p limits room id self args = .error f → f.IsLimit = false) (limits' : Limits)
    (k : Nat) :
    enter p limits' (room + k) id self args =
      (enter p limits room id self args).map fun top => top.withRoom (top.room + k) := by
  cases room with
  | zero => exact absurd (h _ rfl) (by simp [Fault.IsLimit])
  | succ room =>
    rw [Nat.succ_add]
    simp only [enter]
    cases p.method? id with
    | none => rfl
    | some m =>
      simp only
      split
      · rfl
      · rfl

/-- The call in progress with more room for further calls. -/
def Pending.deepened (c : Pending) (k : Nat) : Pending :=
  ⟨c.waiting.map fun a => a.withRoom (a.room + k), c.top.withRoom (c.top.room + k)⟩

/-- With more room an instruction leads to the same, unless it was refused for want of room. -/
theorem advance_deepened (h : ∀ f, advance p limits c = .error (.error f) → f.IsLimit = false) (limits' : Limits)
    (k : Nat) : advance p limits' (c.deepened k) = (advance p limits c).map fun c => c.deepened k := by
  have hroom := c.top.step_withRoom (c.top.room + k)
  simp only [advance, Pending.deepened, hroom] at h ⊢
  cases hstep : c.top.step with
  | next top => simp only [Step.withRoom, Except.map, Activation.room_of_next hstep]
  | call caller callee receiver params =>
    simp only [hstep] at h
    have henter : enter p limits' (caller.room + k) callee receiver params = _ :=
      enter_deepened (fun f hf => h f (by rw [hf])) limits' k
    rw [Activation.room_of_call hstep] at henter h
    simp only [Step.withRoom, Activation.withRoom, Activation.room_of_call hstep, henter]
    cases enter p limits c.top.room callee receiver params with
    | error e => rfl
    | ok top => simp only [Except.map, List.map_cons, Activation.room_of_call hstep]
  | result v =>
    cases c.waiting with
    | nil => rfl
    | cons caller waiting => rfl
  | fault e => rfl

theorem Proceeds.deepened (h : Proceeds p limits n c c₁) (limits' : Limits) (k : Nat) :
    Proceeds p limits' n (c.deepened k) (c₁.deepened k) := by
  induction h with
  | refl c => exact .refl _
  | step hdone hnext _ ih =>
    refine .step hdone ?_ ih
    have hsame := advance_deepened (fun f hf => by rw [hnext] at hf; cases hf) limits' k
    rw [hsame, hnext]
    rfl

/-- A run that is not cut off is the same run with more room and more instructions. -/
theorem run_raised {left' : Nat} (hle : left ≤ left')
    (h : ∀ f, (c.run p limits left steps).outcome = .error f → f.IsLimit = false) (limits' : Limits) (k : Nat) :
    (c.deepened k).run p limits' left' steps = c.run p limits left steps := by
  obtain ⟨n, c₁, hproceeds, hn, hend⟩ := run_ends p limits left steps c
  have hsplit : left' = left' - n + n := by omega
  have hrun : (c.deepened k).run p limits' left' steps = (c₁.deepened k).run p limits' (left' - n) (steps + n) := by
    rw [hsplit, run_proceeds (hproceeds.deepened limits' k), Nat.add_sub_cancel]
  rw [hrun]
  rcases hend with ⟨hdone, heq⟩ | ⟨_, _, heq⟩ | ⟨hdone, hlt, outcome, hstop, heq⟩
  · rw [heq]
    exact run_done hdone
  · rw [heq] at h
    exact absurd (h _ rfl) (by simp [Fault.IsLimit])
  · rw [heq] at h
    have hleft : left' - n = left' - n - 1 + 1 := by omega
    have hstop' : advance p limits' (c₁.deepened k) = .error outcome := by
      rw [advance_deepened (fun f hf => h f (by rw [hstop] at hf; exact Except.error.inj hf)) limits' k, hstop]
      rfl
    rw [heq, hleft, run_succ (c := c₁.deepened k) hdone, hstop']

theorem call_raised (hdepth : limits.depth ≤ limits'.depth) (hsteps : limits.steps ≤ limits'.steps)
    (h : ∀ f, (call p limits steps id self args).outcome = .error f → f.IsLimit = false) :
    call p limits' steps id self args = call p limits steps id self args := by
  obtain ⟨k, hk⟩ := Nat.exists_eq_add_of_le hdepth
  simp only [call, hk] at h ⊢
  have henter : enter p limits' (limits.depth + k) id self args =
      (enter p limits limits.depth id self args).map fun top => top.withRoom (top.room + k) :=
    enter_deepened (fun f hf => h f (by rw [hf])) limits' k
  rw [henter]
  cases hroot : enter p limits limits.depth id self args with
  | error e => rfl
  | ok top =>
    simp only [hroot] at h
    exact run_raised (c := ⟨[], top⟩) (by omega) h limits' k

/-! ### The count of instructions -/

private theorem enter_ne_stepLimit {limit : Nat} : enter p limits room id self args ≠ .error (.stepLimit limit) := by
  intro h
  rcases enter_error h with h | h | ⟨m, _, h⟩
  · cases h
  · cases h
  · cases h

private theorem advance_ne_stepLimit {limit : Nat} : advance p limits c ≠ .error (.error (.stepLimit limit)) := by
  intro h
  rcases advance_error h with hstep | ⟨_, _, _, _, henter⟩
  · cases Activation.step_faults hstep
  · exact enter_ne_stepLimit henter

/-- The count passes the limit by one exactly if the limit is what ends the call. -/
theorem call_stepLimit_iff (p : Program) (limits : Limits) (id : Nat) (self : Value) (args : List Value) :
    (call p limits 0 id self args).steps ≤ limits.steps + 1 ∧
      ((call p limits 0 id self args).outcome = .error (.stepLimit limits.steps) ↔
        (call p limits 0 id self args).steps = limits.steps + 1) := by
  rcases call_ends p limits 0 id self args with ⟨e, henter, hcall⟩ | ⟨name, count, _, hle, hcall⟩ | hcall |
    ⟨n, c, outcome, hcomes, hend, hcall⟩
  · rw [hcall]
    refine ⟨Nat.zero_le _, iff_of_false (fun h => ?_) (Nat.succ_ne_zero _).symm⟩
    cases h
    exact enter_ne_stepLimit henter
  · rw [hcall]
    simp only [Nat.zero_max] at hle
    exact ⟨hle.trans (Nat.le_succ _), iff_of_false (by simp) (Nat.lt_succ_of_le hle).ne⟩
  · rw [hcall, Nat.zero_max]
    exact ⟨le_rfl, iff_of_true rfl rfl⟩
  · rw [hcall]
    have hlt := hcomes.within
    simp only [Nat.sub_zero, Nat.zero_add] at hlt ⊢
    refine ⟨by omega, iff_of_false (fun h => ?_) (by omega)⟩
    rw [h] at hend
    exact advance_ne_stepLimit hend

/-- A call that neither limit cuts off has the same outcome and the same count of instructions under all higher limits;
and every call ends, with a count that passes the limit by one exactly if the limit is what ends it. -/
theorem call_cut_off_only (p : Program) (limits : Limits) (id : Nat) (self : Value) (args : List Value) :
    ((∀ limit, (call p limits 0 id self args).outcome ≠ .error (.stepLimit limit)) →
      (∀ limit, (call p limits 0 id self args).outcome ≠ .error (.depthExceeded limit)) →
      ∀ limits' : Limits, limits.depth ≤ limits'.depth → limits.steps ≤ limits'.steps →
        call p limits' 0 id self args = call p limits 0 id self args) ∧
    (call p limits 0 id self args).steps ≤ limits.steps + 1 ∧
    ((call p limits 0 id self args).outcome = .error (.stepLimit limits.steps) ↔
      (call p limits 0 id self args).steps = limits.steps + 1) := by
  refine ⟨fun hsteps hdepth limits' hd hs => call_raised hd hs fun f hf => ?_, call_stepLimit_iff p limits id self args⟩
  cases f with
  | stepLimit limit => exact absurd hf (hsteps limit)
  | depthExceeded limit => exact absurd hf (hdepth limit)
  | _ => rfl

/-- Calls itself with one less until its argument is zero. -/
def countdown : Program :=
  ⟨#[((((((((((((Draft.empty.insn (.getLocal 1)).insn .putOne).insn .less).insn (.branchIf 8)).insn .putSelf).insn
    (.getLocal 1)).insn .putOne).insn .minus).send ⟨0, 1⟩).insn .leave).insn (.getLocal 1)).insn .leave).method
    "countdown" 1]⟩

/-- From two, three calls and 26 instructions are just enough; with more of both nothing changes. -/
theorem call_cut_off_only_countdown :
    (call countdown ⟨3, 26⟩ 0 0 .nil [.ofInt 2]).outcome = .ok (.ofInt 0) ∧
      (∀ limits' : Limits, 3 ≤ limits'.depth → 26 ≤ limits'.steps →
        (call countdown limits' 0 0 .nil [.ofInt 2]).outcome = .ok (.ofInt 0) ∧
          (call countdown limits' 0 0 .nil [.ofInt 2]).steps = 26) ∧
      (call countdown ⟨3, 25⟩ 0 0 .nil [.ofInt 2]).outcome = .error (.stepLimit 25) := by
  have houtcome : (call countdown ⟨3, 26⟩ 0 0 .nil [.ofInt 2]).outcome = .ok (.ofInt 0) := by decide +kernel
  have hsteps : (call countdown ⟨3, 26⟩ 0 0 .nil [.ofInt 2]).steps = 26 := by decide +kernel
  obtain ⟨hraised, _, _⟩ := call_cut_off_only countdown ⟨3, 26⟩ 0 .nil [.ofInt 2]
  obtain ⟨_, _, hlimit⟩ := call_cut_off_only countdown ⟨3, 25⟩ 0 .nil [.ofInt 2]
  refine ⟨houtcome, fun limits' hd hs => ?_, hlimit.2 (by decide +kernel)⟩
  have hsame := hraised (by simp [houtcome]) (by simp [houtcome]) limits' hd hs
  rw [hsame]
  exact ⟨houtcome, hsteps⟩

/-! ### Going on from an earlier count -/

private theorem mapError_of_ne {g : Fault → Fault} (h : ∀ f, outcome = .error f → g f = f) :
    outcome.mapError g = outcome := by
  cases outcome with
  | ok v => rfl
  | error f => exact congrArg Except.error (h f rfl)

private theorem withStepLimit_of_ne {limit : Nat} (h : ∀ limit, f ≠ .stepLimit limit) : f.withStepLimit limit = f := by
  cases f with
  | stepLimit limit => exact absurd rfl (h limit)
  | _ => rfl

/-- Only the fault for too many calls names the limits. -/
private theorem advance_of_depth (h : limits'.depth = limits.depth) : advance p limits' c = advance p limits c := by
  simp only [advance, enter, h]

/-- The run of a call that starts with a higher count. -/
private theorem run_resumed (hdepth : limits'.depth = limits.depth) (left steps count : Nat) (c : Pending) :
    c.run p limits left (steps + count) =
      ⟨(c.run p limits' left count).outcome.mapError (Fault.withStepLimit limits.steps),
        steps + (c.run p limits' left count).steps⟩ := by
  induction left generalizing count c with
  | zero =>
    cases hdone : c.top.done with
    | true =>
      rw [run_done hdone, run_done hdone]
      rfl
    | false =>
      rw [run_zero hdone, run_zero hdone]
      rfl
  | succ left ih =>
    cases hdone : c.top.done with
    | true =>
      rw [run_done hdone, run_done hdone]
      rfl
    | false =>
      rw [run_succ hdone, run_succ hdone, advance_of_depth hdepth]
      cases hnext : advance p limits c with
      | ok c₁ => exact ih (count + 1) c₁
      | error outcome =>
        have hsame : outcome.mapError (Fault.withStepLimit limits.steps) = outcome := by
          refine mapError_of_ne fun f hf => withStepLimit_of_ne fun limit heq => ?_
          rw [hf, heq] at hnext
          exact advance_ne_stepLimit hnext
        simp only [hsame, Nat.add_assoc]

theorem call_resumed (p : Program) (limits : Limits) (steps id : Nat) (self : Value) (args : List Value) :
    call p limits steps id self args =
      ⟨(call p ⟨limits.depth, limits.steps - steps⟩ 0 id self args).outcome.mapError
          (Fault.withStepLimit limits.steps),
        steps + (call p ⟨limits.depth, limits.steps - steps⟩ 0 id self args).steps⟩ := by
  have henter : enter p ⟨limits.depth, limits.steps - steps⟩ limits.depth id self args =
      enter p limits limits.depth id self args := rfl
  simp only [call, henter]
  cases hroot : enter p limits limits.depth id self args with
  | error e =>
    have hsame : e.withStepLimit limits.steps = e := by
      refine withStepLimit_of_ne fun limit heq => ?_
      rw [heq] at hroot
      exact enter_ne_stepLimit hroot
    simp only [Except.mapError, hsame, Nat.add_zero]
  | ok top =>
    have hdepth : Limits.depth ⟨limits.depth, limits.steps - steps⟩ = limits.depth := rfl
    exact run_resumed hdepth (limits.steps - steps) steps 0 ⟨[], top⟩

end Interpreter

end StackMachine
