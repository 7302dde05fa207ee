import Mathlib
import StackMachine.Interpreter.Run

/-!
# Interpreted calls, instruction by instruction

A call in progress is the activation being executed and those that wait for it.  `advance` executes one instruction;
`Proceeds` is any number of them.  A run is nothing else: it proceeds until an instruction ends it, the stream has no
further instruction, or no further instruction may be executed (`run_ends`).

Along the way every activation has as many locals as its method (`Proceeds.fits`), so an index that passes the check of
the method's locals is that of a local.

`Activation.Faults` lists the faults that the next instruction can have, and `enter_error` those of a call that is not
begun; a run that an instruction ends has one of these (`advance_error`).
-/

namespace StackMachine

/-! ### One activation -/

/-- The step goes on with the method and the number of locals of the activation. -/
def Step.Keeps (a : Activation) : Step → Prop
  | .next b => b.method = a.method ∧ b.locals.length = a.locals.length
  | .call waiting _ _ _ => waiting.method = a.method ∧ waiting.locals.length = a.locals.length
  | .result _ => True
  | .fault _ => True

namespace Activation

variable {a : Activation} {i : Insn}

theorem keeps_advance (a : Activation) (i : Insn) (stack : List Value) : (a.advance i stack).Keeps a := ⟨rfl, rfl⟩

theorem keeps_jump (a : Activation) (i : Insn) (offset : Int64) (stack : List Value) :
    (a.jump i offset stack).Keeps a := by
  simp only [jump]
  split
  · trivial
  split
  · exact ⟨rfl, rfl⟩
  · trivial

theorem keeps_binary (a : Activation) (i : Insn) (f : Value → Value → Except Fault Value) :
    (a.binary i f).Keeps a := by
  unfold binary
  split
  · split
    · exact keeps_advance a i _
    · trivial
  · trivial

theorem keeps_send (a : Activation) (i : Insn) (idx : UInt64) : (a.send i idx).Keeps a := by
  unfold send
  split
  · trivial
  simp only
  split
  · trivial
  split
  · exact ⟨rfl, rfl⟩
  · trivial

theorem keeps_exec (a : Activation) (i : Insn) : (a.exec i).Keeps a := by
  cases i with
  | nop | putNil | putSelf | putObject | putZero | putOne => exact keeps_advance a _ _
  | getLocal idx =>
    simp only [exec]
    split
    · exact keeps_advance a _ _
    · trivial
  | setLocal idx =>
    simp only [exec]
    split
    · trivial
    · trivial
    · exact ⟨rfl, List.length_set⟩
  | dup =>
    simp only [exec]
    split
    · exact keeps_advance a _ _
    · trivial
  | pop =>
    simp only [exec]
    split
    · exact keeps_advance a _ _
    · trivial
  | plus | minus | mult | less => exact keeps_binary a _ _
  | jump offset => exact keeps_jump a _ offset _
  | branchIf offset =>
    simp only [exec]
    split
    · split
      · exact keeps_jump a _ offset _
      · exact keeps_advance a _ _
    · trivial
  | send idx => exact keeps_send a _ idx
  | leave =>
    simp only [exec]
    split
    · trivial
    · trivial

theorem keeps_step (a : Activation) : a.step.Keeps a := by
  unfold step
  split
  · exact keeps_exec a _
  · trivial

/-- The activation has the locals of its method. -/
def Fits (a : Activation) : Prop := a.locals.length = a.method.locals

theorem Fits.localSlot (h : a.Fits) {idx : UInt64} {slot : Nat} (hs : a.localSlot? idx = some slot) :
    slot < a.locals.length := by
  unfold localSlot? at hs
  split at hs
  · rename_i hrange
    cases hs
    rw [h]
    omega
  · cases hs

/-! ### Faults -/

/-- Where an offset leads.  It counts from the next instruction, and instructions with an offset have two words. -/
def target (a : Activation) (offset : Int64) : Int := (a.pc + 2 : Nat) + offset.toInt

/-- The next instruction is a jump, or a branch that is taken. -/
inductive Jumps (a : Activation) (offset : Int64) : Prop where
  | jump (hi : Insn.decode a.method.code a.pc = .ok (.jump offset))
  | branchIf {v : Value} {stack : List Value} (hi : Insn.decode a.method.code a.pc = .ok (.branchIf offset))
      (hs : a.stack = v :: stack) (hv : v.truthy = true)

/-- The next instruction is a `send` with that call site. -/
def Sends (a : Activation) (site : CallSite) : Prop :=
  ∃ idx, Insn.decode a.method.code a.pc = .ok (.send idx) ∧ a.method.site? idx = some site

/-- The next instruction forms a sum that leaves its range. -/
inductive Overflows (a : Activation) : Prop where
  | jump {offset : Int64} (h : a.Jumps offset) (htarget : Int64.maxValue.toInt < a.target offset)
  | send {site : CallSite} (h : a.Sends site) (hargc : site.argc.toNat + 1 = UInt64.size)

/-- The faults that the next instruction can have. -/
inductive Faults (a : Activation) : Fault → Prop where
  | decode (e : Insn.DecodeError) : Faults a (.decode e)
  | stackUnderflow : Faults a (.stackUnderflow a.method.name a.pc)
  | notFixnum (op : Opcode) (v : Value) : Faults a (.notFixnum op v)
  | badLocal (idx : UInt64) : Faults a (.badLocal a.method.name a.pc idx)
  | badCallSite (idx : UInt64) : Faults a (.badCallSite a.method.name idx)
  | jumpOutOfRange (target : Int) : Faults a (.jumpOutOfRange a.method.name a.pc target)
  | overflow (h : a.Overflows) : Faults a (.overflow .addition)

variable {f : Fault}

private theorem jump_faults {offset : Int64} {stack : List Value} (hi : i.size = 2) (hj : a.Jumps offset)
    (h : a.jump i offset stack = .fault f) : a.Faults f := by
  simp only [jump] at h
  split at h
  · rename_i htarget
    cases h
    rw [hi] at htarget
    exact .overflow (.jump hj htarget)
  split at h
  · cases h
  · cases h
    exact .jumpOutOfRange _

private theorem binary_faults {op : Opcode} {g : Value → Value → Value}
    (h : a.binary i (Value.arith op g) = .fault f) : a.Faults f := by
  simp only [binary] at h
  split at h
  · split at h
    · cases h
    · rename_i e he
      cases h
      simp only [Value.arith] at he
      split at he
      · cases he
        exact .notFixnum _ _
      split at he
      · cases he
        exact .notFixnum _ _
      · cases he
  · cases h
    exact .stackUnderflow

private theorem send_faults {idx : UInt64} (hi : Insn.decode a.method.code a.pc = .ok (.send idx))
    (h : a.send i idx = .fault f) : a.Faults f := by
  simp only [send] at h
  split at h
  · cases h
    exact .badCallSite _
  rename_i site hsite
  split at h
  · rename_i hargc
    cases h
    exact .overflow (.send ⟨idx, hi, hsite⟩ hargc)
  split at h
  · cases h
  · cases h
    exact .stackUnderflow

private theorem exec_faults (hi : Insn.decode a.method.code a.pc = .ok i) (h : a.exec i = .fault f) : a.Faults f := by
  cases i with
  | nop | putNil | putSelf | putObject | putZero | putOne => cases h
  | getLocal idx =>
    simp only [exec] at h
    split at h
    · cases h
    · cases h
      exact .badLocal _
  | setLocal idx =>
    simp only [exec] at h
    split at h
    · cases h
      exact .badLocal _
    · cases h
      exact .stackUnderflow
    · cases h
  | dup | pop | leave =>
    simp only [exec] at h
    split at h
    · cases h
    · cases h
      exact .stackUnderflow
  | plus | minus | mult | less => exact binary_faults h
  | jump offset => exact jump_faults rfl (.jump hi) h
  | branchIf offset =>
    simp only [exec] at h
    split at h
    · rename_i v stack hs
      split at h
      · rename_i hv
        exact jump_faults rfl (.branchIf hi hs hv) h
      · cases h
    · cases h
      exact .stackUnderflow
  | send idx => exact send_faults hi h

theorem step_faults (h : a.step = .fault f) : a.Faults f := by
  unfold step at h
  split at h
  · rename_i i hi
    exact exec_faults hi h
  · cases h
    exact .decode _

end Activation

/-! ### Calls in progress -/

namespace Interpreter

/-- The activation being executed and those that wait for it, innermost first. -/
structure Pending where
  waiting : List Activation
  top : Activation

/-- Executes one instruction: the call goes on, or it ends with a value or a fault. -/
def advance (p : Program) (limits : Limits) (c : Pending) : Except (Except Fault Value) Pending :=
  match c.top.step with
  | .next top => .ok ⟨c.waiting, top⟩
  | .call caller callee receiver args =>
    match enter p limits caller.room callee receiver args with
    | .ok top => .ok ⟨caller :: c.waiting, top⟩
    | .error e => .error (.error e)
  | .result v =>
    match c.waiting with
    | [] => .error (.ok v)
    | caller :: waiting => .ok ⟨waiting, caller.push v⟩
  | .fault e => .error (.error e)

/-- Instructions of the call lead from the one to the other, so many of them. -/
inductive Proceeds (p : Program) (limits : Limits) : Nat → Pending → Pending → Prop where
  | refl (c : Pending) : Proceeds p limits 0 c c
  | step {n : Nat} {c c₁ c₂ : Pending} (hdone : c.top.done = false) (h : advance p limits c = .ok c₁)
      (rest : Proceeds p limits n c₁ c₂) : Proceeds p limits (n + 1) c c₂

variable {p : Program} {limits : Limits} {left steps n id : Nat} {c c₁ c₂ : Pending} {self : Value} {args : List Value}

/-- The run of a call in progress. -/
abbrev Pending.run (p : Program) (limits : Limits) (left steps : Nat) (c : Pending) : Finished :=
  Interpreter.run p limits left steps c.waiting c.top

theorem run_done (h : c.top.done = true) :
    c.run p limits left steps = ⟨.error (.missingReturn c.top.method.name), steps⟩ := by
  unfold Pending.run Interpreter.run
  rw [if_pos h]

theorem run_zero (h : c.top.done = false) : c.run p limits 0 steps = ⟨.error (.stepLimit limits.steps), steps + 1⟩ := by
  rw [Pending.run, Interpreter.run, if_neg (by simp [h])]

theorem run_succ (h : c.top.done = false) :
    c.run p limits (left + 1) steps =
      match advance p limits c with
      | .ok c => c.run p limits left (steps + 1)
      | .error outcome => ⟨outcome, steps + 1⟩ := by
  rw [Pending.run, Interpreter.run, if_neg (by simp [h])]
  simp only [advance]
  cases c.top.step with
  | next top => rfl
  | call caller callee receiver args =>
    cases henter : enter p limits caller.room callee receiver args with
    | error e => simp only [henter]
    | ok top => simp only [henter]
  | result v =>
    cases c.waiting with
    | nil => rfl
    | cons caller waiting => rfl
  | fault e => rfl

theorem run_proceeds (h : Proceeds p limits n c c₁) (left steps : Nat) :
    c.run p limits (left + n) steps = c₁.run p limits left (steps + n) := by
  induction h generalizing steps with
  | refl c => rfl
  | @step n c c₁ c₂ hdone h _ ih =>
    have hone : c.run p limits (left + n + 1) steps = c₁.run p limits (left + n) (steps + 1) := by
      rw [run_succ hdone, h]
    rw [← Nat.add_assoc, hone, ih, Nat.add_assoc, Nat.add_comm 1]

/-- A run ends where the stream ends, where no further instruction may be executed, or with an instruction. -/
theorem run_ends (p : Program) (limits : Limits) (left steps : Nat) (c : Pending) :
    ∃ n c₁, Proceeds p limits n c c₁ ∧ n ≤ left ∧
      (c₁.top.done = true ∧ c.run p limits left steps = ⟨.error (.missingReturn c₁.top.method.name), steps + n⟩ ∨
        c₁.top.done = false ∧ n = left ∧
          c.run p limits left steps = ⟨.error (.stepLimit limits.steps), steps + n + 1⟩ ∨
        c₁.top.done = false ∧ n < left ∧
          ∃ outcome, advance p limits c₁ = .error outcome ∧ c.run p limits left steps = ⟨outcome, steps + n + 1⟩) := by
  induction left generalizing steps c with
  | zero =>
    refine ⟨0, c, .refl c, le_rfl, ?_⟩
    cases hdone : c.top.done with
    | true => exact .inl ⟨rfl, run_done hdone⟩
    | false => exact .inr (.inl ⟨rfl, rfl, run_zero hdone⟩)
  | succ left ih =>
    cases hdone : c.top.done with
    | true => exact ⟨0, c, .refl c, Nat.zero_le _, .inl ⟨hdone, run_done hdone⟩⟩
    | false =>
      have hrun : c.run p limits (left + 1) steps = _ := run_succ hdone
      cases hnext : advance p limits c with
      | error outcome =>
        rw [hnext] at hrun
        exact ⟨0, c, .refl c, Nat.zero_le _, .inr (.inr ⟨hdone, Nat.succ_pos _, outcome, hnext, hrun⟩)⟩
      | ok c₁ =>
        rw [hnext] at hrun
        obtain ⟨n, c₂, hproceeds, hle, hend⟩ := ih (steps + 1) c₁
        refine ⟨n + 1, c₂, .step hdone hnext hproceeds, Nat.succ_le_succ hle, ?_⟩
        have hcount : steps + 1 + n = steps + (n + 1) := by omega
        rw [hrun, ← hcount]
        rcases hend with h | ⟨hdone₂, rfl, h⟩ | ⟨hdone₂, hlt, outcome, h⟩
        · exact .inl h
        · exact .inr (.inl ⟨hdone₂, rfl, h⟩)
        · exact .inr (.inr ⟨hdone₂, Nat.succ_lt_succ hlt, outcome, h⟩)

/-! ### Locals -/

/-- All activations have the locals of their methods. -/
def Pending.Fits (c : Pending) : Prop := ∀ a ∈ c.top :: c.waiting, a.Fits

theorem enter_eq_ok {room : Nat} {top : Activation} (h : enter p limits room id self args = .ok top) : top.Fits := by
  unfold enter at h
  split at h
  · cases h
  split at h
  · cases h
  split at h
  · rename_i hargs
    cases h
    exact hargs
  · cases h

/-- The faults of a call that is not begun. -/
theorem enter_error {room : Nat} {f : Fault} (h : enter p limits room id self args = .error f) :
    f = .depthExceeded limits.depth ∨ f = .unknownMethod id ∨
      ∃ m, p.method? id = some m ∧ f = .arity m.name m.locals args.length := by
  unfold enter at h
  split at h
  · cases h
    exact .inl rfl
  split at h
  · cases h
    exact .inr (.inl rfl)
  rename_i m hm
  split at h
  · cases h
  · cases h
    exact .inr (.inr ⟨m, hm, rfl⟩)

/-- A fault that ends a run is that of an instruction, or of a call that is not begun. -/
theorem advance_error {f : Fault} (h : advance p limits c = .error (.error f)) :
    c.top.step = .fault f ∨ ∃ room id self args, enter p limits room id self args = .error f := by
  unfold advance at h
  split at h
  · cases h
  · split at h
    · cases h
    · rename_i e henter
      cases h
      exact .inr ⟨_, _, _, _, henter⟩
  · split at h
    · cases h
    · cases h
  · rename_i e hstep
    cases h
    exact .inl hstep

theorem advance_fits (hc : c.Fits) (h : advance p limits c = .ok c₁) : c₁.Fits := by
  have hkeeps := c.top.keeps_step
  obtain ⟨htop, hwaiting⟩ := List.forall_mem_cons.1 hc
  unfold advance at h
  split at h
  · rename_i top hstep
    cases h
    rw [hstep] at hkeeps
    refine List.forall_mem_cons.2 ⟨?_, hwaiting⟩
    exact hkeeps.2.trans (htop.trans (congrArg Method.locals hkeeps.1.symm))
  · rename_i caller callee receiver args hstep
    rw [hstep] at hkeeps
    have hcaller : caller.Fits := hkeeps.2.trans (htop.trans (congrArg Method.locals hkeeps.1.symm))
    split at h
    · rename_i top henter
      cases h
      exact List.forall_mem_cons.2 ⟨enter_eq_ok henter, List.forall_mem_cons.2 ⟨hcaller, hwaiting⟩⟩
    · cases h
  · split at h
    · cases h
    · rename_i caller waiting hw
      cases h
      rw [hw] at hwaiting
      obtain ⟨hcaller, hwaiting⟩ := List.forall_mem_cons.1 hwaiting
      exact List.forall_mem_cons.2 ⟨hcaller, hwaiting⟩
  · cases h

theorem Proceeds.fits (h : Proceeds p limits n c c₁) (hc : c.Fits) : c₁.Fits := by
  induction h with
  | refl c => exact hc
  | step _ hnext _ ih => exact ih (advance_fits hc hnext)

/-! ### Whole calls -/

/-- After `n` instructions the call is about to execute another one, which it may. -/
structure Comes (p : Program) (limits : Limits) (steps id : Nat) (receiver : Value) (args : List Value) (n : Nat)
    (c : Pending) : Prop where
  proceeds : ∃ top, enter p limits limits.depth id receiver args = .ok top ∧ Proceeds p limits n ⟨[], top⟩ c
  within : n < limits.steps - steps
  running : c.top.done = false

theorem Comes.fits (h : Comes p limits steps id self args n c) : c.Fits := by
  obtain ⟨top, henter, hproceeds⟩ := h.proceeds
  refine hproceeds.fits ?_
  intro a ha
  rw [List.mem_singleton.1 ha]
  exact enter_eq_ok henter

/-- The call ends with the instruction that it has come to, if that ends it. -/
theorem Comes.call_eq (h : Comes p limits steps id self args n c) {outcome : Except Fault Value}
    (hend : advance p limits c = .error outcome) : call p limits steps id self args = ⟨outcome, steps + n + 1⟩ := by
  obtain ⟨top, henter, hproceeds⟩ := h.proceeds
  obtain ⟨left, hleft⟩ := Nat.exists_eq_add_of_lt h.within
  have hsplit : limits.steps - steps = left + 1 + n := by omega
  simp only [call, henter, hsplit]
  exact (run_proceeds hproceeds (left + 1) steps).trans (by rw [run_succ h.running, hend])

/-- How calls end. -/
theorem call_ends (p : Program) (limits : Limits) (steps id : Nat) (self : Value) (args : List Value) :
    (∃ e, enter p limits limits.depth id self args = .error e ∧
        call p limits steps id self args = ⟨.error e, steps⟩) ∨
      (∃ name count, steps ≤ count ∧ count ≤ max steps limits.steps ∧
        call p limits steps id self args = ⟨.error (.missingReturn name), count⟩) ∨
      call p limits steps id self args = ⟨.error (.stepLimit limits.steps), max steps limits.steps + 1⟩ ∨
      ∃ n c outcome, Comes p limits steps id self args n c ∧ advance p limits c = .error outcome ∧
        call p limits steps id self args = ⟨outcome, steps + n + 1⟩ := by
  cases henter : enter p limits limits.depth id self args with
  | error e => exact .inl ⟨e, rfl, by simp only [call, henter]⟩
  | ok top =>
    right
    have hcall : call p limits steps id self args = Pending.run p limits (limits.steps - steps) steps ⟨[], top⟩ := by
      simp only [call, henter]
    rw [hcall]
    obtain ⟨n, c, hproceeds, hle, ⟨_, hrun⟩ | ⟨_, rfl, hrun⟩ | ⟨hdone, hlt, outcome, hend, hrun⟩⟩ :=
      run_ends p limits (limits.steps - steps) steps ⟨[], top⟩
    · exact .inl ⟨_, _, Nat.le_add_right _ _, by omega, hrun⟩
    · have hcount : steps + (limits.steps - steps) = max steps limits.steps := by omega
      rw [hcount] at hrun
      exact .inr (.inl hrun)
    · exact .inr (.inr ⟨n, c, outcome, ⟨⟨top, henter, hproceeds⟩, hlt, hdone⟩, hend, hrun⟩)

end Interpreter

end StackMachine
