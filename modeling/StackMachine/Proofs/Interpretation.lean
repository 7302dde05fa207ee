import Mathlib
import StackMachine.Interpreter.Run
import StackMachine.Proofs.WordEvaluation

/-!
# Interpretation and word evaluation

Word evaluation looks at no tag and counts nothing; the interpreter checks the operands of arithmetic and has limits.
Apart from that they do the same: where word evaluation gives a value, an interpreted call returns it, or it stops with
a fault that lies in the data or the limits (`Fault.Dynamic`).

* `exec_effect`: one instruction that is no call and no return.
* `run_body`: an activation in the middle of a method, by induction on what is left of the sweep.
* `call_returns`: whole calls, by induction on the nesting that word evaluation needs.
-/

namespace StackMachine

/-- Faults of a program that is in order: an operand is no fixnum, or a limit is reached. -/
inductive Fault.Dynamic : Fault → Prop where
  | notFixnum {op v} : Dynamic (.notFixnum op v)
  | depthExceeded {limit} : Dynamic (.depthExceeded limit)
  | stepLimit {limit} : Dynamic (.stepLimit limit)

/-! ### Sweeps -/

namespace Sweep

/-- The first instruction of a sweep is the one that is decoded where the sweep starts. -/
theorem ofCodeFrom_cons {code : Array UInt64} {pc pc' : Nat} {i : Insn} {rest : List (Nat × Insn)}
    (h : (ofCodeFrom code pc).insns = (pc', i) :: rest) :
    pc < code.size ∧ Insn.decode code pc = .ok i ∧ (ofCodeFrom code (pc + i.size)).insns = rest := by
  rw [ofCodeFrom] at h
  split at h
  · rename_i hlt
    split at h
    · rename_i i' hi
      simp only [List.cons.injEq, Prod.mk.injEq] at h
      obtain ⟨⟨_, rfl⟩, hrest⟩ := h
      exact ⟨hlt, hi, hrest⟩
    · simp at h
  · simp at h

end Sweep

/-! ### Single instructions -/

namespace Activation

variable {a : Activation} {args stack : List Value}

private theorem arith_cases (op : Opcode) (f : Value → Value → Value) (x y : Value) :
    Value.arith op f x y = .ok (f x y) ∨ ∃ w, Value.arith op f x y = .error (.notFixnum op w) := by
  unfold Value.arith
  split
  · exact .inr ⟨_, rfl⟩
  split
  · exact .inr ⟨_, rfl⟩
  · exact .inl rfl

private theorem binary_cases (i : Insn) (op : Opcode) (f : Value → Value → Value) {x y : Value} {below : List Value}
    (hs : a.stack = y :: x :: below) :
    a.binary i (Value.arith op f) = a.advance i (f x y :: below) ∨
      ∃ w, a.binary i (Value.arith op f) = .fault (.notFixnum op w) := by
  unfold binary
  simp only [hs]
  rcases arith_cases op f x y with h | ⟨w, h⟩
  · exact .inl (by rw [h])
  · exact .inr ⟨w, by rw [h]⟩

/-- An effect on the two topmost values needs two values. -/
private theorem combine_effect {f : List Value → Option (List Value)} {g : Value → Value → Value}
    (h₂ : ∀ y x below, f (y :: x :: below) = some (g x y :: below)) (h₁ : ∀ v, f [v] = none) (h₀ : f [] = none)
    {start : List Value} (h : f start = some stack) :
    ∃ y x below, start = y :: x :: below ∧ g x y :: below = stack := by
  match start with
  | [] =>
    rw [h₀] at h
    cases h
  | [v] =>
    rw [h₁] at h
    cases h
  | y :: x :: below =>
    rw [h₂] at h
    exact ⟨y, x, below, rfl, Option.some.inj h⟩

/-- An instruction with a word effect has that effect, or an operand is no fixnum. -/
theorem exec_effect (hl : a.locals = args) (hargs : args.length = a.method.locals) {i : Insn}
    (h : Words.effect a.self args i a.stack = some stack) :
    a.exec i = a.advance i stack ∨ ∃ op w, a.exec i = .fault (.notFixnum op w) := by
  cases i with
  | nop | putNil | putSelf | putObject | putZero | putOne =>
    cases h
    exact .inl rfl
  | getLocal idx =>
    replace h : (Words.local? args idx).map (· :: a.stack) = some stack := h
    obtain ⟨v, hv, rfl⟩ := Option.map_eq_some_iff.1 h
    unfold Words.local? at hv
    split at hv
    · rename_i hidx
      left
      have hslot : a.localSlot? idx = some (a.method.locals - idx.toNat) := by
        rw [localSlot?, ← hargs, if_pos hidx]
      have hget : args.getD (a.method.locals - idx.toNat) .nil = v := by
        rw [List.getD_eq_getElem?_getD, ← hargs, hv]
        rfl
      simp only [exec, hslot, hl, hget]
    · cases hv
  | dup =>
    cases hs : a.stack with
    | nil =>
      rw [hs] at h
      exact nomatch (show none = some stack from h)
    | cons v below =>
      rw [hs] at h
      cases h
      exact .inl (by simp only [exec, hs])
  | pop =>
    cases hs : a.stack with
    | nil =>
      rw [hs] at h
      exact nomatch (show none = some stack from h)
    | cons v below =>
      rw [hs] at h
      cases h
      exact .inl (by simp only [exec, hs])
  | plus =>
    obtain ⟨y, x, below, hs, rfl⟩ := combine_effect (fun _ _ _ => rfl) (fun _ => rfl) rfl h
    exact (binary_cases .plus .plus .add hs).imp_right fun ⟨w, hw⟩ => ⟨_, w, hw⟩
  | minus =>
    obtain ⟨y, x, below, hs, rfl⟩ := combine_effect (fun _ _ _ => rfl) (fun _ => rfl) rfl h
    exact (binary_cases .minus .minus .sub hs).imp_right fun ⟨w, hw⟩ => ⟨_, w, hw⟩
  | less =>
    obtain ⟨y, x, below, hs, rfl⟩ := combine_effect (fun _ _ _ => rfl) (fun _ => rfl) rfl h
    exact (binary_cases .less .less .less hs).imp_right fun ⟨w, hw⟩ => ⟨_, w, hw⟩
  | setLocal | mult | jump | branchIf | send | leave => exact nomatch (show none = some stack from h)

end Activation

/-! ### Calls -/

namespace Interpreter

variable {p : Program} {limits : Limits} {n : Nat} {method : Method} {self v : Value} {args : List Value}

/-- Hands the value of a call to the caller; without a caller the run ends. -/
def resume (p : Program) (limits : Limits) (left steps : Nat) (v : Value) : List Activation → Finished
  | [] => ⟨.ok v, steps⟩
  | caller :: waiting => run p limits left steps waiting (caller.push v)

/-- The activation returns a value to whoever waits for it, or the run ends with a dynamic fault. -/
def Returns (p : Program) (limits : Limits) (top : Activation) (v : Value) : Prop :=
  ∀ left steps waiting,
    (∃ f count, f.Dynamic ∧ run p limits left steps waiting top = ⟨.error f, count⟩) ∨
      ∃ left' steps', run p limits left steps waiting top = resume p limits left' steps' v waiting

/-- A call is entered and returns a value, or it meets a dynamic fault. -/
def Answers (p : Program) (limits : Limits) (id : Nat) (self : Value) (args : List Value) (v : Value) : Prop :=
  ∀ room, (∃ top, enter p limits room id self args = .ok top ∧ Returns p limits top v) ∨
    ∃ f, f.Dynamic ∧ enter p limits room id self args = .error f

/-- What is left of a method, from an instruction of its sweep on. -/
theorem run_body (hcalls : ∀ id self args v, Words.call p n id self args = some v → Answers p limits id self args v)
    (hargs : args.length = method.locals) {insns : List (Nat × Insn)} {pc : Nat} {stack : List Value} (room : Nat)
    (hi : (Sweep.ofCodeFrom method.code pc).insns = insns)
    (h : Words.run (Words.call p n) method self args insns stack = some v) :
    Returns p limits ⟨method, self, args, stack, pc, room⟩ v := by
  induction insns generalizing pc stack with
  | nil => simp [Words.run] at h
  | cons head rest ih =>
    obtain ⟨pc', i⟩ := head
    obtain ⟨hlt, hdecode, hrest⟩ := Sweep.ofCodeFrom_cons hi
    intro left steps waiting
    have hdone : Activation.done ⟨method, self, args, stack, pc, room⟩ = false := by
      simpa [Activation.done] using hlt
    have hstep : Activation.step ⟨method, self, args, stack, pc, room⟩ =
        Activation.exec ⟨method, self, args, stack, pc, room⟩ i := by
      simp only [Activation.step, hdecode]
    unfold run
    rw [hdone, if_neg (by simp)]
    cases left with
    | zero => exact .inl ⟨_, _, .stepLimit, rfl⟩
    | succ left =>
      simp only [hstep]
      rcases Words.run_cases h with ⟨rfl, hv⟩ | ⟨idx, site, receiver, below, w, rfl, hsite, hcount, hdrop, hw, hnext⟩ |
        ⟨stack', heff, hnext⟩
      · -- a return
        obtain ⟨below, rfl⟩ := List.head?_eq_some_iff.1 hv
        right
        cases waiting with
        | nil => exact ⟨left, steps + 1, rfl⟩
        | cons caller waiting => exact ⟨left, steps + 1, rfl⟩
      · -- a call, and then what is left after it
        have hsend : Activation.exec ⟨method, self, args, stack, pc, room⟩ (.send idx) =
            .call ⟨method, self, args, below, pc + (Insn.send idx).size, room⟩ site.callee receiver
              (stack.take site.argc.toNat).reverse := by
          simp only [Activation.exec, Activation.send, hsite, if_neg hcount, hdrop]
        simp only [hsend]
        rcases hcalls _ _ _ _ hw room with ⟨top, htop, hreturns⟩ | ⟨f, hf, hfault⟩
        · simp only [htop]
          rcases hreturns left (steps + 1)
            (⟨method, self, args, below, pc + (Insn.send idx).size, room⟩ :: waiting) with
            hfault | ⟨left', steps', hresume⟩
          · exact .inl hfault
          · rw [hresume]
            exact ih hrest hnext left' steps' waiting
        · simp only [hfault]
          exact .inl ⟨f, _, hf, rfl⟩
      · -- anything else: the same effect, or an operand that is no fixnum
        rcases Activation.exec_effect (a := ⟨method, self, args, stack, pc, room⟩) rfl hargs heff with
          hexec | ⟨op, x, hexec⟩
        · simp only [hexec, Activation.advance]
          exact ih hrest hnext left (steps + 1) waiting
        · simp only [hexec]
          exact .inl ⟨_, _, .notFixnum, rfl⟩

/-- Where word evaluation gives a value, the interpreter answers with it. -/
theorem call_answers (limits : Limits) {id : Nat} (h : Words.call p n id self args = some v) :
    Answers p limits id self args v := by
  induction n generalizing id self args v with
  | zero => simp [Words.call] at h
  | succ n ih =>
    intro room
    unfold Words.call at h
    split at h
    · cases h
    rename_i method hm
    split at h
    · rename_i hargs
      cases room with
      | zero => exact .inr ⟨_, .depthExceeded, rfl⟩
      | succ room =>
        left
        refine ⟨⟨method, self, args, [], 0, room⟩, ?_, run_body (fun _ _ _ _ => ih) hargs room rfl h⟩
        simp only [enter, hm, if_pos hargs]
    · cases h

end Interpreter

end StackMachine
