import Mathlib
import StackMachine.Proofs.Refusals

/-!
# How the compiler comes to a call

Instructions are compiled in order, and the callee of a `send` before the rest of its caller.  `Meets` says which calls
a request comes to, and at which height of the operand stack.

* `generateInsns_error`: a stream is refused at its first instruction that is refused.
* `Reaches.fresh_error`, `Meets.fresh_error`: a request ends with what it comes to, if that is refused.
* `exists_meets`: a request that ends with an overflow has come to a call site where the overflow is.
-/

namespace StackMachine.Native.Compiler

open Template (Call slots)

/-! ### Along a stream -/

/-- Code for the instructions is generated, with the height of the operand stack and the state before and after. -/
inductive Passes (resolve : Nat → Step CodePtr) (p : Program) (method : Method) :
    List (Nat × Insn) → Nat → State → Nat → State → Prop where
  | nil {height s} : Passes resolve p method [] height s height s
  | cons {pc i rest height s emitted s₁ height' s'}
      (head : generateInsn resolve p method pc height i s = (.ok emitted, s₁))
      (tail : Passes resolve p method rest emitted.height s₁ height' s') :
      Passes resolve p method ((pc, i) :: rest) height s height' s'

section

variable {p : Program} {method : Method} {resolve : Nat → Step CodePtr} {insns : List (Nat × Insn)}
  {height height' : Nat} {s s' : State} {e : Error}

theorem Passes.height_le (h : Passes resolve p method insns height s height' s') (hh : height ≤ slots.length) :
    height' ≤ slots.length := by
  induction h with
  | nil => exact hh
  | cons head _ ih => exact ih (height_generateInsn hh (congrArg Prod.fst head))

/-- What comes after instructions that are compiled decides. -/
theorem Passes.generateInsns_error (h : Passes resolve p method insns height s height' s') {rest : List (Nat × Insn)}
    (he : (generateInsns resolve p method rest height' s').1 = .error e) :
    (generateInsns resolve p method (insns ++ rest) height s).1 = .error e := by
  induction h with
  | nil => exact he
  | cons head _ ih =>
    rw [List.cons_append, generateInsns_cons, andThen_ok head, andThen_error (Prod.ext (ih he) rfl)]

/-- A stream is refused at its first instruction that is refused. -/
theorem generateInsns_error (h : (generateInsns resolve p method insns height s).1 = .error e) :
    ∃ before pc i after height' s', insns = before ++ (pc, i) :: after ∧
      Passes resolve p method before height s height' s' ∧
      (generateInsn resolve p method pc height' i s').1 = .error e := by
  induction insns generalizing height s with
  | nil => cases h
  | cons head rest ih =>
    obtain ⟨pc, i⟩ := head
    rw [generateInsns_cons] at h
    rcases andThen_eq_error h with hhead | ⟨emitted, hhead, h⟩
    · exact ⟨[], pc, i, rest, height, s, rfl, .nil, hhead⟩
    rcases andThen_eq_error h with hrest | ⟨more, _, h⟩
    · obtain ⟨before, pc', i', after, height', s', rfl, hpasses, herror⟩ := ih hrest
      exact ⟨(pc, i) :: before, pc', i', after, height', s', rfl, .cons (Prod.ext hhead rfl) hpasses, herror⟩
    · cases h

end

/-! ### From method to method -/

/-- A `send` that the compiler has come to, and the height of the operand stack there. -/
structure Met where
  method : Method
  pc : Nat
  idx : UInt64
  height : Nat

/-- What becomes of the call site. -/
def Met.plan (p : Program) (x : Met) : Except Error Call := Call.plan p x.method x.pc x.height x.idx

/-- Compiling a method comes to one of its instructions, at that height of the operand stack and in that state. -/
structure Reaches (p : Program) (maxDepth left : Nat) (active : List Nat) (id : Nat) (s : State) (method : Method)
    (pc : Nat) (i : Insn) (height : Nat) (s' : State) : Prop where
  found : p.method? id = some method
  new : id ∉ active
  passes : ∃ before after, method.sweep.insns = before ++ (pc, i) :: after ∧
    Passes (cached (fresh p maxDepth left (id :: active)) p) p method before 0 s height s'

/-- Compiling a method comes to a `send`: one of its own, or one of a callee that has no entry yet. -/
inductive Meets (p : Program) (maxDepth : Nat) (x : Met) : Nat → List Nat → Nat → State → Prop where
  | here {left active id s s'}
      (h : Reaches p maxDepth left active id s x.method x.pc (.send x.idx) x.height s') :
      Meets p maxDepth x (left + 1) active id s
  | callee {left active id s s'} {y : Met} {call : Call}
      (h : Reaches p maxDepth left active id s y.method y.pc (.send y.idx) y.height s')
      (hplan : y.plan p = .ok call) (hnew : s'.entries.get? call.callee = none)
      (next : Meets p maxDepth x left (id :: active) call.callee s') : Meets p maxDepth x (left + 1) active id s

variable {p : Program} {method : Method} {maxDepth left id height : Nat} {active : List Nat} {x : Met} {s s' : State}
  {e : Error}

theorem Meets.height_le (h : Meets p maxDepth x left active id s) : x.height ≤ slots.length := by
  induction h with
  | here h =>
    obtain ⟨_, _, _, hpasses⟩ := h.passes
    exact hpasses.height_le (Nat.zero_le _)
  | callee _ _ _ _ ih => exact ih

theorem Meets.exists_method (h : Meets p maxDepth x left active id s) : ∃ method, p.method? id = some method := by
  cases h with
  | here h => exact ⟨_, h.found⟩
  | callee h => exact ⟨_, h.found⟩

/-- A method is refused for the first of its instructions that is refused. -/
theorem Reaches.fresh_error {pc : Nat} {i : Insn} (h : Reaches p maxDepth left active id s method pc i height s')
    (he : (generateInsn (cached (fresh p maxDepth left (id :: active)) p) p method pc height i s').1 = .error e) :
    (fresh p maxDepth (left + 1) active id s).1 = .error e := by
  obtain ⟨before, after, hi, hpasses⟩ := h.passes
  have hstop : (generateInsns (cached (fresh p maxDepth left (id :: active)) p) p method ((pc, i) :: after) height
      s').1 = .error e := by
    rw [generateInsns_cons, andThen_error (Prod.ext he rfl)]
  have hinsns := hpasses.generateInsns_error hstop
  rw [← hi] at hinsns
  have hgenerate : (generate (cached (fresh p maxDepth left (id :: active)) p) p method s).1 = .error e := by
    rw [generate_eq, andThen_error (Prod.ext hinsns rfl)]
  rw [fresh_eq h.found h.new, andThen_error (Prod.ext hgenerate rfl)]

/-- Where a method is refused with an overflow, one of its instructions is. -/
theorem exists_reaches {k : Overflow} (hm : p.method? id = some method) (ha : id ∉ active)
    (h : (fresh p maxDepth (left + 1) active id s).1 = .error (.overflow k)) :
    ∃ pc i height s', Reaches p maxDepth left active id s method pc i height s' ∧
      (generateInsn (cached (fresh p maxDepth left (id :: active)) p) p method pc height i s').1 =
        .error (.overflow k) := by
  rw [fresh_eq hm ha] at h
  rcases andThen_eq_error h with hgenerate | ⟨code, _, hfinish⟩
  · rw [generate_eq] at hgenerate
    rcases andThen_eq_error hgenerate with hinsns | ⟨code, _, hjudged⟩
    · obtain ⟨before, pc, i, after, height, s', hi, hpasses, herror⟩ := generateInsns_error hinsns
      exact ⟨pc, i, height, s', ⟨hm, ha, before, after, hi, hpasses⟩, herror⟩
    · rcases judged_error hjudged with ⟨_, _, h⟩ | h <;> cases h
  · cases finish_failsOnly id method code _ _ hfinish

private theorem cached_of_new {fresh : Nat → Step CodePtr} (hm : p.method? id = some method)
    (hnew : s.entries.get? id = none) : cached fresh p id s = fresh id s := by
  simp only [cached, hm, hnew]

private theorem exists_callee {pc : Nat} {idx : UInt64} {call : Call}
    (h : Call.plan p method pc height idx = .ok call) : ∃ callee, p.method? call.callee = some callee := by
  obtain ⟨site, callee, _, _, hcallee, _, _, _, rfl⟩ := Call.plan_eq_ok.1 h
  exact ⟨callee, hcallee⟩

/-- The request ends with the first call site that has a fault. -/
theorem Meets.fresh_error (h : Meets p maxDepth x left active id s) (he : x.plan p = .error e) :
    (fresh p maxDepth left active id s).1 = .error e := by
  induction h with
  | here h =>
    refine h.fresh_error ?_
    rw [Met.plan] at he
    simp only [generateInsn, he]
  | @callee left active id s s' y call h hplan hnew _ ih =>
    obtain ⟨method, hcallee⟩ := exists_callee hplan
    have hcached : (cached (fresh p maxDepth left (id :: active)) p call.callee s').1 = .error e := by
      rw [cached_of_new hcallee hnew]
      exact ih
    refine h.fresh_error ?_
    rw [generateInsn_send hplan, andThen_error (Prod.ext hcached rfl)]

/-- An overflow comes from a call site. -/
theorem exists_meets {k : Overflow} (h : (fresh p maxDepth left active id s).1 = .error (.overflow k)) :
    ∃ x : Met, Meets p maxDepth x left active id s ∧ x.plan p = .error (.overflow k) := by
  induction left generalizing active id s with
  | zero =>
    unfold fresh at h
    split at h
    · cases h
    split at h
    · cases h
    · cases h
  | succ left ih =>
    cases hm : p.method? id with
    | none =>
      simp only [fresh, hm] at h
      cases h
    | some method =>
      by_cases ha : id ∈ active
      · simp only [fresh, hm, if_pos ha] at h
        cases h
      obtain ⟨pc, i, height, s', hreaches, herror⟩ := exists_reaches hm ha h
      rcases generateInsn_error herror with ⟨_, he⟩ | ⟨idx, rfl, hplan | ⟨call, hplan, he⟩⟩
      · rcases Template.emit_error he with h | h | ⟨_, h⟩ | h <;> cases h
      · exact ⟨⟨method, pc, idx, height⟩, .here hreaches, hplan⟩
      · -- the callee is being compiled: an entry that it has already is refused only for where it is
        obtain ⟨callee, hcallee⟩ := exists_callee hplan
        simp only [cached, hcallee] at he
        split at he
        · cases owned_error he
        · rename_i hnew
          obtain ⟨x, hx, hxplan⟩ := ih he
          exact ⟨x, .callee (y := ⟨method, pc, idx, height⟩) hreaches hplan hnew hx, hxplan⟩

end StackMachine.Native.Compiler
