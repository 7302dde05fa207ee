import Mathlib
import StackMachine.Program.Source
import StackMachine.Proofs.Histories
import StackMachine.Proofs.InterpreterRuns
import StackMachine.Proofs.Traversal

/-!
# Where sums overflow

Operands of instructions and argument counts are any 64-bit words.  Three sums are formed of them before they are
checked: the target of a jump, the number of values that a `send` takes off the stack, and the depth at which the
compiler looks for its receiver.  Interpreted calls and requests to compile overflow nowhere else.  Each overflow is
described by the instruction that an activation is about to execute (`Activation.Overflows`) or that the compiler has
come to (`Met.Overflows`).

In all other cases a jump out of the stream, or a `send` that wants more values than there are, ends with an error of
its own.
-/

namespace StackMachine

/-! ### Instructions of an activation -/

namespace Activation

variable {a : Activation} {offset : Int64} {site : CallSite} {k : Overflow}

theorem step_eq {i : Insn} (h : Insn.decode a.method.code a.pc = .ok i) : a.step = a.exec i := by
  simp only [step, h]

/-- A jump that is taken, with the stack that it leaves. -/
theorem Jumps.step_eq (h : a.Jumps offset) :
    ∃ stack, a.step =
      if Int64.maxValue.toInt < a.target offset then .fault (.overflow .addition)
      else if 0 ≤ a.target offset ∧ a.target offset < a.method.code.size then
        .next { a with stack := stack, pc := (a.target offset).toNat }
      else .fault (.jumpOutOfRange a.method.name a.pc (a.target offset)) := by
  cases h with
  | jump hi =>
    rw [Activation.step_eq hi]
    exact ⟨a.stack, rfl⟩
  | @branchIf v stack hi hs hv =>
    rw [Activation.step_eq hi]
    simp only [exec, hs, hv, if_true]
    exact ⟨stack, rfl⟩

theorem Jumps.step_outside (h : a.Jumps offset) (hout : ¬(0 ≤ a.target offset ∧ a.target offset < a.method.code.size)) :
    a.step = .fault (if Int64.maxValue.toInt < a.target offset then .overflow .addition
      else .jumpOutOfRange a.method.name a.pc (a.target offset)) := by
  obtain ⟨stack, hstep⟩ := h.step_eq
  rw [hstep, if_neg hout, apply_ite Step.fault]

theorem Sends.step_overflow (h : a.Sends site) (hargc : site.argc.toNat + 1 = UInt64.size) :
    a.step = .fault (.overflow .addition) := by
  obtain ⟨idx, hi, hsite⟩ := h
  rw [Activation.step_eq hi]
  simp only [exec, send, hsite, if_pos hargc]

theorem Sends.step_short (h : a.Sends site) (hshort : a.stack.length ≤ site.argc.toNat) :
    a.step = .fault (if site.argc.toNat + 1 = UInt64.size then .overflow .addition
      else .stackUnderflow a.method.name a.pc) := by
  by_cases hargc : site.argc.toNat + 1 = UInt64.size
  · rw [if_pos hargc, h.step_overflow hargc]
  · obtain ⟨idx, hi, hsite⟩ := h
    rw [if_neg hargc, Activation.step_eq hi]
    simp only [exec, send, hsite, if_neg hargc, List.drop_eq_nil_of_le hshort, underflow]

theorem Overflows.step_eq (h : a.Overflows) : a.step = .fault (.overflow .addition) := by
  cases h with
  | jump h htarget =>
    obtain ⟨stack, hstep⟩ := h.step_eq
    rw [hstep, if_pos htarget]
  | send h hargc => exact h.step_overflow hargc

/-- Only jumps and calls overflow. -/
theorem overflows_of_step (h : a.step = .fault (.overflow k)) : k = .addition ∧ a.Overflows := by
  cases step_faults h with
  | overflow hover => exact ⟨rfl, hover⟩

end Activation

/-! ### Interpreted calls -/

namespace Interpreter

variable {p : Program} {limits : Limits} {steps id n : Nat} {self : Value} {args : List Value} {c : Pending}
  {k : Overflow}

theorem enter_ne_overflow {room : Nat} : enter p limits room id self args ≠ .error (.overflow k) := by
  intro h
  rcases enter_error h with h | h | ⟨m, _, h⟩
  · cases h
  · cases h
  · cases h

theorem advance_of_fault {e : Fault} (h : c.top.step = .fault e) : advance p limits c = .error (.error e) := by
  simp only [advance, h]

/-- A call ends with an overflow exactly if it comes to an instruction that overflows. -/
theorem call_overflow : (call p limits steps id self args).outcome = .error (.overflow k) ↔
    k = .addition ∧ ∃ n c, Comes p limits steps id self args n c ∧ c.top.Overflows := by
  constructor
  · intro h
    rcases call_ends p limits steps id self args with ⟨e, henter, hcall⟩ | ⟨name, count, _, _, hcall⟩ | hcall |
      ⟨n, c, outcome, hcomes, hend, hcall⟩ <;> rw [hcall] at h
    · cases h
      exact absurd henter enter_ne_overflow
    · cases h
    · cases h
    · obtain rfl : outcome = .error (.overflow k) := h
      rcases advance_error hend with hstep | ⟨_, _, _, _, henter⟩
      · obtain ⟨rfl, hover⟩ := Activation.overflows_of_step hstep
        exact ⟨rfl, n, c, hcomes, hover⟩
      · exact absurd henter enter_ne_overflow
  · rintro ⟨rfl, n, c, hcomes, hover⟩
    rw [hcomes.call_eq (advance_of_fault hover.step_eq)]

/-- One more instruction is counted than the limit allows, never more. -/
theorem call_steps_le : (call p limits steps id self args).steps ≤ max steps limits.steps + 1 := by
  rcases call_ends p limits steps id self args with ⟨e, _, hcall⟩ | ⟨name, count, _, hle, hcall⟩ | hcall |
    ⟨n, c, outcome, hcomes, _, hcall⟩ <;> rw [hcall]
  · exact (le_max_left _ _).trans (Nat.le_succ _)
  · exact hle.trans (Nat.le_succ _)
  · have := hcomes.within
    simp only
    omega

end Interpreter

/-! ### Requests to compile -/

namespace Native

open Template (Call peek? slots)

namespace Compiler.Met

variable {p : Program} {x : Met} {site : CallSite} {callee : Method} {k : Overflow}

/-- The `send` has that call site, which names that method. -/
def Names (p : Program) (x : Met) (site : CallSite) (callee : Method) : Prop :=
  x.method.site? x.idx = some site ∧ p.method? site.callee = some callee

/-- The depth of the receiver leaves its range. -/
def Overflows (p : Program) (x : Met) : Prop :=
  ∃ site callee, x.Names p site callee ∧ site.argc.toNat = callee.locals ∧ site.argc.toNat + 1 = UInt64.size

theorem plan_overflow : x.plan p = .error (.overflow k) ↔ k = .addition ∧ x.Overflows p := by
  rw [Met.plan, Call.plan_eq_error]
  constructor
  · intro h
    cases h with
    | overflow hsite hcallee hargc hlast => exact ⟨rfl, _, _, ⟨hsite, hcallee⟩, hargc, hlast⟩
  · rintro ⟨rfl, site, callee, ⟨hsite, hcallee⟩, hargc, hlast⟩
    exact .overflow hsite hcallee hargc hlast

/-- A `send` that wants more values than the operand stack has. -/
theorem Names.plan_short (h : x.Names p site callee) (hshort : x.height ≤ site.argc.toNat) :
    x.plan p = .error (if site.argc.toNat ≠ callee.locals then .arity callee.name callee.locals site.argc.toNat
      else if site.argc.toNat + 1 = UInt64.size then .overflow .addition
      else .stackUnderflow x.method.name x.pc .send) := by
  obtain ⟨hsite, hcallee⟩ := h
  rw [Met.plan, Call.plan_eq_error]
  split
  · rename_i hargc
    exact .arity hsite hcallee hargc
  rename_i hargc
  rw [not_not] at hargc
  split
  · rename_i hlast
    exact .overflow hsite hcallee hargc hlast
  · rename_i hlast
    exact .underflow hsite hcallee hargc hlast (if_neg (by omega))

end Compiler.Met

namespace Jit

open Compiler (Met)

variable {j : Jit} {p : Program} {entries : Entries} {id : Nat} {x : Met} {k : Overflow}

/-- A request for a method that has no entry yet comes to a `send`. -/
def Meets (j : Jit) (p : Program) (entries : Entries) (id : Nat) (x : Met) : Prop :=
  entries.get? id = none ∧ Compiler.Meets p j.settings.maxDepth x j.settings.maxDepth [] id ⟨j.block, entries, []⟩

theorem Meets.compile_error (h : j.Meets p entries id x) {e : Error} (he : x.plan p = .error e) :
    (j.compile p entries id).result = .error e := by
  obtain ⟨hnew, hmeets⟩ := h
  have hfresh := hmeets.fresh_error he
  obtain ⟨method, hm⟩ := hmeets.exists_method
  rw [(j.compile_eq p entries id).1]
  simp only [Compiler.compile, Compiler.cached, hm, hnew]
  exact hfresh

/-- A request ends with an overflow exactly if it comes to a `send` that overflows. -/
theorem compile_overflow : (j.compile p entries id).result = .error (.overflow k) ↔
    k = .addition ∧ ∃ x, j.Meets p entries id x ∧ x.Overflows p := by
  constructor
  · intro h
    rw [(j.compile_eq p entries id).1] at h
    unfold Compiler.compile Compiler.cached at h
    split at h
    · cases h
    split at h
    · cases Compiler.owned_error h
    · rename_i hnew
      obtain ⟨x, hmeets, hplan⟩ := Compiler.exists_meets h
      obtain ⟨rfl, hover⟩ := Met.plan_overflow.1 hplan
      exact ⟨rfl, x, ⟨hnew, hmeets⟩, hover⟩
  · rintro ⟨rfl, x, hmeets, hover⟩
    exact hmeets.compile_error (Met.plan_overflow.2 ⟨rfl, hover⟩)

theorem compile_overflows (j : Jit) (p : Program) (entries : Entries) (id : Nat) :
    (∃ k, (j.compile p entries id).result = .error (.overflow k)) ↔ ∃ x, j.Meets p entries id x ∧ x.Overflows p := by
  simp only [compile_overflow, exists_and_right, exists_eq, true_and]

end Jit

end Native

/-! ### Every failure but these is an error of the program -/

open Interpreter (call Comes)

/-- An interpreted call overflows exactly if it comes to a jump or a `send` whose sum overflows, and a request to
compile exactly if it comes to such a `send`.  A jump that leads out of the stream and a `send` that wants more values
than there are end in every other case with the error for it, whatever the operand; locals and stack registers exist
where they are used, and the count of instructions stays next to its limit.  The count is a 64-bit word, so the limit
must not be the last one. -/
theorem overflow_exactly (p : Program) :
    (∀ (limits : Limits) (steps id : Nat) (self : Value) (args : List Value),
      steps + 1 < UInt64.size → limits.steps + 1 < UInt64.size →
      ((∃ k, (call p limits steps id self args).outcome = .error (.overflow k)) ↔
        ∃ n c, Comes p limits steps id self args n c ∧ c.top.Overflows) ∧
      (call p limits steps id self args).steps ≤ max steps limits.steps + 1 ∧
      (call p limits steps id self args).steps < UInt64.size ∧
      ∀ n c, Comes p limits steps id self args n c →
        (∀ offset, c.top.Jumps offset →
          ¬(0 ≤ c.top.target offset ∧ c.top.target offset < c.top.method.code.size) →
          call p limits steps id self args =
            ⟨.error (if Int64.maxValue.toInt < c.top.target offset then .overflow .addition
              else .jumpOutOfRange c.top.method.name c.top.pc (c.top.target offset)), steps + n + 1⟩) ∧
        (∀ site, c.top.Sends site → c.top.stack.length ≤ site.argc.toNat →
          call p limits steps id self args =
            ⟨.error (if site.argc.toNat + 1 = UInt64.size then .overflow .addition
              else .stackUnderflow c.top.method.name c.top.pc), steps + n + 1⟩) ∧
        ∀ idx slot, c.top.localSlot? idx = some slot → slot < c.top.locals.length) ∧
    ∀ (j : Native.Jit) (entries : Native.Entries) (id : Nat),
      ((∃ k, (j.compile p entries id).result = .error (.overflow k)) ↔
        ∃ x, j.Meets p entries id x ∧ x.Overflows p) ∧
      ∀ x, j.Meets p entries id x → x.height ≤ Native.Template.slots.length ∧
        ∀ site callee, x.Names p site callee → x.height ≤ site.argc.toNat →
          (j.compile p entries id).result =
            .error (if site.argc.toNat ≠ callee.locals then .arity callee.name callee.locals site.argc.toNat
              else if site.argc.toNat + 1 = UInt64.size then .overflow .addition
              else .stackUnderflow x.method.name x.pc .send) := by
  constructor
  · intro limits steps id self args hsteps hlimit
    have hle : (call p limits steps id self args).steps ≤ max steps limits.steps + 1 := Interpreter.call_steps_le
    refine ⟨?_, hle, by omega, ?_⟩
    · simp only [Interpreter.call_overflow, exists_and_right, exists_eq, true_and]
    · intro n c hcomes
      refine ⟨?_, ?_, ?_⟩
      · intro offset hjumps hout
        exact hcomes.call_eq (Interpreter.advance_of_fault (hjumps.step_outside hout))
      · intro site hsends hshort
        exact hcomes.call_eq (Interpreter.advance_of_fault (hsends.step_short hshort))
      · intro idx slot hslot
        exact (hcomes.fits c.top List.mem_cons_self).localSlot hslot
  · intro j entries id
    refine ⟨j.compile_overflows p entries id, fun x hmeets => ⟨hmeets.2.height_le, fun site callee hnames hshort => ?_⟩⟩
    exact hmeets.compile_error (hnames.plan_short hshort)

/-- A method that jumps to before its beginning. -/
def backwardJump : Program := ⟨#[(Draft.empty.insn (.jump (-3))).method "main" 0]⟩

theorem overflow_exactly_backwardJump :
    call backwardJump .default 0 0 .nil [] = ⟨.error (.jumpOutOfRange "main" 0 (-1)), 1⟩ := by
  have hcomes : Comes backwardJump .default 0 0 .nil [] 0
      ⟨[], ⟨(Draft.empty.insn (.jump (-3))).method "main" 0, .nil, [], [], 0, 1023⟩⟩ :=
    ⟨⟨_, rfl, .refl _⟩, by decide, by decide +kernel⟩
  obtain ⟨_, _, _, hruns⟩ := (overflow_exactly backwardJump).1 .default 0 0 .nil [] (by decide) (by decide)
  exact (hruns 0 _ hcomes).1 (-3) (.jump (by decide +kernel)) (by decide +kernel)

/-- A program file whose entry calls itself with as many arguments as a word can say. -/
def boundlessCall : Source where
  entry := "main"
  receiver := none
  args := []
  methods := [⟨"main", 0, ["putself", "send main 18446744073709551615", "leave"]⟩]

/-- A program file whose entry jumps as far as an offset can say. -/
def boundlessJump : Source where
  entry := "main"
  receiver := none
  args := []
  methods := [⟨"main", 0, ["jump 9223372036854775807"]⟩]

/-- A program with a method of as many locals as a word can say, and a call of it. -/
def boundlessArity : Program :=
  ⟨#[((Draft.empty.insn .putNil).insn .leave).method "wide" 18446744073709551615,
    (((Draft.empty.insn .putNil).send ⟨0, 18446744073709551615⟩).insn .leave).method "main" 0]⟩

/-- Neither an underflow, nor a jump out of range, nor an arity that does not fit. -/
theorem overflow_boundless :
    (boundlessCall.build.map fun r => (call r.program .default 0 r.entry r.receiver r.args).outcome) =
        .ok (.error (.overflow .addition)) ∧
      (boundlessJump.build.map fun r => (call r.program .default 0 r.entry r.receiver r.args).outcome) =
        .ok (.error (.overflow .addition)) ∧
      ((Native.Jit.new (.lending 0x10000 0x1000000) .default).map fun r =>
        (r.1.compile boundlessArity .empty 1).result) = .ok (.error (.overflow .addition)) := by
  refine ⟨?_, ?_, ?_⟩
  · cbv
  · cbv
  · decide +kernel

end StackMachine
