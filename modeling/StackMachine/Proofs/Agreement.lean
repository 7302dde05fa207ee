import Mathlib
import StackMachine.CommandLine.Run
import StackMachine.Proofs.Interpretation
import StackMachine.Proofs.NativeExecution
import StackMachine.Proofs.Repetition

/-!
# Native execution and interpretation agree

Both are word evaluation, one without checks and one with (`execute_evaluates`, `Interpreter.call_answers`).  So when a
method executes natively, an interpreted call of it can only return the same value, or stop with a fault that lies in
the data or the limits (`execute_agrees`).  A run that compares the two therefore ends as one that only interprets.

A compiler takes an entry for its own if the address lies in the used part of its block.  An entry that a compiler has
left behind when it was dropped may come to lie there, and then other code than the method's is run
(`execute_disagrees_after_drop`).
-/

namespace StackMachine.Native

variable {w : Workspace} {stale : Nat → CodePtr → Prop} {j : Jit} {p : Program} {es : Entries} {id k : Nat}
  {self v : Value} {args : List Value}

namespace Jit

/-- What an execution that succeeds has gone through. -/
private theorem execute_eq_ok (h : (j.execute p es id self args).result = .ok v) :
    ∃ method entry, p.method? id = some method ∧ args.length = method.locals ∧
      (j.compile p es id).result = .ok entry ∧
      enter (j.compile p es id).jit.block p method id entry self args = .ok v := by
  cases hm : p.method? id with
  | none => simp [execute, hm] at h
  | some method =>
    by_cases ha : args.length = method.locals
    · cases hc : (j.compile p es id).result with
      | error e => simp [execute, hm, ha, hc] at h
      | ok entry => exact ⟨method, entry, rfl, ha, rfl, (execute_result hc hm self ha).symm.trans h⟩
    · simp [execute, hm, ha] at h

/-- Code that has returned a value was executable. -/
private theorem enter_eq_ok {b : CodeBlock} {method : Method} {entry : CodePtr}
    (h : enter b p method id entry self args = .ok v) :
    (FrameStack.forDepth p.size args.length).fits = true ∧ b.memory.isExecutable = true := by
  refine ⟨?_, ?_⟩
  · by_contra hfits
    rw [enter_of_not_fits hfits] at h
    cases h
  · by_contra hx
    simp only [enter, Bool.not_eq_true _ ▸ hx] at h
    split at h
    · cases h
    split at h
    · cases h
    · cases h

/-- A value that a method executes to is that of its word evaluation. -/
theorem execute_evaluates (hs : Compiler.State.Good p ⟨j.block, es, []⟩)
    (h : (j.execute p es id self args).result = .ok v) : Words.call p p.size id self args = some v := by
  obtain ⟨method, entry, hm, ha, hc, henter⟩ := execute_eq_ok h
  obtain ⟨hfits, hx⟩ := enter_eq_ok henter
  obtain ⟨v', _, _, hv, henter', _⟩ := enter_runs (hs.compile hc) hx hm self ha hfits
  rw [henter] at henter'
  cases henter'
  exact hv

/-- Where word evaluation gives a value, an interpreted call can return no other, and only stop with a dynamic fault. -/
private theorem call_agrees {n : Nat} (h : Words.call p n id self args = some v) (limits : Limits) (steps : Nat) :
    (∀ u, (Interpreter.call p limits steps id self args).outcome = .ok u → v = u) ∧
      ∀ f, (Interpreter.call p limits steps id self args).outcome = .error f → f.Dynamic := by
  unfold Interpreter.call
  rcases Interpreter.call_answers limits h limits.depth with ⟨top, htop, hreturns⟩ | ⟨f, hf, hfault⟩
  · simp only [htop]
    rcases hreturns (limits.steps - steps) steps [] with ⟨f, count, hf, hrun⟩ | ⟨left, count, hrun⟩
    · rw [hrun]
      exact ⟨by simp, fun f' h' => by cases h'; exact hf⟩
    · rw [hrun]
      exact ⟨fun u hu => by cases hu; rfl, by simp [Interpreter.resume]⟩
  · simp only [hfault]
    exact ⟨by simp, fun f' h' => by cases h'; exact hf⟩

/-- The two ways to run a method agree wherever native execution succeeds, provided that no entry of a compiler that was
dropped lies in the block. -/
theorem execute_agrees (hw : w.History stale) (hj : j ∈ w.jits) (ht : w.table? k = some (p, es))
    (hclear : ∀ entry, stale k entry → ¬j.block.Covers entry) (h : (j.execute p es id self args).result = .ok v) :
    (∀ (limits : Limits) (steps : Nat),
      (∀ u, (Interpreter.call p limits steps id self args).outcome = .ok u → v = u) ∧
        ∀ f, (Interpreter.call p limits steps id self args).outcome = .error f → f.Dynamic) ∧
      ∀ stderr, CommandLine.compared stderr ⟨p, id, self, args⟩ v =
        CommandLine.interpreted stderr ⟨p, id, self, args⟩ := by
  have hcall := call_agrees (execute_evaluates (hw.consistent.good hj ht hclear) h)
  refine ⟨hcall, fun stderr => ?_⟩
  cases hi : CommandLine.interpret ⟨p, id, self, args⟩ with
  | error f => simp only [CommandLine.compared, CommandLine.interpreted, hi]
  | ok expected =>
    obtain rfl := (hcall .default 0).1 expected hi
    simp only [CommandLine.compared, CommandLine.interpreted, hi, if_true]

theorem execute_agrees_sumProgram :
    ∃ j es, Workspace.Reachable ⟨[j], [(sumProgram, es)]⟩ ∧
      (j.execute sumProgram es 1 .nil [.ofInt 1]).result = .ok (.ofInt 42) ∧
      (∀ limits steps u, (Interpreter.call sumProgram limits steps 1 .nil [.ofInt 1]).outcome = .ok u → .ofInt 42 = u) ∧
      ∀ stderr, CommandLine.compared stderr ⟨sumProgram, 1, .nil, [.ofInt 1]⟩ (.ofInt 42) =
        CommandLine.interpreted stderr ⟨sumProgram, 1, .nil, [.ofInt 1]⟩ := by
  obtain ⟨j, es, entry, hw, hgranted, hc⟩ := sumProgram_history
  obtain ⟨v, hv, hok⟩ := execute_ok (hw.sound.good List.mem_cons_self List.mem_cons_self) hgranted hc
    (show sumProgram.method? 1 = some _ from rfl) .nil (show [Value.ofInt 1].length = _ from rfl) (by decide)
  have hvalue : Words.call sumProgram sumProgram.size 1 .nil [.ofInt 1] = some (.ofInt 42) := by decide +kernel
  obtain rfl : .ofInt 42 = v := Option.some.inj (hvalue.symm.trans hv)
  obtain ⟨hcalls, hcompared⟩ := execute_agrees hw.history List.mem_cons_self (show Workspace.table? _ 0 = _ from rfl)
    (fun _ hstale => hstale.elim) hok
  exact ⟨j, es, hw, hok, fun limits steps => (hcalls limits steps).1, hcompared⟩

/-- An entry that lies in the used part of the block is taken for the method's, whatever was placed there. -/
theorem compile_of_contains {method : Method} {entry : CodePtr} (hm : p.method? id = some method)
    (he : es.get? id = some entry) (hc : j.block.contains entry = true) :
    j.compile p es id = ⟨.ok entry, j, es, []⟩ := by
  apply compile_settled
  simp only [Compiler.compile, Compiler.cached, hm, he, Compiler.owned, if_pos hc]

/-- A method that returns a number. -/
def constantProgram (n : Int) : Program :=
  ⟨#[((Draft.empty.insn (.putObject (.ofInt n))).insn .leave).method "constant" 0]⟩

/-- Two compilers that are mapped at the same place have their code at the same addresses. -/
private theorem constantProgram_entries :
    ∃ j notices, Jit.new (.lending 0x10000 0x1000000) .default = .ok (j, notices) ∧
      j.block.base.toNat + j.block.capacity ≤ UInt64.size ∧
      (j.compile (constantProgram 1) .empty 0).entries.get? 0 = some ⟨65553⟩ ∧
      (j.compile (constantProgram 2) .empty 0).result = .ok ⟨65553⟩ ∧
      (j.compile (constantProgram 2) .empty 0).jit.block.contains ⟨65553⟩ = true :=
  ⟨_, _, rfl, by decide +kernel, by decide +kernel, by decide +kernel, by decide +kernel⟩

/-- A compiler has compiled the method that returns 1 and was dropped.  The next one is mapped at the same place, has
compiled the method that returns 2, and finds the entry of the first method in its block. -/
theorem execute_disagrees_after_drop :
    ∃ (w : Workspace) (stale : Nat → CodePtr → Prop) (j : Jit) (es : Entries), w.History stale ∧ j ∈ w.jits ∧
      j.block.Granted ∧ w.table? 0 = some (constantProgram 1, es) ∧
      (j.execute (constantProgram 1) es 0 .nil []).result = .ok (.ofInt 2) ∧
      (Interpreter.call (constantProgram 1) .default 0 0 .nil []).outcome = .ok (.ofInt 1) := by
  obtain ⟨j, notices, hj, hfits, hentry, hc, hcontains⟩ := constantProgram_entries
  have hmapped : Workspace.History ⟨[j], [(constantProgram 1, .empty)]⟩ _ :=
    (Workspace.History.empty.load (constantProgram 1)).map hj hfits (List.forall_mem_nil _)
  have hdropped := (hmapped.request List.getElem?_cons_zero List.getElem?_cons_zero (.compile 0)).drop
    List.getElem?_cons_zero
  have hagain := (hdropped.load (constantProgram 2)).map hj hfits (List.forall_mem_nil _)
  have hlast := hagain.request List.getElem?_cons_zero List.getElem?_cons_zero (.compile 0)
  -- the second compiler for itself
  have hw := Workspace.reachable_new hj hfits (constantProgram 2)
  have hgood := hw.sound.good List.mem_cons_self List.mem_cons_self
  have hgranted := compile_granted (new_granted hj rfl) hgood.toFair 0
  obtain ⟨v, _, _, hv, henter, _⟩ := enter_runs (hgood.compile hc) hgranted.isExecutable
    (show (constantProgram 2).method? 0 = some _ from rfl) .nil (show [].length = _ from rfl) (by decide)
  have hvalue : Words.call (constantProgram 2) (constantProgram 2).size 0 .nil [] = some (.ofInt 2) := by decide +kernel
  obtain rfl : .ofInt 2 = v := Option.some.inj (hvalue.symm.trans hv)
  have hm : (constantProgram 1).method? 0 = some _ := rfl
  have hfound := compile_of_contains hm hentry hcontains
  refine ⟨_, _, _, _, hlast, List.mem_cons_self, hgranted, rfl, ?_, by decide +kernel⟩
  have hresult := execute_result (congrArg Done.result hfound) hm .nil (show [].length = _ from rfl)
  rw [hfound] at hresult
  exact hresult.trans henter

end Jit

end StackMachine.Native
