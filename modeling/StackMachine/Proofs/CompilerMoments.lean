import Mathlib
import StackMachine.Proofs.Refusals

/-!
# The compiler from moment to moment

`fresh` hands the chain of methods being compiled down to its callees, and a number that says how many more may join.
Here the compiler keeps one chain, which it changes as it goes, and there is no such number.  A `Moment` is all there is
between two of its actions, and `Moment.step` is an action.  A method joins the chain before its code is generated, and
leaves it when the code is complete or cannot be generated.  It waits while a callee is compiled.

The two come to the same:

* `Moment.runs_task`: what is left of a stream is compiled as `generateInsns` does it;
* `Moment.runs_query`: a query runs to the answer that `fresh` and `cached` give for the chain, and the chain is then
  what it was.  The induction is on how many methods may join;
* `Moment.Runs.halts`: an action is decided by the moment, so every run that has begun ends like this.

An overflow ends the whole program, and nothing is asked of the chain then.
-/

namespace StackMachine.Native.Compiler

open X86 (Assembly)
open Template (Call)

/-! ### Moments -/

/-- What the compiler is asked for: the entry of a method, or new code for it. -/
inductive Query where
  | compile (id : Nat)
  | recompile (id : Nat)
deriving DecidableEq

/-- A method whose code is being generated: what is left of its stream, the height of the operand stack there, and the
code so far. -/
structure Task where
  id : Nat
  method : Method
  rest : List (Nat × Insn)
  height : Nat
  code : Assembly
deriving DecidableEq

/-- A method that waits for the entry of a callee.  The call is not part of the rest of its stream. -/
structure Waiting where
  task : Task
  call : Call
deriving DecidableEq

inductive Focus where
  | asked (q : Query)
  | task (t : Task)
  | answer (r : Except Error CodePtr)
deriving DecidableEq

structure Moment where
  /-- Innermost first. -/
  chain : List Nat
  /-- Innermost first. -/
  waiting : List Waiting
  state : State
  focus : Focus
deriving DecidableEq

namespace Query

def id : Query → Nat
  | compile id => id
  | recompile id => id

/-- The answer for a chain of methods being compiled, and the state after it. -/
def run (p : Program) (maxDepth : Nat) (chain : List Nat) : Query → Step CodePtr
  | compile id => cached (fresh p maxDepth (maxDepth - chain.length) chain) p id
  | recompile id => fresh p maxDepth (maxDepth - chain.length) chain id

end Query

namespace Moment

/-- A query is answered at once, or the method joins the chain. -/
def take (p : Program) (maxDepth : Nat) (m : Moment) : Query → Moment
  | .compile id =>
    match p.method? id with
    | none => { m with focus := .answer (.error (.unknownMethod id)) }
    | some method =>
      match m.state.entries.get? id with
      | some entry => { m with focus := .answer (owned m.state.block method entry) }
      | none => { m with focus := .asked (.recompile id) }
  | .recompile id =>
    match p.method? id with
    | none => { m with focus := .answer (.error (.unknownMethod id)) }
    | some method =>
      if id ∈ m.chain then
        { m with focus := .answer (.error (.recursiveCall (callerName p m.chain) method.name)) }
      else if maxDepth ≤ m.chain.length then { m with focus := .answer (.error (.depthExceeded maxDepth)) }
      else { m with chain := id :: m.chain, focus := .task ⟨id, method, method.sweep.insns, 0, []⟩ }

/-- The method that joined last leaves the chain. -/
def leave (m : Moment) (r : Except Error CodePtr) : Moment := { m with chain := m.chain.tail, focus := .answer r }

/-- Code for one more instruction, or the end of the stream. -/
def advance (p : Program) (m : Moment) (t : Task) : Moment :=
  match t.rest with
  | [] =>
    match judged t.method t.code with
    | .error e => m.leave (.error e)
    | .ok code =>
      { m.leave (finish t.id t.method code m.state).1 with state := (finish t.id t.method code m.state).2 }
  | (pc, i) :: rest =>
    match i with
    | .send idx =>
      match Call.plan p t.method pc t.height idx with
      | .error e => m.leave (.error e)
      | .ok call =>
        { m with waiting := ⟨{ t with rest := rest }, call⟩ :: m.waiting, focus := .asked (.compile call.callee) }
    | i =>
      match Template.emit t.method pc t.height i with
      | .error e => m.leave (.error e)
      | .ok emitted =>
        { m with focus := .task ⟨t.id, t.method, rest, emitted.height, t.code ++ emitted.code⟩ }

/-- A method goes on with the entry that it has waited for; without one it is given up. -/
def resume (m : Moment) (w : Waiting) (waiting : List Waiting) : Except Error CodePtr → Moment
  | .error e => { m.leave (.error e) with waiting := waiting }
  | .ok entry =>
    { m with
      waiting := waiting
      focus := .task ⟨w.task.id, w.task.method, w.task.rest, w.task.height - w.call.args.length,
        w.task.code ++ w.call.code entry⟩ }

/-- The next moment.  There is none when a query is answered and nobody waits. -/
def step (p : Program) (maxDepth : Nat) (m : Moment) : Option Moment :=
  match m.focus with
  | .asked q => some (m.take p maxDepth q)
  | .task t => some (m.advance p t)
  | .answer r =>
    match m.waiting with
    | [] => none
    | w :: waiting => some (m.resume w waiting r)

abbrev Runs (p : Program) (maxDepth : Nat) : Moment → Moment → Prop :=
  Relation.ReflTransGen fun m m' => m.step p maxDepth = some m'

/-- An answer for those who wait, with the state that it comes with. -/
def answered (chain : List Nat) (waiting : List Waiting) (x : Except Error CodePtr × State) : Moment :=
  ⟨chain, waiting, x.2, .answer x.1⟩

end Moment

/-! ### Along a stream -/

theorem andThen_assoc {α β γ : Type} (x : Step α) (f : α → Step β) (g : β → Step γ) :
    andThen (andThen x f) g = andThen x fun a => andThen (f a) g := by
  funext s
  simp only [andThen]
  rcases x s with ⟨e | a, s₁⟩
  · rfl
  · rfl

/-- What becomes of a method whose stream was compiled. -/
def conclude (id : Nat) (method : Method) (code : Assembly) : Step CodePtr :=
  andThen (fun s => (judged method code, s)) (finish id method)

theorem fresh_eq_conclude {p : Program} {id : Nat} {method : Method} (hm : p.method? id = some method)
    {active : List Nat} (ha : id ∉ active) (maxDepth left : Nat) :
    fresh p maxDepth (left + 1) active id =
      andThen (generateInsns (cached (fresh p maxDepth left (id :: active)) p) p method method.sweep.insns 0)
        (conclude id method) := by
  rw [fresh_eq hm ha, generate_eq, andThen_assoc]
  rfl

namespace Moment

variable {p : Program} {maxDepth id : Nat} {active : List Nat} {method : Method} {resolve : Nat → Step CodePtr}

/-- A method with nothing left to compile leaves the chain, in any case. -/
private theorem step_conclude (p : Program) (maxDepth : Nat) (waiting : List Waiting) (s : State) (height : Nat)
    (code : Assembly) :
    step p maxDepth ⟨id :: active, waiting, s, .task ⟨id, method, [], height, code⟩⟩ =
      some (answered active waiting (conclude id method code s)) := by
  simp only [step, advance, conclude, andThen]
  cases judged method code with
  | error e => rfl
  | ok code => rfl

private theorem advance_plain {m : Moment} {t : Task} {pc : Nat} {i : Insn} {rest : List (Nat × Insn)}
    (ht : t.rest = (pc, i) :: rest) (hi : ∀ idx, i ≠ .send idx) {emitted : Template.Emitted}
    (he : Template.emit t.method pc t.height i = .ok emitted) :
    m.advance p t = { m with focus := .task ⟨t.id, t.method, rest, emitted.height, t.code ++ emitted.code⟩ } := by
  cases i with
  | send idx => exact absurd rfl (hi idx)
  | _ => simp only [advance, ht, he]

private theorem advance_plain_error {m : Moment} {t : Task} {pc : Nat} {i : Insn} {rest : List (Nat × Insn)}
    (ht : t.rest = (pc, i) :: rest) (hi : ∀ idx, i ≠ .send idx) {e : Error}
    (he : Template.emit t.method pc t.height i = .error e) : m.advance p t = m.leave (.error e) := by
  cases i with
  | send idx => exact absurd rfl (hi idx)
  | _ => simp only [advance, ht, he]

/-- What is left of a stream is compiled, and the method leaves the chain: induction on the stream, if queries for its
callees are answered. -/
theorem runs_task
    (hr : ∀ callee waiting s, Runs p maxDepth ⟨id :: active, waiting, s, .asked (.compile callee)⟩
      (answered (id :: active) waiting (resolve callee s)))
    (insns : List (Nat × Insn)) (waiting : List Waiting) (s : State) (height : Nat) (code : Assembly) :
    Runs p maxDepth ⟨id :: active, waiting, s, .task ⟨id, method, insns, height, code⟩⟩
      (answered active waiting
        (andThen (generateInsns resolve p method insns height) (fun more => conclude id method (code ++ more)) s)) := by
  induction insns generalizing s height code with
  | nil =>
    rw [andThen_ok (show generateInsns resolve p method [] height s = (.ok [], s) from rfl), List.append_nil]
    exact .single (step_conclude p maxDepth waiting s height code)
  | cons head rest ih =>
    obtain ⟨pc, i⟩ := head
    -- what comes after an instruction whose code is there
    have hnext : ∀ emitted s₁, generateInsn resolve p method pc height i s = (.ok emitted, s₁) →
        Runs p maxDepth ⟨id :: active, waiting, s₁, .task ⟨id, method, rest, emitted.height, code ++ emitted.code⟩⟩
          (answered active waiting (andThen (generateInsns resolve p method ((pc, i) :: rest) height)
            (fun more => conclude id method (code ++ more)) s)) := by
      intro emitted s₁ hemitted
      rw [generateInsns_cons, andThen_assoc, andThen_ok hemitted, andThen_assoc]
      simpa only [andThen, List.append_assoc] using ih s₁ emitted.height (code ++ emitted.code)
    have hstop : ∀ e s₁, generateInsn resolve p method pc height i s = (.error e, s₁) →
        andThen (generateInsns resolve p method ((pc, i) :: rest) height)
          (fun more => conclude id method (code ++ more)) s = (.error e, s₁) := by
      intro e s₁ herror
      rw [generateInsns_cons, andThen_assoc, andThen_error herror]
    by_cases hsend : ∃ idx, i = .send idx
    · obtain ⟨idx, rfl⟩ := hsend
      cases hplan : Call.plan p method pc height idx with
      | error e =>
        rw [hstop e s (by simp only [generateInsn, hplan])]
        exact .single (by simp only [step, advance, hplan]; rfl)
      | ok call =>
        have hinsn := congrFun (generateInsn_send hplan resolve) s
        -- the method waits, and its callee is asked for
        refine .head (b := ⟨id :: active, ⟨⟨id, method, rest, height, code⟩, call⟩ :: waiting, s,
          .asked (.compile call.callee)⟩) (by simp only [step, advance, hplan]) ?_
        refine (hr call.callee _ s).trans ?_
        rcases hcallee : resolve call.callee s with ⟨e | entry, s₁⟩
        · rw [hstop e s₁ (hinsn.trans (andThen_error hcallee))]
          exact .single rfl
        · exact .head rfl (hnext _ s₁ (hinsn.trans (andThen_ok hcallee)))
    · have hplain : ∀ idx, i ≠ .send idx := fun idx heq => hsend ⟨idx, heq⟩
      have hinsn : generateInsn resolve p method pc height i s = (Template.emit method pc height i, s) := by
        rw [generateInsn_plain hplain]
      cases hemit : Template.emit method pc height i with
      | error e =>
        rw [hstop e s (hinsn.trans (by rw [hemit]))]
        exact .single (congrArg some (advance_plain_error rfl hplain hemit))
      | ok emitted =>
        exact .head (congrArg some (advance_plain rfl hplain hemit)) (hnext emitted s (hinsn.trans (by rw [hemit])))

/-! ### Queries -/

/-- An entry is looked up, or the method is compiled. -/
private theorem runs_cached {chain : List Nat} {fresh : Nat → Step CodePtr}
    (hf : ∀ id waiting s, Runs p maxDepth ⟨chain, waiting, s, .asked (.recompile id)⟩
      (answered chain waiting (fresh id s))) (id : Nat) (waiting : List Waiting) (s : State) :
    Runs p maxDepth ⟨chain, waiting, s, .asked (.compile id)⟩ (answered chain waiting (cached fresh p id s)) := by
  cases hm : p.method? id with
  | none =>
    refine .single ?_
    simp only [step, take, cached, hm]
    rfl
  | some method =>
    cases hentry : s.entries.get? id with
    | some entry =>
      refine .single ?_
      simp only [step, take, cached, hm, hentry]
      rfl
    | none =>
      have hcached : cached fresh p id s = fresh id s := by simp only [cached, hm, hentry]
      rw [hcached]
      exact .head (by simp only [step, take, hm, hentry]) (hf id waiting s)

/-- Induction on how many methods may join the chain. -/
private theorem runs_fresh (p : Program) (maxDepth : Nat) {left : Nat} {chain : List Nat}
    (hleft : left = maxDepth - chain.length) (id : Nat) (waiting : List Waiting) (s : State) :
    Runs p maxDepth ⟨chain, waiting, s, .asked (.recompile id)⟩
      (answered chain waiting (fresh p maxDepth left chain id s)) := by
  induction left generalizing chain id waiting s with
  | zero =>
    refine .single ?_
    have hfull : maxDepth ≤ chain.length := Nat.sub_eq_zero_iff_le.1 hleft.symm
    simp only [step, take, fresh]
    cases p.method? id with
    | none => rfl
    | some method =>
      by_cases hmem : id ∈ chain
      · simp only [if_pos hmem]
        rfl
      · simp only [if_neg hmem, if_pos hfull]
        rfl
  | succ left ih =>
    cases hm : p.method? id with
    | none =>
      refine .single ?_
      simp only [step, take, fresh, hm]
      rfl
    | some method =>
      by_cases hmem : id ∈ chain
      · refine .single ?_
        simp only [step, take, fresh, hm, if_pos hmem]
        rfl
      · have hroom : ¬maxDepth ≤ chain.length := by omega
        have hleft' : left = maxDepth - (id :: chain).length := by
          rw [List.length_cons]
          omega
        rw [fresh_eq_conclude hm hmem]
        refine .head (b := ⟨id :: chain, waiting, s, .task ⟨id, method, method.sweep.insns, 0, []⟩⟩) ?_ ?_
        · simp only [step, take, hm, if_neg hmem, if_neg hroom]
        · exact runs_task (runs_cached (ih hleft')) method.sweep.insns waiting s 0 []

/-- Every query is answered, as `cached` or `fresh` answers it, and then the chain is what it was. -/
theorem runs_query (p : Program) (maxDepth : Nat) (chain : List Nat) (waiting : List Waiting) (s : State) (q : Query) :
    Runs p maxDepth ⟨chain, waiting, s, .asked q⟩ (answered chain waiting (q.run p maxDepth chain s)) := by
  cases q with
  | compile id => exact runs_cached (runs_fresh p maxDepth rfl) id waiting s
  | recompile id => exact runs_fresh p maxDepth rfl id waiting s

/-- There is only one way to go on. -/
theorem Runs.halts {m m' last : Moment} (h : Runs p maxDepth m m') (hlast : Runs p maxDepth m last)
    (hend : last.step p maxDepth = none) : Runs p maxDepth m' last := by
  have hunique : Relator.RightUnique fun m m' : Moment => m.step p maxDepth = some m' := by
    intro m₁ m₂ m₃ h₂ h₃
    exact Option.some.inj (h₂.symm.trans h₃)
  rcases h.total_of_right_unique hunique hlast with h' | h'
  · exact h'
  · rcases h'.cases_head with rfl | ⟨next, hnext, _⟩
    · exact .refl
    · rw [hend] at hnext
      cases hnext

end Moment

end StackMachine.Native.Compiler
