import Mathlib
import StackMachine.Proofs.CallLimits
import StackMachine.Proofs.Interpretation

/-!
# Nested calls

An interpreter that makes many calls has two counters, which all the activations of a call share: the instructions
executed so far, and the nesting of calls.  `invoke` is a call as one procedure: it raises the nesting, runs the method,
and lowers the nesting again whatever came of it; a `send` in the method is another `invoke` with the counters as they
are then.

`call` keeps no nesting: the callers wait in a list, and each activation knows how much room is left below it.  The two
are the same (`invoke_eq_call`), and the nesting after a call is what it was before.

* `run_perform`: running an activation on top of waiting ones is performing it and handing its outcome on.
* `calls_independent`: what becomes of a call after any number of earlier ones.
-/

namespace StackMachine.Interpreter

structure Counters where
  steps : Nat
  depth : Nat

namespace Counters

def start : Counters := ⟨0, 0⟩

def tick (c : Counters) : Counters := { c with steps := c.steps + 1 }

@[simp] theorem steps_tick (c : Counters) : c.tick.steps = c.steps + 1 := rfl

def deeper (c : Counters) : Counters := { c with depth := c.depth + 1 }

def shallower (c : Counters) : Counters := { c with depth := c.depth - 1 }

theorem depth_shallower {c c' : Counters} (h : c'.depth = c.deeper.depth) : c'.shallower.depth = c.depth := by
  simp only [shallower, h]
  rfl

end Counters

/-- How execution that began with the counters `c` has ended.  Instructions once counted stay counted. -/
structure Ended (c : Counters) where
  outcome : Except Fault Value
  counters : Counters
  steps_le : c.steps ≤ counters.steps

/-- The same end, for execution that began earlier. -/
def Ended.since {c c₁ : Counters} (e : Ended c₁) (h : c.steps ≤ c₁.steps) : Ended c :=
  ⟨e.outcome, e.counters, h.trans e.steps_le⟩

mutual

/-- Calls a method if one more call may be nested. -/
def invoke (p : Program) (limits : Limits) (c : Counters) (id : Nat) (self : Value) (args : List Value) : Ended c :=
  if limits.depth ≤ c.depth then ⟨.error (.depthExceeded limits.depth), c, le_rfl⟩
  else
    let e := runMethod p limits c.deeper id self args
    ⟨e.outcome, e.counters.shallower, e.steps_le⟩
termination_by (limits.steps + 1 - c.steps, 2)

/-- Runs a method from its first instruction. -/
def runMethod (p : Program) (limits : Limits) (c : Counters) (id : Nat) (self : Value) (args : List Value) : Ended c :=
  match p.method? id with
  | none => ⟨.error (.unknownMethod id), c, le_rfl⟩
  | some m =>
    if args.length = m.locals then perform p limits c ⟨m, self, args, [], 0, limits.depth - c.depth⟩
    else ⟨.error (.arity m.name m.locals args.length), c, le_rfl⟩
termination_by (limits.steps + 1 - c.steps, 1)

/-- Executes an activation to its end.  Every instruction is counted before it is executed. -/
def perform (p : Program) (limits : Limits) (c : Counters) (a : Activation) : Ended c :=
  if a.done then ⟨.error (.missingReturn a.method.name), c, le_rfl⟩
  else if limits.steps < c.tick.steps then ⟨.error (.stepLimit limits.steps), c.tick, Nat.le_succ _⟩
  else
    match a.step with
    | .next a => (perform p limits c.tick a).since (Nat.le_succ _)
    | .call caller callee receiver args =>
      match invoke p limits c.tick callee receiver args with
      | ⟨.error f, c', hle⟩ => ⟨.error f, c', (Nat.le_succ _).trans hle⟩
      | ⟨.ok v, c', hle⟩ => (perform p limits c' (caller.push v)).since ((Nat.le_succ _).trans hle)
    | .result v => ⟨.ok v, c.tick, Nat.le_succ _⟩
    | .fault f => ⟨.error f, c.tick, Nat.le_succ _⟩
termination_by (limits.steps + 1 - c.steps, 0)
decreasing_by
  all_goals
    simp only [Counters.steps_tick] at *
    apply Prod.Lex.left
    omega

end

variable {p : Program} {limits : Limits}

/-! ### The same as calls on a list of activations -/

/-- A call is refused, with the counters as they were, or its activation is performed one level deeper. -/
private theorem invoke_cases (p : Program) (limits : Limits) (c : Counters) (id : Nat) (self : Value)
    (args : List Value) :
    (∃ f, enter p limits (limits.depth - c.depth) id self args = .error f ∧
      (invoke p limits c id self args).outcome = .error f ∧ (invoke p limits c id self args).counters = c) ∨
    ∃ top, enter p limits (limits.depth - c.depth) id self args = .ok top ∧ top.room = limits.depth - c.deeper.depth ∧
      (invoke p limits c id self args).outcome = (perform p limits c.deeper top).outcome ∧
      (invoke p limits c id self args).counters = (perform p limits c.deeper top).counters.shallower := by
  rw [invoke]
  by_cases hdepth : limits.depth ≤ c.depth
  · rw [if_pos hdepth, Nat.sub_eq_zero_of_le hdepth]
    exact .inl ⟨_, rfl, rfl, rfl⟩
  · have hroom : limits.depth - c.depth = limits.depth - c.deeper.depth + 1 := by
      simp only [Counters.deeper]
      omega
    rw [if_neg hdepth, hroom]
    simp only [runMethod, enter]
    cases p.method? id with
    | none => exact .inl ⟨_, rfl, rfl, rfl⟩
    | some m =>
      simp only
      split
      · exact .inr ⟨_, rfl, rfl, rfl, rfl⟩
      · exact .inl ⟨_, rfl, rfl, rfl⟩

/-- A call of a method that cannot be called, or that fails, ends the caller; otherwise the caller goes on with the
counters that the call has left. -/
private theorem perform_call {c : Counters} {a caller : Activation} {callee : Nat} {receiver : Value}
    {args : List Value} (hdone : a.done = false) (hlimit : ¬limits.steps < c.tick.steps)
    (hstep : a.step = .call caller callee receiver args) :
    let e := invoke p limits c.tick callee receiver args
    (∀ f, e.outcome = .error f →
      (perform p limits c a).outcome = .error f ∧ (perform p limits c a).counters = e.counters) ∧
    ∀ v, e.outcome = .ok v →
      (perform p limits c a).outcome = (perform p limits e.counters (caller.push v)).outcome ∧
      (perform p limits c a).counters = (perform p limits e.counters (caller.push v)).counters := by
  intro e
  have hperform : perform p limits c a =
      match e with
      | ⟨.error f, c', hle⟩ => ⟨.error f, c', (Nat.le_succ _).trans hle⟩
      | ⟨.ok v, c', hle⟩ => (perform p limits c' (caller.push v)).since ((Nat.le_succ _).trans hle) := by
    rw [perform, if_neg (by simp [hdone]), if_neg hlimit]
    simp only [hstep]
    rfl
  rw [hperform]
  rcases e with ⟨_ | _, _, _⟩
  · refine ⟨fun f hf => ?_, fun v hv => ?_⟩
    · cases hf
      exact ⟨rfl, rfl⟩
    · cases hv
  · refine ⟨fun f hf => ?_, fun v hv => ?_⟩
    · cases hf
    · cases hv
      exact ⟨rfl, rfl⟩

/-- Hands the outcome on to the activations that wait for it. -/
def Ended.handOn {c : Counters} (p : Program) (limits : Limits) (e : Ended c) (waiting : List Activation) : Finished :=
  match e.outcome with
  | .ok v => resume p limits (limits.steps - e.counters.steps) e.counters.steps v waiting
  | .error f => ⟨.error f, e.counters.steps⟩

/-- Induction on the instructions that may still be executed. -/
theorem run_perform (c : Counters) (a : Activation) (hroom : a.room = limits.depth - c.depth)
    (waiting : List Activation) :
    run p limits (limits.steps - c.steps) c.steps waiting a = (perform p limits c a).handOn p limits waiting ∧
      (perform p limits c a).counters.depth = c.depth := by
  induction hn : limits.steps - c.steps using Nat.strong_induction_on generalizing c a waiting with
  | _ n ih =>
    subst hn
    by_cases hdone : a.done = true
    · rw [perform, if_pos hdone]
      exact ⟨run_done (c := ⟨waiting, a⟩) hdone, rfl⟩
    have hgoing : a.done = false := Bool.eq_false_of_not_eq_true hdone
    by_cases hlimit : limits.steps < c.tick.steps
    · rw [perform, if_neg hdone, if_pos hlimit, show limits.steps - c.steps = 0 by rw [c.steps_tick] at hlimit; omega]
      exact ⟨run_zero (c := ⟨waiting, a⟩) hgoing, rfl⟩
    have hleft : limits.steps - c.steps = limits.steps - c.tick.steps + 1 := by
      rw [c.steps_tick] at hlimit ⊢
      omega
    have hless : limits.steps - c.tick.steps < limits.steps - c.steps := by omega
    have hrun : run p limits (limits.steps - c.tick.steps + 1) c.steps waiting a = _ :=
      run_succ (c := ⟨waiting, a⟩) hgoing
    rw [hleft, hrun]
    simp only [advance]
    cases hstep : a.step with
    | next b =>
      rw [perform, if_neg hdone, if_neg hlimit]
      simp only [hstep]
      exact ih _ hless c.tick b ((Activation.room_of_next hstep).trans hroom) waiting rfl
    | result v =>
      rw [perform, if_neg hdone, if_neg hlimit]
      simp only [hstep]
      cases waiting with
      | nil => exact ⟨rfl, rfl⟩
      | cons caller waiting => exact ⟨rfl, rfl⟩
    | fault f =>
      rw [perform, if_neg hdone, if_neg hlimit]
      simp only [hstep]
      exact ⟨rfl, rfl⟩
    | call caller callee receiver args =>
      have hcaller : caller.room = limits.depth - c.depth := (Activation.room_of_call hstep).trans hroom
      obtain ⟨hfails, hreturns⟩ := perform_call (p := p) hgoing hlimit hstep
      rcases invoke_cases p limits c.tick callee receiver args with ⟨f, henter, houtcome, hcounters⟩ |
        ⟨top, henter, htop, houtcome, hcounters⟩
      · replace henter : enter p limits caller.room callee receiver args = .error f := hcaller ▸ henter
        obtain ⟨hout, hend⟩ := hfails f houtcome
        simp only [henter, Ended.handOn, hout, hend, hcounters]
        exact ⟨rfl, rfl⟩
      · replace henter : enter p limits caller.room callee receiver args = .ok top := hcaller ▸ henter
        obtain ⟨hbelow, hdepth⟩ := ih _ hless c.tick.deeper top htop (caller :: waiting) rfl
        have hcallee : Pending.run p limits (limits.steps - c.tick.steps) (c.steps + 1) ⟨caller :: waiting, top⟩ = _ :=
          hbelow
        rw [hcounters] at hfails hreturns
        -- the caller goes on as deep as it was
        have hafter : (perform p limits c.tick.deeper top).counters.shallower.depth = c.depth :=
          Counters.depth_shallower hdepth
        cases hout : (perform p limits c.tick.deeper top).outcome with
        | error f =>
          obtain ⟨hout', hend⟩ := hfails f (houtcome.trans hout)
          simp only [henter, hcallee, Ended.handOn, hout, hout', hend]
          exact ⟨rfl, hafter⟩
        | ok v =>
          obtain ⟨hout', hend⟩ := hreturns v (houtcome.trans hout)
          have hmore : c.steps < (perform p limits c.tick.deeper top).counters.shallower.steps :=
            (perform p limits c.tick.deeper top).steps_le
          have hresumed : (caller.push v).room =
              limits.depth - (perform p limits c.tick.deeper top).counters.shallower.depth := by
            rw [hafter]
            exact hcaller
          obtain ⟨hrest, hdepth'⟩ := ih _ (by omega) _ _ hresumed waiting rfl
          simp only [henter, hcallee, Ended.handOn, hout, hout', hend]
          exact ⟨hrest, hdepth'.trans hafter⟩

/-- Outside any other call, an invocation is a call from the instructions executed so far. -/
theorem invoke_eq_call (c : Counters) (hc : c.depth = 0) (id : Nat) (self : Value) (args : List Value) :
    call p limits c.steps id self args =
        ⟨(invoke p limits c id self args).outcome, (invoke p limits c id self args).counters.steps⟩ ∧
      (invoke p limits c id self args).counters.depth = 0 := by
  have hroom : limits.depth - c.depth = limits.depth := by rw [hc, Nat.sub_zero]
  rcases invoke_cases p limits c id self args with ⟨f, henter, houtcome, hcounters⟩ |
    ⟨top, henter, htop, houtcome, hcounters⟩
  all_goals
    rw [hroom] at henter
    simp only [call, henter, houtcome, hcounters]
  · exact ⟨trivial, hc⟩
  · obtain ⟨hrun, hdepth⟩ := run_perform (p := p) c.deeper top htop []
    refine ⟨hrun.trans ?_, (Counters.depth_shallower hdepth).trans hc⟩
    simp only [Ended.handOn]
    cases (perform p limits c.deeper top).outcome <;> rfl

/-! ### Many calls -/

/-- A request for a call. -/
structure Invocation where
  id : Nat
  self : Value
  args : List Value

/-- The counters after a call, whatever came of it. -/
def Counters.after (p : Program) (limits : Limits) (c : Counters) (k : Invocation) : Counters :=
  (invoke p limits c k.id k.self k.args).counters

theorem depth_foldl_after (p : Program) (limits : Limits) (calls : List Invocation) :
    (calls.foldl (Counters.after p limits) .start).depth = 0 := by
  induction calls using List.reverseRecOn with
  | nil => rfl
  | append_singleton calls k ih =>
    rw [List.foldl_append]
    exact (invoke_eq_call _ ih k.id k.self k.args).2

/-- A call made after any others leaves no nesting behind and takes back no step.  It does what it would do on its own
if only the steps that the others have left were allowed, and takes as many steps as it would then, but the fault for
too many steps names the limit that is shared. -/
theorem calls_independent (p : Program) (limits : Limits) (earlier : List Invocation) (k : Invocation) :
    let c := earlier.foldl (Counters.after p limits) .start
    let e := invoke p limits c k.id k.self k.args
    let alone := invoke p ⟨limits.depth, limits.steps - c.steps⟩ .start k.id k.self k.args
    c.depth = 0 ∧ e.counters.depth = 0 ∧ c.steps ≤ e.counters.steps ∧
      e.outcome = alone.outcome.mapError (Fault.withStepLimit limits.steps) ∧
      e.counters.steps = c.steps + alone.counters.steps ∧
      call p limits c.steps k.id k.self k.args = ⟨e.outcome, e.counters.steps⟩ := by
  intro c e alone
  have hc : c.depth = 0 := depth_foldl_after p limits earlier
  obtain ⟨hcall, hdepth⟩ := invoke_eq_call (p := p) c hc k.id k.self k.args
  have halone : call p ⟨limits.depth, limits.steps - c.steps⟩ 0 k.id k.self k.args =
      ⟨alone.outcome, alone.counters.steps⟩ :=
    (invoke_eq_call Counters.start rfl k.id k.self k.args).1
  have hshift := hcall.symm.trans (call_resumed p limits c.steps k.id k.self k.args)
  rw [halone, Finished.mk.injEq] at hshift
  exact ⟨hc, hdepth, e.steps_le, hshift.1, hshift.2, hcall⟩

end StackMachine.Interpreter
