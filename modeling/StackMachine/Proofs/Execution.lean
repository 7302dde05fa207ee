import Mathlib
import StackMachine.Native.Machine

/-!
# Runs of generated code

`Visits` are the configurations that a run of `Machine.exec` passes through, those of the code that it calls included.
`Runs P` says that a run returns and that `P` holds wherever it passes; `Leads P` is the same for a piece of code in
the middle of a run.  Runs are put together from single instructions (`Leads.step`), calls (`Leads.call`) and the final
return (`Runs.ret`).

The native stack and the registers that a piece of code leaves alone are stated by `Keeps`.
-/

namespace StackMachine.Native.Machine

open X86 (Reg Operand Assembly)

/-- Executes code without calls and returns. -/
def steps : Assembly → Machine → Except Crash Machine
  | [], m => .ok m
  | i :: code, m =>
    match m.step i with
    | .ok m => steps code m
    | .error e => .error e

/-- The code of the newest placement at an address, and what was placed before it. -/
def Placed (placed : List Placement) (addr : UInt64) (code : Assembly) (older : List Placement) : Prop :=
  ∃ h, find? addr placed = some (code, ⟨older, h⟩)

/-- Configurations of a run: what is left of the code that is being executed, and the machine. -/
inductive Visits : List Placement → Assembly → Machine → Assembly → Machine → Prop where
  | here {placed code m} : Visits placed code m code m
  | step {placed i rest m m₁ code' m'} (h : m.step i = .ok m₁) (next : Visits placed rest m₁ code' m') :
      Visits placed (i :: rest) m code' m'
  | enter {placed target rest m addr callee older code' m'} (hr : m.read target = .ok addr)
      (hp : Placed placed addr callee older) (next : Visits older callee (m.pushCell .returnAddress) code' m') :
      Visits placed (.call target :: rest) m code' m'
  | resume {placed target rest m addr callee older m₁ code' m'} (hr : m.read target = .ok addr)
      (hp : Placed placed addr callee older) (hc : exec older callee (m.pushCell .returnAddress) = .ok m₁)
      (next : Visits placed rest m₁ code' m') : Visits placed (.call target :: rest) m code' m'

/-- The code returns with `m'`, and `P` holds of every configuration of the run. -/
structure Runs (P : Assembly → Machine → Prop) (placed : List Placement) (code : Assembly) (m m' : Machine) :
    Prop where
  exec : exec placed code m = .ok m'
  visits : ∀ code' m₁, Visits placed code m code' m₁ → P code' m₁

/-- A run that comes to this code in `m` comes to its end in `m'`, and `P` holds on the way. -/
def Leads (P : Assembly → Machine → Prop) (placed : List Placement) (code : Assembly) (m m' : Machine) : Prop :=
  ∀ rest last, Runs P placed rest m' last → Runs P placed (code ++ rest) m last

/-! ### Single instructions -/

variable {P : Assembly → Machine → Prop} {placed older : List Placement} {code code₁ code₂ rest : Assembly}
  {m m' m₁ m₂ : Machine} {i : X86.Insn} {addr : UInt64}

private theorem exec_ret : exec placed (.ret :: rest) m = m.ret := by
  rw [exec]

private theorem exec_step (h : m.step i = .ok m₁) : exec placed (i :: rest) m = exec placed rest m₁ := by
  cases i with
  | call target => simp [step] at h
  | ret => simp [step] at h
  | _ =>
    rw [exec]
    · simp only [h]
    all_goals simp

private theorem exec_call {target : Operand} {callee : Assembly} (hr : m.read target = .ok addr)
    (hp : Placed placed addr callee older) (hc : exec older callee (m.pushCell .returnAddress) = .ok m₁) :
    exec placed (.call target :: rest) m = exec placed rest m₁ := by
  obtain ⟨h, hf⟩ := hp
  rw [exec]
  simp only [hr, hf, hc]

theorem Placed.unique {callee callee' : Assembly} {older' : List Placement}
    (h : Placed placed addr callee older) (h' : Placed placed addr callee' older') :
    callee = callee' ∧ older = older' := by
  obtain ⟨_, h⟩ := h
  obtain ⟨_, h'⟩ := h'
  rw [h] at h'
  simpa using h'

/-- What a run that returns has done first. -/
theorem exec_cons_ok (h : exec placed (i :: rest) m = .ok m') :
    (i = .ret ∧ m.ret = .ok m') ∨ (∃ m₁, m.step i = .ok m₁ ∧ exec placed rest m₁ = .ok m') ∨
      ∃ target addr callee older m₁, i = .call target ∧ m.read target = .ok addr ∧ Placed placed addr callee older ∧
        exec older callee (m.pushCell .returnAddress) = .ok m₁ ∧ exec placed rest m₁ = .ok m' := by
  cases i with
  | ret => exact .inl ⟨rfl, by rwa [exec_ret] at h⟩
  | call target =>
    rw [exec] at h
    split at h
    · cases h
    rename_i addr hr
    split at h
    · cases h
    rename_i callee older hf
    split at h
    · cases h
    rename_i m₁ hc
    exact .inr (.inr ⟨target, addr, callee, older.1, m₁, rfl, hr, ⟨older.2, hf⟩, hc, h⟩)
  | mov | alu | cmovl | push | pop =>
    rw [exec] at h
    · split at h
      · cases h
      rename_i m₁ hs
      exact .inr (.inl ⟨m₁, hs, h⟩)
    all_goals simp

/-- The last instruction of a run. -/
theorem Runs.ret (hP : P (.ret :: rest) m) (h : m.ret = .ok m') : Runs P placed (.ret :: rest) m m' := by
  refine ⟨by rw [exec_ret, h], ?_⟩
  intro code' m₁ hv
  cases hv with
  | here => exact hP
  | step hs _ => simp [Machine.step] at hs

theorem Leads.nil : Leads P placed [] m m := fun _ _ h => h

theorem Leads.append (h₁ : Leads P placed code₁ m m₁) (h₂ : Leads P placed code₂ m₁ m₂) :
    Leads P placed (code₁ ++ code₂) m m₂ := by
  intro rest last h
  rw [List.append_assoc]
  exact h₁ _ _ (h₂ _ _ h)

theorem Leads.step (hP : ∀ rest, P (i :: (code ++ rest)) m) (h : m.step i = .ok m₁) (next : Leads P placed code m₁ m₂) :
    Leads P placed (i :: code) m m₂ := by
  intro rest last hr
  have hn := next _ _ hr
  refine ⟨by rw [List.cons_append, exec_step h]; exact hn.exec, ?_⟩
  intro code' m₃ hv
  cases hv with
  | here => exact hP rest
  | step hs hv =>
    rw [h] at hs
    cases hs
    exact hn.visits _ _ hv
  | enter | resume => simp [Machine.step] at h

/-- A call to placed code that runs to its return. -/
theorem Leads.call {target : Operand} {callee : Assembly} (hP : ∀ rest, P (.call target :: rest) m)
    (hr : m.read target = .ok addr) (hp : Placed placed addr callee older)
    (hc : Runs P older callee (m.pushCell .returnAddress) m₁) : Leads P placed [.call target] m m₁ := by
  intro rest last hl
  refine ⟨by rw [List.singleton_append, exec_call hr hp hc.exec]; exact hl.exec, ?_⟩
  intro code' m₃ hv
  cases hv with
  | here => exact hP rest
  | step hs _ => simp [Machine.step] at hs
  | enter hr' hp' hv =>
    rw [hr] at hr'
    cases hr'
    obtain ⟨rfl, rfl⟩ := hp.unique hp'
    exact hc.visits _ _ hv
  | resume hr' hp' hc' hv =>
    rw [hr] at hr'
    cases hr'
    obtain ⟨rfl, rfl⟩ := hp.unique hp'
    rw [hc.exec] at hc'
    cases hc'
    exact hl.visits _ _ hv

/-! ### What stays -/

/-- The native stack and all registers but the listed ones are as before. -/
structure Keeps (changed : List Reg) (m m' : Machine) : Prop where
  regs : ∀ r, r ∉ changed → m'.regs.get r = m.regs.get r
  native : m'.native = m.native

theorem get_setReg (m : Machine) (r s : Reg) (w : UInt64) :
    (m.setReg r w).regs.get s = if r = s then w else m.regs.get s := m.regs.get_set r s w

theorem get_setReg_self (m : Machine) (r : Reg) (w : UInt64) : (m.setReg r w).regs.get r = w := by
  rw [get_setReg, if_pos rfl]

/-- The machine with another signed-less flag. -/
def setFlag (m : Machine) (less : Bool) : Machine := { m with less := less }

namespace Keeps

variable {changed changed' : List Reg}

theorem refl (changed : List Reg) (m : Machine) : Keeps changed m m := ⟨fun _ _ => rfl, rfl⟩

theorem trans (h : Keeps changed m m₁) (h' : Keeps changed m₁ m₂) : Keeps changed m m₂ :=
  ⟨fun r hr => (h'.regs r hr).trans (h.regs r hr), h'.native.trans h.native⟩

theorem mono (h : Keeps changed m m') (hs : changed ⊆ changed') : Keeps changed' m m' :=
  ⟨fun r hr => h.regs r fun hc => hr (hs hc), h.native⟩

theorem setReg {r : Reg} (hr : r ∈ changed) (m : Machine) (w : UInt64) : Keeps changed m (m.setReg r w) :=
  ⟨fun s hs => by rw [get_setReg, if_neg (fun h : r = s => hs (h ▸ hr))], rfl⟩

theorem setFlag (m : Machine) (less : Bool) : Keeps changed m (m.setFlag less) := ⟨fun _ _ => rfl, rfl⟩

end Keeps

end StackMachine.Native.Machine
