import Mathlib
import StackMachine.Proofs.Emission
import StackMachine.Proofs.Results
import StackMachine.Proofs.Trampoline

/-!
# The native stack

Nothing in the machine bounds its native stack.  What generated code needs of it is known beforehand: five words for
each call that is nested, which are the registers that a call site saves and the return address.

* `Balanced` code takes back all that it has pushed before it returns.  One instruction keeps count of the words that
  are saved (`Balanced.step`), so a run gives the native stack back (`Balanced.exec_length`) and never needs more than
  the words that it may save and those of its callees (`Balanced.visits_length`).
* Generated code is balanced (`Listed.balanced`), so calls of a compiled method are `Bounded` (`Compiled.bounded`), and
  with them a run of the trampoline (`trampoline_visits_length`).
-/

namespace StackMachine.Native

open X86 (Reg Operand Assembly)
open Template (slots Call)

namespace Machine

variable {placed older : List Placement} {m m' m₁ : Machine} {code rest : Assembly} {i : X86.Insn}
  {limit base words : Nat} {kind : Operand → Prop} {stack : List Reg}

/-! ### Balanced code -/

/-- Code that comes with registers saved above its return address.  It never has more than `limit` of them there and
restores them in the opposite order, all of them before it returns.  It calls only targets of one kind. -/
def Balanced (limit : Nat) (kind : Operand → Prop) : List Reg → Assembly → Prop
  | _, [] => True
  | stack, .push r :: rest => stack.length < limit ∧ Balanced limit kind (r :: stack) rest
  | stack, .pop r :: rest => ∃ below, stack = r :: below ∧ Balanced limit kind below rest
  | stack, .call target :: rest => kind target ∧ Balanced limit kind stack rest
  | stack, .ret :: rest => stack = [] ∧ Balanced limit kind stack rest
  | stack, .mov _ _ :: rest => Balanced limit kind stack rest
  | stack, .alu _ _ _ :: rest => Balanced limit kind stack rest
  | stack, .cmovl _ _ :: rest => Balanced limit kind stack rest

/-- Code that uses the stack only to return can stand where nothing is saved. -/
theorem Balanced.prepend (hc : ∀ i ∈ code, i.usesStack = true → i = .ret) (h : Balanced limit kind [] rest) :
    Balanced limit kind [] (code ++ rest) := by
  induction code with
  | nil => exact h
  | cons i code ih =>
    rw [List.forall_mem_cons] at hc
    have hrest := ih hc.2
    cases i with
    | push | pop | call => cases hc.1 rfl
    | ret => exact ⟨rfl, hrest⟩
    | mov | alu | cmovl => exact hrest

private theorem native_write {dst : Operand} {w : UInt64} (h : m.write dst w = .ok m') : m'.native = m.native := by
  cases dst with
  | reg r =>
    cases h
    rfl
  | mem base disp =>
    simp only [write, store] at h
    split at h
    · cases h
      rfl
    · cases h
  | imm value => cases h

private theorem native_step (hi : i.usesStack = false) (h : m.step i = .ok m') : m'.native = m.native := by
  cases i with
  | push | pop | call | ret => cases hi
  | mov dst src =>
    obtain ⟨w, _, hw⟩ := bind_eq_ok h
    exact native_write hw
  | alu op dst src =>
    obtain ⟨a, _, h⟩ := bind_eq_ok h
    obtain ⟨b, _, h⟩ := bind_eq_ok h
    simp only at h
    split at h
    · exact (native_write h).trans rfl
    · cases h
      rfl
  | cmovl dst src =>
    obtain ⟨w, _, h⟩ := bind_eq_ok h
    split at h
    · exact native_write h
    · cases h
      rfl

private theorem length_popCell {c : Cell} (h : m.popCell = .ok (c, m')) : m.native.length = m'.native.length + 1 := by
  unfold popCell at h
  split at h
  · cases h
  · rename_i c' native hn
    cases h
    simp [hn]

/-- A step keeps count of the words that are saved. -/
theorem Balanced.step (h : Balanced limit kind stack (i :: rest)) (hle : stack.length ≤ limit)
    (hn : m.native.length = base + stack.length) (hs : m.step i = .ok m₁) :
    ∃ stack', Balanced limit kind stack' rest ∧ stack'.length ≤ limit ∧
      m₁.native.length = base + stack'.length := by
  cases i with
  | push r =>
    cases hs
    refine ⟨r :: stack, h.2, h.1, ?_⟩
    simp only [pushCell, List.length_cons]
    omega
  | pop r =>
    obtain ⟨below, rfl, h⟩ := h
    obtain ⟨⟨c, m₂⟩, hp, hs⟩ := bind_eq_ok hs
    have hlen := length_popCell hp
    rw [List.length_cons] at hle hn
    cases c with
    | word w =>
      cases hs
      refine ⟨below, h, by omega, ?_⟩
      simp only [setReg]
      omega
    | returnAddress => cases hs
  | call | ret => cases hs
  | mov | alu | cmovl => exact ⟨stack, h, hle, by rw [native_step rfl hs, hn]⟩

/-! ### Runs -/

/-- When it is called, the code gives the native stack back and needs at most so many words of it. -/
structure Bounded (words : Nat) (placed : List Placement) (code : Assembly) : Prop where
  exec_length : ∀ m m' : Machine, exec placed code (m.pushCell .returnAddress) = .ok m' →
    m'.native.length = m.native.length
  visits_length : ∀ (m : Machine) code' m', Visits placed code (m.pushCell .returnAddress) code' m' →
    m'.native.length ≤ m.native.length + words

variable (hkind : ∀ target, kind target → ∀ m addr code older, read m target = .ok addr →
  Placed placed addr code older → Bounded words older code)

include hkind in
theorem Balanced.exec_length (h : Balanced limit kind stack code) (hle : stack.length ≤ limit)
    (hn : m.native.length = base + 1 + stack.length) (he : exec placed code m = .ok m') : m'.native.length = base := by
  induction code generalizing m stack with
  | nil =>
    rw [exec] at he
    cases he
  | cons i rest ih =>
    rcases exec_cons_ok he with ⟨rfl, hret⟩ | ⟨m₁, hs, he⟩ | ⟨target, addr, callee, older, m₁, rfl, hr, hp, hc, he⟩
    · obtain ⟨⟨c, m₂⟩, hpop, hret⟩ := bind_eq_ok hret
      have hlen := length_popCell hpop
      rw [h.1, List.length_nil] at hn
      cases c with
      | word w => cases hret
      | returnAddress =>
        cases hret
        omega
    · obtain ⟨stack', hb, hle', hn'⟩ := h.step hle hn hs
      exact ih hb hle' hn' he
    · have hlen := (hkind target h.1 m addr callee older hr hp).exec_length m m₁ hc
      exact ih h.2 hle (hlen.trans hn) he

include hkind in
theorem Balanced.visits_length (h : Balanced limit kind stack code) (hle : stack.length ≤ limit)
    (hn : m.native.length = base + 1 + stack.length) {code' : Assembly} (hv : Visits placed code m code' m') :
    m'.native.length ≤ base + 1 + limit + words := by
  induction code generalizing m stack with
  | nil =>
    cases hv
    omega
  | cons i rest ih =>
    cases hv with
    | here => omega
    | step hs hv =>
      obtain ⟨stack', hb, hle', hn'⟩ := h.step hle hn hs
      exact ih hb hle' hn' hv
    | enter hr hp hv =>
      have := (hkind _ h.1 m _ _ _ hr hp).visits_length m _ _ hv
      omega
    | resume hr hp hc hv =>
      have hlen := (hkind _ h.1 m _ _ _ hr hp).exec_length m _ hc
      exact ih h.2 hle (hlen.trans hn) hv

end Machine

/-! ### Generated code -/

open Machine (Bounded)

variable {p : Program} {method : Method} {n id : Nat} {entry : CodePtr} {placed older : List Placement}
  {code : Assembly}

/-- Entering a call leaves the native stack alone. -/
theorem Template.Call.usesStack_enter (c : Call) : ∀ i ∈ c.enter, i.usesStack = false := by
  have hstore : ∀ i ∈ storeArgs c.args, i.usesStack = false := by
    intro i hi
    obtain ⟨k, _, rfl⟩ := List.mem_mapIdx.1 hi
    rfl
  have hskip : ∀ i ∈ skipArgs (c.args.length * Layout.wordSize), i.usesStack = false := by
    unfold skipArgs
    split
    · simp
    · simp [X86.Insn.usesStack]
  simp only [enter, List.append_assoc, List.cons_append, List.nil_append, List.forall_mem_append, List.forall_mem_cons]
  exact ⟨rfl, hstore, rfl, rfl, hskip, rfl, rfl, rfl, rfl, rfl, rfl, rfl, List.forall_mem_nil _⟩

/-- A call site saves the stack registers and takes them back. -/
theorem Listed.balanced {target : Nat → CodePtr → Prop} {insns : List (Nat × Insn)} {height : Nat}
    (h : Listed p method target insns height code) :
    Machine.Balanced slots.length
      (fun operand => ∃ callee entry, target callee entry ∧ operand = .imm entry.addr.toInt64) [] code := by
  induction h with
  | nil => trivial
  | plain he _ ih => exact .prepend (Template.emit_eq_ok.1 he).eq_ret_of_usesStack ih
  | @send pc idx rest height c entry code hp ht next ih =>
    simp only [Call.code, List.append_assoc]
    refine .prepend (fun i hi hu => ?_) ?_
    · rw [c.usesStack_enter i hi] at hu
      cases hu
    · exact ⟨by decide, by decide, by decide, by decide, ⟨_, _, ht, rfl⟩, _, rfl, _, rfl, _, rfl, _, rfl, ih⟩

/-- Each call that is nested takes a return address and the registers that its caller has saved. -/
theorem Compiled.bounded (h : Compiled p placed n id entry) (hp : Machine.Placed placed entry.addr code older) :
    Bounded (5 * n) older code := by
  induction h generalizing code older with
  | @mk placed older' n id entry method code' target hm hp' hl hr hc ih =>
    obtain ⟨rfl, rfl⟩ := hp.unique hp'
    have hkind : ∀ operand, (∃ callee entry, target callee entry ∧ operand = .imm entry.addr.toInt64) →
        ∀ m addr code' older', Machine.read m operand = .ok addr → Machine.Placed older addr code' older' →
          Bounded (5 * n) older' code' := by
      rintro _ ⟨callee, entry', ht, rfl⟩ m addr code' older' hread hplaced
      obtain rfl : entry'.addr = addr := by
        rw [← UInt64.toUInt64_toInt64 entry'.addr]
        exact Except.ok.inj hread
      exact ih callee entry' ht hplaced
    have hlen : ∀ m : Machine, (m.pushCell .returnAddress).native.length = m.native.length + 1 + 0 := fun _ => rfl
    refine ⟨fun m m' he => hl.balanced.exec_length hkind (Nat.zero_le _) (hlen m) he, fun m code' m' hv => ?_⟩
    have := hl.balanced.visits_length hkind (Nat.zero_le _) (hlen m) hv
    simp only [slots, List.length_cons, List.length_nil] at this
    omega

namespace Machine

/-- A run of code without calls is either still in it or has come to its end. -/
theorem Visits.of_steps {m m₁ m' : Machine} {rest code' : Assembly}
    (hv : Visits placed (code ++ rest) m code' m') (hs : m.steps code = .ok m₁) :
    (∃ todo, Visits placed code m todo m') ∨ Visits placed rest m₁ code' m' := by
  induction code generalizing m with
  | nil =>
    cases hs
    exact .inr hv
  | cons i code ih =>
    unfold steps at hs
    split at hs
    · rename_i m₂ hstep
      cases hv with
      | here => exact .inl ⟨_, .here⟩
      | step h next =>
        rw [hstep] at h
        cases h
        exact (ih next hs).imp_left fun ⟨todo, hv⟩ => ⟨todo, .step hstep hv⟩
      | enter | resume => cases hstep
    · cases hs

/-- The trampoline saves two registers around the call. -/
theorem trampoline_visits_length {m m' : Machine} (h : Compiled p placed n id entry) (he : m.Entering entry)
    (hv : Visits placed Jit.trampolineCode (m.pushCell .returnAddress) code m') :
    m'.native.length ≤ m.native.length + 3 + 5 * n := by
  have hkind : ∀ operand : Operand, False → ∀ (m : Machine) addr code older, m.read operand = .ok addr →
      Placed placed addr code older → Bounded 0 older code := by
    rintro _ ⟨⟩
  obtain ⟨m₃, hm₃⟩ : ∃ m₃, (m.pushCell .returnAddress).steps (Jit.trampolineCode.take 4) = .ok m₃ := ⟨_, rfl⟩
  have hrdx : m₃.regs.get .rdx = entry.addr := by
    cases hm₃
    rw [get_setReg, if_neg (by decide), get_setReg, if_neg (by decide), get_pushCell (by decide),
      get_pushCell (by decide), get_pushCell (by decide), he.entry_eq]
  have hlen : m₃.native.length = m.native.length + 1 + 2 := by
    cases hm₃
    rfl
  have hcode : Jit.trampolineCode = Jit.trampolineCode.take 4 ++ Jit.trampolineCode.drop 4 := rfl
  rw [hcode] at hv
  rcases hv.of_steps hm₃ with ⟨todo, hv⟩ | hv
  · have hb : Balanced 2 (fun _ => False) [] (Jit.trampolineCode.take 4) := ⟨by decide, by decide, trivial⟩
    have := hb.visits_length hkind (Nat.zero_le _) (show _ = m.native.length + 1 + 0 from rfl) hv
    omega
  · cases hv with
    | here => omega
    | step hs => cases hs
    | enter hr hp hv =>
      cases hr
      rw [hrdx] at hp
      have := (h.bounded hp).visits_length _ _ _ hv
      omega
    | resume hr hp hc hv =>
      cases hr
      rw [hrdx] at hp
      have hret := (h.bounded hp).exec_length _ _ hc
      have hb : Balanced 2 (fun _ => False) [Template.frame, Template.context]
          [.pop Template.frame, .pop Template.context, .ret] := ⟨_, rfl, _, rfl, rfl, trivial⟩
      have := hb.visits_length hkind le_rfl (hret.trans hlen) hv
      omega

end Machine

end StackMachine.Native
