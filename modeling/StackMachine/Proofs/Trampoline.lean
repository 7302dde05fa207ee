import Mathlib
import StackMachine.Native.Jit
import StackMachine.Proofs.CompiledMethods

/-!
# The trampoline

Native code is entered through the trampoline, which saves the two reserved registers, sets them from its arguments,
calls the entry and restores them (`trampoline_runs`).  The frame stack of an execution has room for a chain of as many
calls as the program has methods (`forDepth_push`).
-/

namespace StackMachine.Native

open X86 (Reg Operand Assembly)
open Template
open FrameStack (Unchanged)

namespace Machine

/-- The trampoline's arguments: the execution context, the current frame and the code to call. -/
structure Entering (m : Machine) (entry : CodePtr) : Prop where
  context_eq : m.regs.get .rdi = UInt64.ofNat Layout.contextBase
  frame_eq : m.regs.get .rsi = Layout.frameAddr m.frames.current
  entry_eq : m.regs.get .rdx = entry.addr

variable {size n id : Nat} {placed : List Placement} {m : Machine} {p : Program} {entry : CodePtr} {self : Value}
  {args : List Value}

/-- Calling the trampoline for a compiled method. -/
theorem trampoline_runs (h : Compiled p placed n id entry) {method : Method} (hm : p.method? id = some method)
    (ha : args.length = method.locals) (he : m.Entering entry) (haddr : m.frames.Addressable)
    (hact : m.frames.Activated self args) (hroom : m.frames.Room n)
    (hcaller : Tame size m.frames.caller) :
    ∃ v m', Words.call p n id self args = some v ∧
      Runs (Within size) placed Jit.trampolineCode (m.pushCell .returnAddress) m' ∧ m'.regs.get .rax = v.raw ∧
      Keeps clobbered m m' ∧ m'.frames.current = m.frames.current + 1 ∧
      Unchanged m.frames.current m.frames.frame.sp m.frames m'.frames := by
  have hn : 1 ≤ n := by
    obtain ⟨⟩ := h
    omega
  obtain ⟨m₂, hm₂⟩ : ∃ m₂, pushRegs [context, Template.frame] (m.pushCell .returnAddress) = m₂ := ⟨_, rfl⟩
  have hf₂ : m₂.frames = m.frames := by
    rw [← hm₂, frames_pushRegs]
    rfl
  have hr₂ : ∀ r, r ≠ .rsp → m₂.regs.get r = m.regs.get r := by
    intro r hr
    rw [← hm₂, get_pushRegs hr, get_pushCell hr]
  obtain ⟨m₃, hm₃⟩ : ∃ m₃, (m₂.setReg context (m₂.regs.get .rdi)).setReg Template.frame (m₂.regs.get .rsi) = m₃ :=
    ⟨_, rfl⟩
  have hf₃ : m₃.frames = m.frames := by
    rw [← hm₃]
    exact hf₂
  have hready : Ready size n m₃ self args := by
    refine ⟨⟨?_, ?_, ?_, ?_, trivial⟩, ?_, ?_⟩
    · rw [← hm₃, get_setReg, if_neg (by decide), get_setReg_self, hr₂ _ (by decide), he.context_eq]
    · rw [hf₃, ← hm₃, get_setReg_self, hr₂ _ (by decide), he.frame_eq]
    · rw [hf₃]
      exact haddr
    · rw [hf₃]
      exact hact
    · rw [hf₃]
      exact hroom
    · rw [hf₃]
      exact hcaller
  have ht := hready.tame hn
  rw [hf₃] at ht
  obtain ⟨v, hv, code, older, m₄, hplaced, hruns, hret⟩ := h.answers hm ha hready
  have hread : m₃.read (.reg .rdx) = .ok entry.addr := by
    show Except.ok (m₃.regs.get .rdx) = _
    rw [← hm₃, get_setReg, if_neg (by decide), get_setReg, if_neg (by decide), hr₂ _ (by decide), he.entry_eq]
  -- the call, after the reserved registers are set
  have hlead : Leads (Within size) placed [.mov (.reg context) (.reg .rdi), .mov (.reg Template.frame) (.reg .rsi),
      .call (.reg .rdx)] m₂ m₄ := by
    have hcall : Leads (Within size) placed [.call (.reg .rdx)] m₃ m₄ :=
      .call (fun _ => .of_head (hready.tame hn) (by simp) _) hread hplaced hruns
    refine .quiet (hf₂ ▸ ht) (by simp [frameField]) rfl (.quiet (hf₂ ▸ ht) (by simp [frameField]) ?_ hcall)
    show Except.ok ((m₂.setReg context _).setReg Template.frame ((m₂.setReg context _).regs.get .rsi)) = _
    rw [← hm₃, get_setReg, if_neg (by decide)]
  -- the trampoline itself changes the reserved registers only, and these are saved
  have hk : ∀ r, r ∉ Template.frame :: clobbered → r ≠ context → m₄.regs.get r = m₂.regs.get r := by
    intro r hr hc
    have hf : Template.frame ≠ r := fun h => hr (h ▸ List.mem_cons_self ..)
    rw [hret.keeps.regs r hr, ← hm₃, get_setReg, if_neg hf, get_setReg, if_neg hc.symm]
  have ht₄ : Tame size m₄.frames := by
    have hu := hret.unchanged.mono (Nat.le_succ _) (Nat.le_refl _)
    rw [hf₃] at hu
    refine hcaller.congr ⟨hu.framesSize, hu.valuesSize, hu.frames, hu.values⟩ ?_
    rw [hret.current_eq, hf₃]
    rfl
  obtain ⟨m₅, hl₅, hf₅, hn₅, hr₅⟩ := save_restore (show Reg.rsp ∉ [context, Template.frame] by decide)
    (show Tame size (m.pushCell .returnAddress).frames from ht) ht₄ (hm₂ ▸ hlead)
    (by rw [hret.keeps.native, ← hm₃, hm₂]; rfl) (by rw [hm₂]; exact hk _ (by decide) (by decide))
  obtain ⟨m₆, hp, hn₆, hf₆, hsp₆, hr₆⟩ := popCell_of_cons (m := m₅) hn₅
  have hreturn : m₅.ret = .ok m₆ := by
    simp only [Machine.ret, hp, bind, Except.bind]
    rfl
  refine ⟨v, m₆, hv, ?_, ?_, ⟨fun r hr => ?_, hn₆⟩, ?_, ?_⟩
  · exact hl₅ _ _ (.ret (.of_head (hf₅ ▸ ht₄) (by simp) _) hreturn)
  · rw [hr₆ _ (by decide), hr₅, if_neg (by decide), ← hret.result_eq]
    rfl
  · by_cases hsp : r = .rsp
    · subst hsp
      have hsp₁ : (m.pushCell .returnAddress).regs.get .rsp = m.regs.get .rsp - 8 := get_setReg_self _ _ _
      rw [hsp₆, hr₅, if_pos (.inl rfl), hsp₁, UInt64.sub_add_cancel]
    · rw [hr₆ r hsp, hr₅]
      by_cases hmem : r ∈ [context, Template.frame]
      · rw [if_pos (.inr hmem), get_pushCell hsp]
      · simp only [List.mem_cons, List.not_mem_nil, or_false, not_or] at hmem
        rw [if_neg (by simp [hsp, hmem.1, hmem.2]), hk r (by simp [hmem.2, hr]) hmem.1, hr₂ r hsp]
  · rw [hf₆, hf₅, hret.current_eq, hf₃]
  · have hu := hret.unchanged
    rw [hf₃] at hu
    rw [hf₆, hf₅]
    exact hu

end Machine

/-! ### The machine of an execution -/

private theorem Registers.ext_get {rs rs' : Registers} (h : ∀ r, rs'.get r = rs.get r) : rs' = rs := by
  have hwords : rs'.words = rs.words := by
    apply Vector.ext
    intro i hi
    have hnum : ∀ i, i < 16 → (Reg.ofNumber i).number = i := by decide
    have := h (Reg.ofNumber i)
    simp only [Registers.get, hnum i hi] at this
    exact this
  cases rs
  cases rs'
  simp_all

/-- An execution starts as if the trampoline had just been called. -/
theorem Jit.entryMachine_eq (frames : FrameStack) (entry : CodePtr) :
    ∃ m : Machine, m.frames = frames ∧ m.Entering entry ∧ m.pushCell .returnAddress = entryMachine frames entry := by
  obtain ⟨regs, hregs⟩ : ∃ regs, (entryMachine frames entry).regs = regs := ⟨_, rfl⟩
  have hget : regs.get .rsp = 0 ∧ regs.get .rdi = UInt64.ofNat Layout.contextBase ∧
      regs.get .rsi = Layout.frameAddr frames.current ∧ regs.get .rdx = entry.addr := by
    rw [← hregs]
    simp only [entryMachine, Registers.get_set]
    exact ⟨rfl, rfl, rfl, rfl⟩
  refine ⟨⟨regs.set .rsp 8, false, [], frames⟩, rfl, ⟨?_, ?_, ?_⟩, ?_⟩
  · exact (Registers.get_set _ _ _ _).trans hget.2.1
  · exact (Registers.get_set _ _ _ _).trans hget.2.2.1
  · exact (Registers.get_set _ _ _ _).trans hget.2.2.2
  · have hback : ((regs.set .rsp 8).set .rsp ((regs.set .rsp 8).get .rsp - 8)) = regs := by
      apply Registers.ext_get
      intro r
      rw [Registers.get_set, Registers.get_set, Registers.get_set, if_pos rfl]
      by_cases hr : Reg.rsp = r
      · subst hr
        rw [if_pos rfl, hget.1]
        rfl
      · rw [if_neg hr, if_neg hr]
    show Machine.mk ((regs.set .rsp 8).set .rsp ((regs.set .rsp 8).get .rsp - 8)) false [.returnAddress] frames = _
    rw [hback, ← hregs]
    rfl

/-! ### The frame stack of an execution -/

namespace FrameStack

theorem size_forDepth (depth entryArgs : Nat) :
    (forDepth depth entryArgs).frames.size = depth + 2 ∧
      (forDepth depth entryArgs).values.size = (depth + 2) * wordsPerFrame + entryArgs := by
  simp only [forDepth, new, Array.size_replicate, wordsPerFrame]
  omega

theorem root_forDepth (depth entryArgs : Nat) : (forDepth depth entryArgs).root = depth + 1 := by
  rw [root, (size_forDepth depth entryArgs).1]
  rfl

theorem current_forDepth (depth entryArgs : Nat) : (forDepth depth entryArgs).current = depth + 1 := by
  simp only [forDepth, new]
  omega

private theorem frame_forDepth (depth entryArgs : Nat) : (forDepth depth entryArgs).frame = .empty := by
  rw [frame, current_forDepth]
  simp only [forDepth, new, Array.getD_eq_getD_getElem?]
  rw [Array.getElem?_replicate, if_pos (by omega)]
  rfl

private theorem tame_forDepth (depth entryArgs : Nat) : Tame (depth + 2) (forDepth depth entryArgs) := by
  have hsize := size_forDepth depth entryArgs
  have hcur := current_forDepth depth entryArgs
  refine ⟨hsize.1, by omega, by omega, ?_⟩
  rw [frame_forDepth, hsize.2]
  simp only [Frame.empty, wordsPerFrame]
  omega

variable {depth : Nat} {self : Value} {args : List Value} {method : UInt64} {t : FrameStack}

theorem forDepth_push (depth : Nat) (self : Value) (args : List Value) (method : UInt64) :
    ∃ t, (forDepth depth args.length).push self args method = some t := by
  have hsize := size_forDepth depth args.length
  have hcur := current_forDepth depth args.length
  refine ⟨_, if_neg ?_⟩
  rw [hcur, hsize.2, frame_forDepth]
  simp only [Frame.empty, wordsPerFrame]
  omega

/-- The entry call has its frame below the root and room for its chain of calls. -/
theorem push_forDepth (hp : (forDepth depth args.length).push self args method = some t) :
    t.current = depth ∧ t.Room depth ∧ t.Activated self args ∧ Tame (depth + 2) t.caller := by
  have hsize := size_forDepth depth args.length
  have hcur := current_forDepth depth args.length
  have hu := unchanged_push hp
  have hlt : (forDepth depth args.length).current < (forDepth depth args.length).frames.size := by omega
  have hcur' : t.current = depth := by
    have := current_push hp
    omega
  refine ⟨hcur', ⟨by omega, ?_⟩, activated_push hp hlt, ?_⟩
  · rw [frame_push hp hlt, hu.valuesSize, hsize.2, frame_forDepth]
    simp only [Frame.empty, wordsPerFrame]
    omega
  · refine (tame_forDepth depth args.length).congr ⟨hu.framesSize, hu.valuesSize, hu.frames, hu.values⟩ ?_
    show t.current + 1 = _
    omega

end FrameStack

end StackMachine.Native
