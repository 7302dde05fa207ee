import Mathlib
import StackMachine.Proofs.CallSites

/-!
# Compiled methods

`Listed` is what code generation makes of a stream of instructions: the templates one after the other, with the height
of the operand stack, and at each call site the entry of the callee.  A method is `Compiled` when such code is placed
and its callees are compiled in what was placed before it.

* `body_runs`: code for a stream with a `leave` returns the value of its word evaluation.
* `Compiled.answers`: calling a compiled method returns the value of its word evaluation, on every frame stack with
  enough room.
-/

namespace StackMachine.Native

open X86 (Reg Operand Assembly)
open Template
open FrameStack (Unchanged)

/-- Code for a stream of instructions, when the operand stack has a height and callees have entries. -/
inductive Listed (p : Program) (method : Method) (target : Nat → CodePtr → Prop) :
    List (Nat × Insn) → Nat → Assembly → Prop where
  | nil {height} : Listed p method target [] height []
  | plain {pc i rest height e code} (he : emit method pc height i = .ok e)
      (next : Listed p method target rest e.height code) :
      Listed p method target ((pc, i) :: rest) height (e.code ++ code)
  | send {pc idx rest height c entry code} (hp : Call.plan p method pc height idx = .ok c)
      (ht : target c.callee entry) (next : Listed p method target rest (height - c.args.length) code) :
      Listed p method target ((pc, .send idx) :: rest) height (c.code entry ++ code)

/-- A method whose code is placed at an entry, with calls nested at most `n` deep, this one counted. -/
inductive Compiled (p : Program) : List Placement → Nat → Nat → CodePtr → Prop where
  | mk {placed older n id entry method code target} (hm : p.method? id = some method)
      (hp : Machine.Placed placed entry.addr code older) (hl : Listed p method target method.sweep.insns 0 code)
      (hr : ∃ pc, (pc, Insn.leave) ∈ method.sweep.insns)
      (hc : ∀ callee entry, target callee entry → Compiled p older n callee entry) :
      Compiled p placed (n + 1) id entry

namespace Machine

variable {size n : Nat} {placed : List Placement} {code rest : Assembly} {m₀ m m' : Machine} {self v : Value}
  {args stack : List Value}

/-! ### Inside a method -/

/-- The machine executes the code that was called in `m₀`. -/
structure Inside (m₀ m : Machine) : Prop where
  keeps : Keeps clobbered (m₀.pushCell .returnAddress) m
  current_eq : m.frames.current = m₀.frames.current
  unchanged : Unchanged m₀.frames.current m₀.frames.frame.sp m₀.frames m.frames

theorem Inside.start (m : Machine) : Inside m (m.pushCell .returnAddress) := ⟨.refl _ _, rfl, .refl _ _ _⟩

theorem Inside.advance (h : Inside m₀ m) (hk : Keeps clobbered m m') (hc : m'.frames.current = m.frames.current)
    (hu : Unchanged m.frames.current m.frames.frame.sp m.frames m'.frames) : Inside m₀ m' := by
  have hf := h.unchanged.frame h.current_eq (Nat.le_refl _)
  refine ⟨h.keeps.trans hk, hc.trans h.current_eq, h.unchanged.trans ?_⟩
  rw [← h.current_eq, ← hf]
  exact hu

/-- What `Ready` promised still holds. -/
theorem Inside.room (h : Inside m₀ m) (hr : m₀.frames.Room n) : m.frames.Room n :=
  hr.congr h.current_eq (h.unchanged.frame h.current_eq (Nat.le_refl _)) h.unchanged.valuesSize

theorem Inside.caller (h : Inside m₀ m) (hc : Tame size m₀.frames.caller) : Tame size m.frames.caller := by
  have hu : Unchanged (m₀.frames.current + 1) m₀.frames.frame.sp m₀.frames m.frames :=
    h.unchanged.mono (Nat.le_succ _) (Nat.le_refl _)
  refine hc.congr ⟨hu.framesSize, hu.valuesSize, hu.frames, hu.values⟩ ?_
  show m.frames.current + 1 = m₀.frames.current + 1
  rw [h.current_eq]

theorem Active.pushCell (h : m.Active self args []) (c : Cell) : (m.pushCell c).Active self args [] :=
  ⟨(get_pushCell (by decide) _ _).trans h.context_eq, (get_pushCell (by decide) _ _).trans h.frame_eq, h.addressable,
    h.activated, trivial⟩

/-- The template of `leave` returns the top of the stack. -/
theorem leave_returns (h : m.Active self args (v :: stack)) (hi : Inside m₀ m) (ht : Tame size m.frames)
    (hc : Tame size m.frames.caller) {top : Reg}
    (htop : slots[stack.length]? = some top) :
    ∃ m', Runs (Within size) placed (leave top ++ rest) m m' ∧ Returned m₀ m' v := by
  obtain ⟨r, hr, hv⟩ := h.holds.1
  obtain rfl : r = top := Option.some.inj (hr.symm.trans htop)
  have hmem := mem_slots htop
  have hne : ∀ r ∈ slots, r ∉ [Template.frame] := by decide
  -- the caller's frame becomes current
  obtain ⟨m₁, h₁, hf₁, hk₁, hr₁⟩ := step_alu_imm (m := m) .add Template.frame Layout.frameSize
    (w := Layout.frameAddr (m.frames.current + 1))
    (by rw [h.frame_eq]; exact congrArg some (Layout.frameAddr_add m.frames.current 1))
  have h₂ := step_cfp (m := m₁) (by rw [hf₁]; exact h.addressable) ((hk₁.regs _ (by decide)).trans h.context_eq) hr₁
    (by rw [hf₁, ht.size_eq]; exact hc.current_lt)
  rw [hf₁] at h₂
  -- the result
  have h₃ : (m₁.setFrames m.frames.caller).step (.mov (.reg result) (.reg r)) =
      .ok ((m₁.setFrames m.frames.caller).setReg result v.raw) := by
    show Except.ok ((m₁.setFrames m.frames.caller).setReg result (m₁.regs.get r)) = _
    rw [hk₁.regs _ (hne r hmem), hv]
  have hnative : ((m₁.setFrames m.frames.caller).setReg result v.raw).native = .returnAddress :: m₀.native :=
    hk₁.native.trans hi.keeps.native
  obtain ⟨m₄, hp, hn₄, hf₄, hsp₄, hr₄⟩ := popCell_of_cons hnative
  have hret : ((m₁.setFrames m.frames.caller).setReg result v.raw).ret = .ok m₄ := by
    simp only [ret, hp, bind, Except.bind]
    rfl
  refine ⟨m₄, ?_, ?_⟩
  · have hlead : Leads (Within size) placed [.alu .add (.reg Template.frame) (imm Layout.frameSize),
        .mov (.mem context (Int32.ofNat Layout.cfp)) (.reg Template.frame), .mov (.reg result) (.reg r)] m
        ((m₁.setFrames m.frames.caller).setReg result v.raw) :=
      .quiet ht (by simp) h₁ (.quiet (hf₁ ▸ ht) (by simp) h₂ (.quiet hc (by simp [frameField]) h₃ .nil))
    exact hlead _ _ (.ret (.of_head hc (by simp) _) hret)
  · have hregs : ∀ r, r ∉ Template.frame :: clobbered → r ≠ .rsp → m₄.regs.get r = m₀.regs.get r := by
      intro r hr hsp
      rw [List.mem_cons, not_or] at hr
      have hres : result ≠ r := by
        rintro rfl
        exact hr.2 (by decide)
      rw [hr₄ r hsp, get_setReg, if_neg hres]
      exact (hk₁.regs r (by simpa using hr.1)).trans ((hi.keeps.regs r hr.2).trans (get_pushCell hsp _ _))
    have hsp : m₄.regs.get .rsp = m₀.regs.get .rsp := by
      have hsp₀ : (m₀.pushCell .returnAddress).regs.get .rsp = m₀.regs.get .rsp - 8 := get_setReg_self _ _ _
      rw [hsp₄, get_setReg, if_neg (by decide)]
      show m₁.regs.get .rsp + 8 = _
      rw [hk₁.regs _ (by decide), hi.keeps.regs _ (by decide), hsp₀, UInt64.sub_add_cancel]
    have hframes : m₄.frames = m.frames.caller := hf₄
    refine ⟨?_, ⟨fun r hr => ?_, hn₄⟩, ?_, ?_, ?_⟩
    · rw [hr₄ _ (by decide), get_setReg_self]
    · by_cases hrsp : r = .rsp
      · rw [hrsp, hsp]
      · exact hregs r hr hrsp
    · rw [hr₄ _ (by decide), get_setReg, if_neg (by decide), hframes]
      exact hr₁
    · rw [hframes, ← hi.current_eq]
      rfl
    · rw [hframes]
      exact ⟨hi.unchanged.framesSize, hi.unchanged.valuesSize, hi.unchanged.frames, hi.unchanged.values⟩

/-! ### Whole methods -/

/-- Calls of the targets return what word evaluation gives, and `n` calls can be nested below the current one. -/
def Serves (size : Nat) (placed : List Placement) (p : Program) (n : Nat) (target : Nat → CodePtr → Prop) : Prop :=
  ∀ callee entry method receiver params, target callee entry → p.method? callee = some method →
    params.length = method.locals → 1 ≤ n ∧ ∀ m, Ready size n m receiver params →
      ∃ v, Words.call p n callee receiver params = some v ∧ Answers size placed entry.addr m v

/-- Code for a stream with a `leave` returns the value of its word evaluation. -/
theorem body_runs {p : Program} {method : Method} {target : Nat → CodePtr → Prop} {insns : List (Nat × Insn)}
    {height : Nat} (hl : Listed p method target insns height code) (hleave : ∃ pc, (pc, Insn.leave) ∈ insns)
    (hserves : Serves size placed p n target) (hargs : args.length = method.locals)
    (hroom : m₀.frames.Room (n + 1)) (hcaller : Tame size m₀.frames.caller)
    (hi : Inside m₀ m) (h : m.Active self args stack) (hheight : stack.length = height) :
    ∃ v, Words.run (Words.call p n) method self args insns stack = some v ∧
      ∃ m', Runs (Within size) placed code m m' ∧ Returned m₀ m' v := by
  induction hl generalizing m stack with
  | nil => simp at hleave
  | @plain pc i rest height e code he next ih =>
    subst hheight
    have hcaller' := hi.caller hcaller
    have ht : Tame size m.frames :=
      ⟨hcaller'.size_eq, Nat.lt_of_succ_lt hcaller'.current_lt, (hi.room hroom).mono (by omega)⟩
    by_cases hleave' : i = .leave
    · subst hleave'
      simp only [emit] at he
      split at he
      · cases he
      rename_i top htop
      cases he
      obtain ⟨v, hv, _, hs⟩ := h.holds.peek htop
      cases stack with
      | nil => simp at hv
      | cons head stack =>
        obtain rfl : head = v := by simpa using hv
        obtain ⟨m', hruns, hret⟩ : ∃ m', Runs (Within size) placed (leave top ++ code) m m' ∧ Returned m₀ m' head :=
          leave_returns h hi ht hcaller' (by simpa using hs)
        exact ⟨head, Words.run_leave, m', hruns, hret⟩
    · obtain ⟨stack', heff, hlen, m₁, hlead, hact, hk, hc, hu⟩ := emit_advances placed h ht hargs he hleave'
      obtain ⟨v, hv, m', hruns, hret⟩ := ih (by simpa [Ne.symm hleave'] using hleave) (hi.advance hk hc hu) hact hlen
      exact ⟨v, by rw [Words.run_effect heff, hv], m', hlead _ _ hruns, hret⟩
  | @send pc idx rest height c entry code hp ht next ih =>
    subst hheight
    obtain ⟨site, callee, receiver, params, below, hsite, hcallee, hid, hcount, hargc, hlocals, hclen, rfl, hops⟩ :=
      plan_operands h.holds hp
    obtain ⟨hn, hans⟩ := hserves c.callee entry callee receiver params ht (hid ▸ hcallee) hlocals
    have hcaller' := hi.caller hcaller
    obtain ⟨w, hw, m₁, hlead, hact, hk, hc, hu⟩ := code_advances h (hi.room hroom) hcaller'.size_eq hn hops hans
    obtain ⟨v, hv, m', hruns, hret⟩ := ih (by simpa using hleave) (hi.advance hk hc hu) hact
      (by simp only [List.length_cons, List.length_append, List.length_reverse]; omega)
    exact ⟨v, by rw [Words.run_send hsite hcount hargc (hid ▸ hw), hv], m', hlead _ _ hruns, hret⟩

end Machine

open Machine in
/-- A compiled method returns the value of its word evaluation. -/
theorem Compiled.answers {p : Program} {placed : List Placement} {n id size : Nat} {entry : CodePtr}
    (h : Compiled p placed n id entry) {method : Method} (hm : p.method? id = some method) {self : Value}
    {args : List Value} (ha : args.length = method.locals) {m : Machine} (hready : Ready size n m self args) :
    ∃ v, Words.call p n id self args = some v ∧ Answers size placed entry.addr m v := by
  induction h generalizing method self args m with
  | @mk placed older n id entry method' code target hm' hp hl hleave hc ih =>
    obtain rfl : method' = method := Option.some.inj (hm'.symm.trans hm)
    have hserves : Serves size older p n target := by
      intro callee entry' method receiver params ht hm ha
      refine ⟨?_, fun m hready => ih callee entry' ht hm ha hready⟩
      obtain ⟨⟩ := hc callee entry' ht
      omega
    obtain ⟨v, hv, m', hruns, hret⟩ := body_runs hl hleave hserves ha hready.room hready.caller (.start m)
      (hready.active.pushCell .returnAddress) rfl
    refine ⟨v, ?_, code, older, m', hp, hruns, hret⟩
    rw [Words.call]
    simp only [hm, if_pos ha, hv]

end StackMachine.Native
