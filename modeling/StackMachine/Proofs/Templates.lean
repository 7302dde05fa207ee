import Mathlib
import StackMachine.Native.Template
import StackMachine.Proofs.Activations
import StackMachine.Proofs.Addresses
import StackMachine.Proofs.Emission
import StackMachine.Proofs.Execution
import StackMachine.Proofs.WordEvaluation

/-!
# What the templates do

While a method runs, the machine is `Active` for its call: the reserved registers hold the addresses of the context and
of the current frame, that frame is the call's activation, and the operand stack is in the stack registers (`Holds`).
The template of an instruction that is no call and no return takes such a machine to one whose operand stack is the
one that word evaluation gives (`emit_advances`), without touching the frame stack.

`Within` is what is to be shown of every configuration of a run: there is room on the frame stack, and a call site
that is about to run pushes exactly the frame that `FrameStack.push` makes.
-/

namespace StackMachine.Native

open X86 (Reg Operand Assembly)
open Template

/-! ### The stack registers -/

/-- The operand stack, top first, is in the stack registers. -/
def Holds (regs : Registers) : List Value → Prop
  | [] => True
  | v :: stack => (∃ r, slots[stack.length]? = some r ∧ regs.get r = v.raw) ∧ Holds regs stack

theorem mem_slots {n : Nat} {r : Reg} (h : slots[n]? = some r) : r ∈ slots := List.mem_of_getElem? h

theorem slots_inj {n k : Nat} {r : Reg} (hn : slots[n]? = some r) (hk : slots[k]? = some r) : n = k := by
  obtain ⟨hn, rfl⟩ := List.getElem?_eq_some_iff.1 hn
  obtain ⟨hk, he⟩ := List.getElem?_eq_some_iff.1 hk
  exact ((List.Nodup.getElem_inj_iff (by decide)).1 he).symm

namespace Holds

variable {regs regs' : Registers} {stack : List Value}

theorem congr (h : Holds regs stack)
    (hr : ∀ k r, k < stack.length → slots[k]? = some r → regs'.get r = regs.get r) : Holds regs' stack := by
  induction stack with
  | nil => trivial
  | cons v stack ih =>
    obtain ⟨⟨r, hs, hv⟩, h⟩ := h
    exact ⟨⟨r, hs, by rw [hr _ _ (Nat.lt_succ_self _) hs, hv]⟩,
      ih h fun k r hk => hr k r (Nat.lt_succ_of_lt hk)⟩

theorem drop (h : Holds regs stack) (n : Nat) : Holds regs (stack.drop n) := by
  induction n generalizing stack with
  | zero => simpa using h
  | succ n ih =>
    cases stack with
    | nil => trivial
    | cons v stack => exact ih h.2

/-- The register that `peek?` names holds the value at that depth. -/
theorem peek (h : Holds regs stack) {depth : Nat} {r : Reg} (hp : peek? stack.length depth = some r) :
    ∃ v, stack[depth]? = some v ∧ regs.get r = v.raw ∧ slots[stack.length - (depth + 1)]? = some r := by
  unfold peek? at hp
  split at hp
  · rename_i hd
    induction stack generalizing depth with
    | nil => simp at hd
    | cons v stack ih =>
      obtain ⟨⟨r', hs, hv⟩, h⟩ := h
      cases depth with
      | zero =>
        simp only [List.length_cons, Nat.zero_add, Nat.add_sub_cancel] at hp ⊢
        rw [hs] at hp
        cases hp
        exact ⟨v, rfl, hv, hs⟩
      | succ depth =>
        simp only [List.length_cons, Nat.reduceSubDiff] at hp hd ⊢
        simpa using ih h (by omega) hp
  · cases hp

/-- Each value of the operand stack has its register. -/
theorem exists_peek (h : Holds regs stack) {depth : Nat} (hd : depth < stack.length) :
    ∃ r, peek? stack.length depth = some r := by
  induction stack generalizing depth with
  | nil => simp at hd
  | cons v stack ih =>
    cases depth with
    | zero =>
      obtain ⟨⟨r, hs, _⟩, _⟩ := h
      exact ⟨r, by simpa [peek?] using hs⟩
    | succ depth =>
      obtain ⟨r, hr⟩ := ih h.2 (by simpa using hd)
      exact ⟨r, by simpa [peek?] using hr⟩

/-- What the registers of the topmost values hold. -/
theorem map_peek (h : Holds regs stack) {n : Nat} (hn : n ≤ stack.length) :
    ((List.range n).filterMap (peek? stack.length)).map (fun r => (⟨regs.get r⟩ : Value)) = stack.take n := by
  induction n with
  | zero => rfl
  | succ n ih =>
    obtain ⟨r, hr⟩ := h.exists_peek (show n < stack.length by omega)
    obtain ⟨v, hv, hg, _⟩ := h.peek hr
    rw [List.range_succ, List.filterMap_append, List.map_append, ih (by omega), List.take_add_one, hv]
    simp [hr, hg]

theorem length_le (h : Holds regs stack) : stack.length ≤ slots.length := by
  cases stack with
  | nil => simp
  | cons v stack =>
    obtain ⟨⟨r, hs, _⟩, _⟩ := h
    exact (List.getElem?_eq_some_iff.1 hs).1

end Holds

/-! ### What is watched along a run -/

/-- There is room for one more call, in a frame array of that size. -/
structure Tame (size : Nat) (s : FrameStack) : Prop where
  size_eq : s.frames.size = size
  current_lt : s.current < size
  room : s.Room 1

theorem Tame.congr {size slot : Nat} {s t : FrameStack} (h : Tame size s)
    (hu : FrameStack.Unchanged s.current slot s t) (hc : t.current = s.current) : Tame size t :=
  ⟨hu.framesSize.trans h.size_eq, by rw [hc]; exact h.current_lt,
    h.room.congr hc (hu.frame hc (Nat.le_refl _)) hu.valuesSize⟩

/-- What a call site pushes on the frame stack when it runs on a machine. -/
def Template.Call.push (c : Call) (m : Machine) : Option FrameStack :=
  m.frames.push ⟨m.regs.get c.receiver⟩ (c.args.map fun r => ⟨m.regs.get r⟩) (UInt64.ofNat c.callee)

/-- There is room on the frame stack, and a call site that comes next enters its call as `FrameStack.push` does. -/
structure Within (size : Nat) (code : Assembly) (m : Machine) : Prop where
  tame : Tame size m.frames
  sites : ∀ (c : Call) entry rest, code = c.code entry ++ rest →
    c.args.length ≤ 3 ∧ ∃ m₁, m.steps c.enter = .ok m₁ ∧ c.push m = some m₁.frames

/-- Only a call site starts by loading `sp`. -/
theorem Within.of_head {size : Nat} {m : Machine} (h : Tame size m.frames) {i : X86.Insn}
    (hi : i ≠ .mov (.reg scratch) (frameField Layout.sp)) (rest : Assembly) : Within size (i :: rest) m := by
  refine ⟨h, fun c entry rest' he => absurd ?_ hi⟩
  have := congrArg List.head? he
  simpa [Call.code, Call.enter] using this

/-! ### Active machines -/

namespace Machine

variable {size : Nat} {placed : List Placement} {m m' : Machine} {self v : Value} {args stack below : List Value}

/-- The machine executes a call on a receiver and arguments, with that operand stack. -/
structure Active (m : Machine) (receiver : Value) (args stack : List Value) : Prop where
  context_eq : m.regs.get context = UInt64.ofNat Layout.contextBase
  frame_eq : m.regs.get Template.frame = Layout.frameAddr m.frames.current
  addressable : m.frames.Addressable
  activated : m.frames.Activated receiver args
  holds : Holds m.regs stack

/-- The registers that generated code may change between two instructions. -/
def clobbered : List Reg := [.rax, .rcx, .rdx, .r8, .r9, .r10, .r11]

private theorem result_subset {dst : Reg} (h : dst ∈ slots) : [dst, .rax, .rcx, .rdx] ⊆ clobbered := by
  have hs : slots ⊆ clobbered := by decide
  have ht : [.rax, .rcx, .rdx] ⊆ clobbered := by decide
  exact List.cons_subset.2 ⟨hs h, ht⟩

/-- A template that leaves its result in the register above `below`. -/
theorem Active.result (h : m.Active self args stack) (hb : Holds m.regs below) {dst : Reg}
    (hd : slots[below.length]? = some dst) (hk : Keeps [dst, .rax, .rcx, .rdx] m m') (hf : m'.frames = m.frames)
    (hv : m'.regs.get dst = v.raw) : m'.Active self args (v :: below) := by
  have hkeep := (hk.mono (result_subset (mem_slots hd))).regs
  refine ⟨by rw [hkeep _ (by decide), h.context_eq], by rw [hkeep _ (by decide), hf, h.frame_eq],
    by rw [hf]; exact h.addressable, by rw [hf]; exact h.activated, ⟨dst, hd, hv⟩, ?_⟩
  apply hb.congr
  intro k r hkl hs
  apply hk.regs
  have hne : r ≠ dst := by
    rintro rfl
    have := slots_inj hs hd
    omega
  have hmem := mem_slots hs
  simp only [slots, List.mem_cons, List.not_mem_nil, or_false, not_or] at hmem ⊢
  refine ⟨hne, ?_, ?_, ?_⟩ <;> (rintro rfl; simp at hmem)

/-- Code that takes an active machine to one with that operand stack.  On the frame stack it may use what lies beyond
the current frame. -/
def Advances (size : Nat) (placed : List Placement) (code : Assembly) (m : Machine) (receiver : Value)
    (args stack : List Value) : Prop :=
  ∃ m', Leads (Within size) placed code m m' ∧ m'.Active receiver args stack ∧ Keeps clobbered m m' ∧
    m'.frames.current = m.frames.current ∧
    FrameStack.Unchanged m.frames.current m.frames.frame.sp m.frames m'.frames

private theorem Active.advances (h : m.Active self args stack) (hb : Holds m.regs below) {code : Assembly} {dst : Reg}
    (hd : slots[below.length]? = some dst) (hl : Leads (Within size) placed code m m')
    (hk : Keeps [dst, .rax, .rcx, .rdx] m m') (hf : m'.frames = m.frames) (hv : m'.regs.get dst = v.raw) :
    Advances size placed code m self args (v :: below) :=
  ⟨m', hl, h.result hb hd hk hf hv, hk.mono (result_subset (mem_slots hd)), by rw [hf], by rw [hf]; exact .refl _ _ _⟩

/-- An instruction that does not start a call site. -/
theorem Leads.quiet {code : Assembly} {i : X86.Insn} {m₁ m₂ : Machine} (ht : Tame size m.frames)
    (hi : i ≠ .mov (.reg scratch) (frameField Layout.sp)) (h : m.step i = .ok m₁)
    (next : Leads (Within size) placed code m₁ m₂) : Leads (Within size) placed (i :: code) m m₂ :=
  .step (fun _ => .of_head ht hi _) h next

/-! ### Loads -/

theorem step_load {r base : Reg} {disp : Int32} {w : UInt64} (h : m.frames.load? (m.addr base disp) = some w) :
    m.step (.mov (.reg r) (.mem base disp)) = .ok (m.setReg r w) := by
  simp only [step, read, load, h]
  rfl

theorem addr_ofNat {r : Reg} {n : Nat} (h : n < 0x80000000) :
    m.addr r (Int32.ofNat n) = m.regs.get r + UInt64.ofNat n := by
  rw [addr, disp_ofNat h]

theorem Active.load_field (h : m.Active self args stack) {r : Reg} {offset : Nat} (ho : offset < Layout.frameSize)
    {w : UInt64} (hw : m.frames.frame.word? offset = some w) :
    m.step (.mov (.reg r) (frameField offset)) = .ok (m.setReg r w) := by
  have hlt := h.activated.current_lt
  have hframe : m.frames.frames[m.frames.current] = m.frames.frame := by
    rw [FrameStack.frame, Array.getD_eq_getD_getElem?, Array.getElem?_eq_getElem hlt]
    rfl
  apply step_load
  rw [addr_ofNat (ho.trans (by decide)), h.frame_eq, FrameStack.load?_field h.addressable hlt ho, hframe, hw]

/-- Loads the address of the header. -/
theorem Active.load_ep (h : m.Active self args stack) (r : Reg) :
    m.step (.mov (.reg r) (frameField Layout.ep)) = .ok (m.setReg r (Layout.slotAddr (m.frames.frame.sp - 1))) := by
  apply h.load_field (by decide)
  simp [Frame.word?, Layout.sp, Layout.self, Layout.ep, h.activated.ep_eq]

theorem Active.load_self (h : m.Active self args stack) (r : Reg) :
    m.step (.mov (.reg r) (frameField Layout.self)) = .ok (m.setReg r self.raw) := by
  apply h.load_field (by decide)
  simp [Frame.word?, Layout.sp, Layout.self, h.activated.receiver_eq]

/-- With the address of the header in a register, a local is loaded by its displacement. -/
theorem Active.load_local (h : m.Active self args stack) {r base : Reg} {n : Nat} (h1 : 1 ≤ n) (hn : n ≤ args.length)
    (hd : n * Layout.wordSize ≤ 0x80000000) (hv : args[args.length - n]? = some v)
    (hb : m.regs.get base = Layout.slotAddr (m.frames.frame.sp - 1)) :
    m.step (.mov (.reg r) (.mem base (Int32.ofInt (-((n * Layout.wordSize : Nat) : Int))))) =
      .ok (m.setReg r v.raw) := by
  have hsp := h.activated.args_lt
  have hle := h.activated.sp_le
  have hlt : m.frames.frame.sp - 1 - n < m.frames.values.size := by omega
  have hval := h.activated.local h1 hn
  rw [hv, Array.getElem?_eq_getElem hlt] at hval
  cases hval
  apply step_load
  rw [addr, disp_neg hd, hb, Nat.mul_comm, Layout.slotAddr_sub (by omega), FrameStack.load?_slot h.addressable hlt]

/-! ### Instructions that push -/

private theorem literal_advances (h : m.Active self args stack) (ht : Tame size m.frames) {dst : Reg}
    (hd : slots[stack.length]? = some dst) (v : Value) :
    Advances size placed [.mov (.reg dst) (word v)] m self args (v :: stack) := by
  have hstep : m.step (.mov (.reg dst) (word v)) = .ok (m.setReg dst v.raw) := by
    show Except.ok (m.setReg dst v.raw.toInt64.toUInt64) = _
    rw [UInt64.toUInt64_toInt64]
  exact h.advances h.holds hd (.quiet ht (by simp [word, frameField]) hstep .nil) (.setReg (by simp) _ _) rfl
    (get_setReg_self _ _ _)

private theorem putSelf_advances (h : m.Active self args stack) (ht : Tame size m.frames) {dst : Reg}
    (hd : slots[stack.length]? = some dst) :
    Advances size placed [.mov (.reg dst) (frameField Layout.self)] m self args (self :: stack) :=
  h.advances h.holds hd (.quiet ht (by simp [frameField, Layout.self, Layout.sp]) (h.load_self dst) .nil)
    (.setReg (by simp) _ _) rfl (get_setReg_self _ _ _)

private theorem getLocal_advances (h : m.Active self args stack) (ht : Tame size m.frames) {dst : Reg}
    (hd : slots[stack.length]? = some dst) {n : Nat} (h1 : 1 ≤ n) (hn : n ≤ args.length)
    (hdisp : n * Layout.wordSize ≤ 0x80000000) (hv : args[args.length - n]? = some v) :
    Advances size placed [.mov (.reg scratch) (frameField Layout.ep),
      .mov (.reg dst) (.mem scratch (Int32.ofInt (-((n * Layout.wordSize : Nat) : Int))))] m self args
      (v :: stack) := by
  -- the scratch register is none of the stack's
  have h' : (m.setReg scratch (Layout.slotAddr (m.frames.frame.sp - 1))).Active self args stack := by
    refine ⟨?_, ?_, h.addressable, h.activated, h.holds.congr fun k r _ hs => ?_⟩
    · rw [get_setReg, if_neg (by decide), h.context_eq]
    · rw [get_setReg, if_neg (by decide), h.frame_eq]
      rfl
    · rw [get_setReg, if_neg]
      rintro rfl
      exact absurd (mem_slots hs) (by decide)
  refine h.advances h.holds hd (.quiet ht (by simp [frameField, Layout.ep, Layout.sp]) (h.load_ep scratch)
    (.quiet ht (by simp [frameField, scratch, Template.frame])
      (h'.load_local h1 hn hdisp hv (get_setReg_self _ _ _)) .nil))
    ((Keeps.setReg (by simp [scratch]) _ _).trans (.setReg (by simp) _ _)) rfl (get_setReg_self _ _ _)

private theorem dup_advances (h : m.Active self args (v :: stack)) (ht : Tame size m.frames) {src dst : Reg}
    (hs : slots[stack.length]? = some src) (hd : slots[stack.length + 1]? = some dst) :
    Advances size placed [.mov (.reg dst) (.reg src)] m self args (v :: v :: stack) := by
  obtain ⟨r, hr, hv⟩ := h.holds.1
  rw [hs] at hr
  cases hr
  exact h.advances h.holds hd (.quiet ht (by simp [frameField]) rfl .nil) (.setReg (by simp) _ _) rfl
    ((get_setReg_self _ _ _).trans hv)

/-! ### Instructions that combine two values -/

theorem step_alu {op : X86.AluOp} {dst : Reg} {src : Operand} {a w : UInt64} (hs : m.read src = .ok a)
    (hw : (alu op (m.regs.get dst) a).1 = some w) :
    m.step (.alu op (.reg dst) src) =
      .ok ((m.setFlag (alu op (m.regs.get dst) a).2).setReg dst w) := by
  have hd : m.read (.reg dst) = .ok (m.regs.get dst) := rfl
  simp only [step, hd, hs, bind, Except.bind, hw]
  rfl

private theorem arith_advances {x y : Value} (h : m.Active self args (y :: x :: stack)) (ht : Tame size m.frames)
    {left right : Reg} (hl : slots[stack.length]? = some left) (hx : m.regs.get left = x.raw)
    (hy : m.regs.get right = y.raw) {op op' : X86.AluOp} {w : UInt64} (hw : (alu op x.raw y.raw).1 = some w)
    (hv : (alu op' w 1).1 = some v.raw) :
    Advances size placed [.alu op (.reg left) (.reg right), .alu op' (.reg left) (imm 1)] m self args (v :: stack) := by
  have h₁ : m.step (.alu op (.reg left) (.reg right)) = _ := step_alu rfl (by rw [hx, hy, hw])
  have h₂ : ((m.setFlag (alu op (m.regs.get left) (m.regs.get right)).2).setReg left w).step
      (.alu op' (.reg left) (imm 1)) = _ := step_alu rfl (by rw [get_setReg_self]; exact hv)
  exact h.advances h.holds.2.2 hl (.quiet ht (by simp) h₁ (.quiet ht (by simp) h₂ .nil))
    (((Keeps.setFlag m _).trans (.setReg (by simp) _ _)).trans ((Keeps.setFlag _ _).trans (.setReg (by simp) _ _)))
    rfl (get_setReg_self _ _ _)

theorem step_cmovl (m : Machine) (dst src : Reg) :
    ∃ m', m.step (.cmovl (.reg dst) (.reg src)) = .ok m' ∧ Keeps [dst] m m' ∧ m'.frames = m.frames ∧
      m'.regs.get dst = if m.less then m.regs.get src else m.regs.get dst := by
  cases hl : m.less with
  | false => exact ⟨m, by simp only [step, read, hl]; rfl, .refl _ _, rfl, rfl⟩
  | true =>
    exact ⟨m.setReg dst (m.regs.get src), by simp only [step, read, hl]; rfl, .setReg (by simp) _ _, rfl,
      get_setReg_self _ _ _⟩

/-- The flag decides between the two truth values. -/
private theorem less_advances {x y : Value} (h : m.Active self args (y :: x :: stack)) (ht : Tame size m.frames)
    {left right : Reg} (hl : slots[stack.length]? = some left) (hr : right ∈ slots) (hx : m.regs.get left = x.raw)
    (hy : m.regs.get right = y.raw) :
    Advances size placed (Template.less left right) m self args (x.less y :: stack) := by
  obtain ⟨m₂, hm₂⟩ : ∃ m₂, (m.setReg .rax Value.false.raw).setReg .rcx Value.true.raw = m₂ := ⟨_, rfl⟩
  have hk₂ : Keeps [left, .rax, .rcx, .rdx] m m₂ := by
    rw [← hm₂]
    exact (Keeps.setReg (by simp) m _).trans (.setReg (by simp) _ _)
  have hf₂ : m₂.frames = m.frames := by rw [← hm₂]; rfl
  have hne : ∀ r ∈ slots, Reg.rax ≠ r ∧ Reg.rcx ≠ r := by decide
  have hkeep : ∀ r ∈ slots, m₂.regs.get r = m.regs.get r := by
    intro r hr
    rw [← hm₂, get_setReg, if_neg (hne r hr).2, get_setReg, if_neg (hne r hr).1]
  have h₃ : m₂.step (.alu .cmp (.reg left) (.reg right)) =
      .ok (m₂.setFlag (decide (x.raw.toInt64 < y.raw.toInt64))) := by
    rw [← hx, ← hy, ← hkeep left (mem_slots hl), ← hkeep right hr]
    rfl
  obtain ⟨m₄, h₄, hk₄, hf₄, hv₄⟩ := step_cmovl (m₂.setFlag (decide (x.raw.toInt64 < y.raw.toInt64))) .rax .rcx
  have ht₂ : Tame size m₂.frames := by rw [hf₂]; exact ht
  have ht₄ : Tame size m₄.frames := by rw [hf₄]; exact ht₂
  refine h.advances h.holds.2.2 hl
    (.quiet ht (by simp [frameField, word]) rfl (.quiet ht (by simp [frameField, word]) (congrArg Except.ok hm₂)
      (.quiet ht₂ (by simp) h₃ (.quiet ht₂ (by simp) h₄ (.quiet ht₄ (by simp [frameField]) rfl .nil)))))
    ?_ (hf₄.trans hf₂) ((get_setReg_self _ _ _).trans ?_)
  · exact ((hk₂.trans (.setFlag _ _)).trans (hk₄.mono (by simp))).trans (.setReg (by simp) _ _)
  · have hfalse : m₂.regs.get .rax = Value.false.raw := by
      rw [← hm₂, get_setReg, if_neg (by decide), get_setReg_self]
    have htrue : m₂.regs.get .rcx = Value.true.raw := by rw [← hm₂, get_setReg_self]
    show m₄.regs.get .rax = (Value.ofBool (decide (x.raw.toInt64 < y.raw.toInt64))).raw
    rw [hv₄]
    show (if decide (x.raw.toInt64 < y.raw.toInt64) then m₂.regs.get .rcx else m₂.regs.get .rax) = _
    rw [hfalse, htrue]
    cases decide (x.raw.toInt64 < y.raw.toInt64) <;> rfl

/-- The two operands of a combining instruction are on top of the stack. -/
private theorem Active.operands (h : m.Active self args stack) {left right : Reg}
    (hl : peek? stack.length 1 = some left) (hr : peek? stack.length 0 = some right) :
    ∃ y x below, stack = y :: x :: below ∧ slots[below.length]? = some left ∧ m.regs.get left = x.raw ∧
      m.regs.get right = y.raw ∧ right ∈ slots := by
  obtain ⟨x, hx, hxv, hxs⟩ := h.holds.peek hl
  obtain ⟨y, hy, hyv, hys⟩ := h.holds.peek hr
  match stack, hx, hy with
  | y' :: x' :: below, hx, hy =>
    simp only [List.getElem?_cons_succ, List.getElem?_cons_zero, Option.some.injEq] at hx hy
    subst hx hy
    exact ⟨y', x', below, rfl, by simpa using hxs, hxv, hyv, mem_slots hys⟩

/-- One instruction that is no call and no return: the template does to the registers what word evaluation does to the
operand stack. -/
theorem emit_advances (placed : List Placement) (h : m.Active self args stack) (ht : Tame size m.frames)
    {method : Method} (ha : args.length = method.locals) {pc : Nat} {i : Insn} {e : Emitted}
    (he : emit method pc stack.length i = .ok e) (hi : i ≠ .leave) :
    ∃ stack', Words.effect self args i stack = some stack' ∧ stack'.length = e.height ∧
      Advances size placed e.code m self args stack' := by
  cases i with
  | nop =>
    cases he
    exact ⟨stack, rfl, rfl, m, .nil, h, .refl _ _, rfl, .refl _ _ _⟩
  | getLocal idx =>
    simp only [emit] at he
    split at he
    · cases he
    · rename_i disp hdisp
      unfold localDisp? at hdisp
      split at hdisp
      · rename_i hidx
        obtain ⟨h1, hn, hd⟩ := hidx
        cases hdisp
        obtain ⟨dst, hs, rfl⟩ := pushed_eq_ok he
        have hlt : args.length - idx.toNat < args.length := by omega
        have hv : args[args.length - idx.toNat]? = some args[args.length - idx.toNat] :=
          List.getElem?_eq_getElem hlt
        refine ⟨args[args.length - idx.toNat] :: stack, ?_, rfl, ?_⟩
        · have hloc : Words.local? args idx = some args[args.length - idx.toNat] := by
            rw [Words.local?, if_pos ⟨h1, ha ▸ hn⟩, hv]
          show (Words.local? args idx).map (· :: stack) = _
          rw [hloc]
          rfl
        · simpa using getLocal_advances h ht hs h1 (ha ▸ hn) hd hv
      · cases hdisp
  | putNil =>
    obtain ⟨dst, hs, rfl⟩ := pushed_eq_ok he
    exact ⟨_, rfl, rfl, literal_advances h ht hs _⟩
  | putSelf =>
    obtain ⟨dst, hs, rfl⟩ := pushed_eq_ok he
    exact ⟨_, rfl, rfl, putSelf_advances h ht hs⟩
  | putObject v =>
    obtain ⟨dst, hs, rfl⟩ := pushed_eq_ok he
    exact ⟨_, rfl, rfl, literal_advances h ht hs _⟩
  | putZero =>
    obtain ⟨dst, hs, rfl⟩ := pushed_eq_ok he
    exact ⟨_, rfl, rfl, literal_advances h ht hs _⟩
  | putOne =>
    obtain ⟨dst, hs, rfl⟩ := pushed_eq_ok he
    exact ⟨_, rfl, rfl, literal_advances h ht hs _⟩
  | dup =>
    simp only [emit] at he
    split at he
    · cases he
    · rename_i src hsrc
      obtain ⟨dst, hd, rfl⟩ := pushed_eq_ok he
      obtain ⟨v, hv, _, hs⟩ := h.holds.peek hsrc
      cases stack with
      | nil => simp at hv
      | cons v' below => exact ⟨_, rfl, rfl, dup_advances h ht (by simpa using hs) hd⟩
  | pop =>
    simp only [emit] at he
    split at he
    · cases he
    · cases he
      cases stack with
      | nil => contradiction
      | cons _ below =>
        refine ⟨below, rfl, rfl, m, .nil, ?_, .refl _ _, rfl, .refl _ _ _⟩
        exact ⟨h.context_eq, h.frame_eq, h.addressable, h.activated, h.holds.2⟩
  | plus =>
    obtain ⟨left, right, hl, hr, rfl⟩ := combined_eq_ok he
    obtain ⟨y, x, below, rfl, hs, hx, hy, _⟩ := h.operands hl hr
    exact ⟨_, rfl, rfl, arith_advances h ht hs hx hy rfl rfl⟩
  | minus =>
    obtain ⟨left, right, hl, hr, rfl⟩ := combined_eq_ok he
    obtain ⟨y, x, below, rfl, hs, hx, hy, _⟩ := h.operands hl hr
    exact ⟨_, rfl, rfl, arith_advances h ht hs hx hy rfl rfl⟩
  | less =>
    obtain ⟨left, right, hl, hr, rfl⟩ := combined_eq_ok he
    obtain ⟨y, x, below, rfl, hs, hx, hy, hmem⟩ := h.operands hl hr
    exact ⟨_, rfl, rfl, less_advances h ht hs hmem hx hy⟩
  | leave => exact absurd rfl hi
  | setLocal | mult | jump | branchIf | send => cases he

end Machine

end StackMachine.Native
