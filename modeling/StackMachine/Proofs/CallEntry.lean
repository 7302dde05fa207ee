import Mathlib
import StackMachine.Proofs.Templates

/-!
# Entering a call

Before the machine call a call site builds the callee's environment and its frame by hand: it stores the arguments and
the header at the caller's `sp`, fills in the next frame and makes it current.

* `Calm` is straight-line code with room on the frame stack all along.
* `enter_calm`: the code does to the frame stack exactly what `FrameStack.push` does.
* `within_code`: so whatever call site the code at that point can be read as, it enters its call as it should.
-/

namespace StackMachine.Native.Machine

open X86 (Reg Operand Assembly)
open Template
open FrameStack (Unchanged)

variable {size : Nat} {placed : List Placement} {code code₁ code₂ : Assembly} {m m' m₁ m₂ : Machine} {s : FrameStack}

/-! ### Code without calls on a tame frame stack -/

/-- Straight-line code with room on the frame stack all along. -/
def Calm (size : Nat) : Assembly → Machine → Machine → Prop
  | [], m, m' => m = m'
  | i :: code, m, m' => Tame size m.frames ∧ ∃ m₁, m.step i = .ok m₁ ∧ Calm size code m₁ m'

namespace Calm

theorem nil : Calm size [] m m := rfl

theorem cons {i : X86.Insn} (ht : Tame size m.frames) (h : m.step i = .ok m₁) (next : Calm size code m₁ m') :
    Calm size (i :: code) m m' := ⟨ht, m₁, h, next⟩

theorem append (h₁ : Calm size code₁ m m₁) (h₂ : Calm size code₂ m₁ m₂) : Calm size (code₁ ++ code₂) m m₂ := by
  induction code₁ generalizing m with
  | nil =>
    cases h₁
    exact h₂
  | cons i code₁ ih =>
    obtain ⟨ht, m₃, hs, hn⟩ := h₁
    exact ⟨ht, m₃, hs, ih hn⟩

theorem steps_eq (h : Calm size code m m') : m.steps code = .ok m' := by
  induction code generalizing m with
  | nil =>
    cases h
    rfl
  | cons i code ih =>
    obtain ⟨_, m₁, hs, hn⟩ := h
    simp only [steps, hs]
    exact ih hn

theorem leads (h : Calm size code m m') (hq : ∀ i ∈ code, i ≠ .mov (.reg scratch) (frameField Layout.sp)) :
    Leads (Within size) placed code m m' := by
  induction code generalizing m with
  | nil =>
    cases h
    exact .nil
  | cons i code ih =>
    obtain ⟨ht, m₁, hs, hn⟩ := h
    exact .quiet ht (hq i (List.mem_cons_self ..)) hs (ih hn fun j hj => hq j (List.mem_cons_of_mem _ hj))

end Calm

/-! ### Stores -/

/-- The machine with another frame stack. -/
def setFrames (m : Machine) (s : FrameStack) : Machine := { m with frames := s }

private theorem keeps_setFrames {changed : List Reg} (m : Machine) (s : FrameStack) : Keeps changed m (m.setFrames s) :=
  ⟨fun _ _ => rfl, rfl⟩

theorem step_store {base : Reg} {disp : Int32} {src : Operand} {w : UInt64} (hs : m.read src = .ok w)
    (h : m.frames.store? (m.addr base disp) w = some s) :
    m.step (.mov (.mem base disp) src) = .ok (m.setFrames s) := by
  simp only [step, hs, bind, Except.bind, write, store, h]
  rfl

theorem step_store_slot {base : Reg} {src : Operand} {w : UInt64} {slot n : Nat} (ha : m.frames.Addressable)
    (hb : m.regs.get base = Layout.slotAddr slot) (hn : n * Layout.wordSize < 0x80000000)
    (hlt : slot + n < m.frames.values.size) (hs : m.read src = .ok w) :
    m.step (.mov (.mem base (Int32.ofNat (n * Layout.wordSize))) src) =
      .ok (m.setFrames (m.frames.withValues (m.frames.values.setIfInBounds (slot + n) ⟨w⟩))) := by
  apply step_store hs
  rw [addr_ofNat hn, hb, Nat.mul_comm, Layout.slotAddr_add, FrameStack.store?_slot ha hlt]
  rfl

theorem step_store_field {src : Operand} {w : UInt64} {index offset : Nat} {f f' : Frame} (ha : m.frames.Addressable)
    (hr : m.regs.get Template.frame = Layout.frameAddr index) (ho : offset < Layout.frameSize)
    (hf : m.frames.frames[index]? = some f) (hs : m.read src = .ok w) (hw : f.setWord? offset w = some f') :
    m.step (.mov (frameField offset) src) =
      .ok (m.setFrames (m.frames.withFrame index f')) := by
  obtain ⟨hlt, rfl⟩ := Array.getElem?_eq_some_iff.1 hf
  apply step_store hs
  rw [addr_ofNat (ho.trans (by decide)), hr, FrameStack.store?_field ha hlt ho hw]
  rfl

/-- The store that makes a frame current. -/
theorem step_cfp {index : Nat} (ha : m.frames.Addressable) (hc : m.regs.get context = UInt64.ofNat Layout.contextBase)
    (hr : m.regs.get Template.frame = Layout.frameAddr index) (hi : index < m.frames.frames.size) :
    m.step (.mov (.mem context (Int32.ofNat Layout.cfp)) (.reg Template.frame)) =
      .ok (m.setFrames (m.frames.withCurrent index)) := by
  have hs : m.read (.reg Template.frame) = .ok (Layout.frameAddr index) := congrArg Except.ok hr
  apply step_store hs
  rw [addr_ofNat (by decide), hc, FrameStack.store?_cfp ha hi]
  rfl

/-! ### Building the environment -/

/-- Stores of registers in consecutive slots. -/
private theorem storeArgs_calm (slot n : Nat) {regs : List Reg} (ht : Tame size m.frames) (ha : m.frames.Addressable)
    (hb : m.regs.get scratch = Layout.slotAddr slot) (hn : (n + regs.length) * Layout.wordSize < 0x80000000)
    (hlt : slot + n + regs.length ≤ m.frames.values.size) (hsp : m.frames.frame.sp ≤ slot) :
    Calm size (regs.mapIdx fun i r => .mov (.mem scratch (Int32.ofNat ((i + n) * Layout.wordSize))) (.reg r)) m
      (m.setFrames (m.frames.withValues
        (FrameStack.writeValues m.frames.values (slot + n) (regs.map fun r => ⟨m.regs.get r⟩)))) := by
  induction regs generalizing m n with
  | nil => rfl
  | cons r regs ih =>
    simp only [List.length_cons] at hn hlt
    have hu : Unchanged m.frames.current m.frames.frame.sp m.frames
        (m.frames.withValues (m.frames.values.setIfInBounds (slot + n) ⟨m.regs.get r⟩)) :=
      (FrameStack.unchanged_writeValues m.frames _ (slot + n) [⟨m.regs.get r⟩]).mono (Nat.le_refl _) (by omega)
    have hnext : Calm size
        (regs.mapIdx fun i r => .mov (.mem scratch (Int32.ofNat ((i + (n + 1)) * Layout.wordSize))) (.reg r))
        (m.setFrames (m.frames.withValues (m.frames.values.setIfInBounds (slot + n) ⟨m.regs.get r⟩)))
        (m.setFrames (m.frames.withValues
          (FrameStack.writeValues m.frames.values (slot + n) ((r :: regs).map fun r => ⟨m.regs.get r⟩)))) := by
      refine ih (n + 1) (ht.congr hu rfl) (ha.congr hu.framesSize hu.valuesSize) hb ?_ ?_ hsp
      · rw [Nat.add_assoc, Nat.add_comm 1]
        exact hn
      · show slot + (n + 1) + regs.length ≤ (m.frames.values.setIfInBounds (slot + n) ⟨m.regs.get r⟩).size
        rw [Array.size_setIfInBounds]
        omega
    rw [List.mapIdx_cons, Nat.zero_add]
    simp only [Nat.add_right_comm _ 1 n, Nat.add_assoc _ n 1]
    exact .cons ht (step_store_slot ha hb (by simp only [Layout.wordSize] at *; omega) (by omega) rfl) hnext

private theorem toUInt64_ofInt (n : Nat) : (Int64.ofInt n).toUInt64 = UInt64.ofNat n := by
  rw [Int64.ofInt_eq_ofNat, Int64.toUInt64_ofNat']

private theorem imm_ofNat (n : Nat) : m.read (imm n) = .ok (UInt64.ofNat n) := congrArg Except.ok (toUInt64_ofInt n)

/-- Adding to a register or subtracting from it. -/
theorem step_alu_imm (op : X86.AluOp) (dst : Reg) (n : Nat) {w : UInt64}
    (hw : (alu op (m.regs.get dst) (UInt64.ofNat n)).1 = some w) :
    ∃ m', m.step (.alu op (.reg dst) (imm n)) = .ok m' ∧ m'.frames = m.frames ∧ Keeps [dst] m m' ∧
      m'.regs.get dst = w :=
  ⟨_, step_alu (imm_ofNat n) hw, rfl, (Keeps.setFlag _ _).trans (.setReg (by simp) _ _), get_setReg_self _ _ _⟩

/-- The address of the header, from that of the first argument. -/
private theorem skipArgs_calm {slot n : Nat} (ht : Tame size m.frames)
    (hb : m.regs.get scratch' = Layout.slotAddr slot) :
    ∃ m', Calm size (Call.skipArgs (n * Layout.wordSize)) m m' ∧ m'.frames = m.frames ∧
      m'.regs.get scratch' = Layout.slotAddr (slot + n) ∧ Keeps [scratch'] m m' := by
  unfold Call.skipArgs
  split
  · rename_i h0
    have hn : n = 0 := by
      simp only [Layout.wordSize] at h0
      omega
    exact ⟨m, rfl, rfl, by rw [hb, hn]; rfl, .refl _ _⟩
  · obtain ⟨m', hs, hf, hk, hr⟩ := step_alu_imm (m := m) .add scratch' (n * Layout.wordSize) rfl
    refine ⟨m', .cons ht hs .nil, hf, ?_, hk⟩
    rw [hr, hb, Nat.mul_comm, Layout.slotAddr_add]

/-- The arguments and the header are stored at the caller's `sp`. -/
private theorem environment_calm (regs : List Reg) (ht : Tame size m.frames) (ha : m.frames.Addressable)
    (hb : m.regs.get scratch = Layout.slotAddr m.frames.frame.sp) (hn : regs.length ≤ 3)
    (hlt : m.frames.frame.sp + regs.length + 1 ≤ m.frames.values.size) :
    ∃ m', Calm size (Call.storeArgs regs ++
        [.mov (.mem scratch (Int32.ofNat (regs.length * Layout.wordSize))) (word envHeader),
          .mov (.reg scratch') (.reg scratch)] ++ Call.skipArgs (regs.length * Layout.wordSize)) m m' ∧
      m'.frames = m.frames.withValues (FrameStack.writeValues m.frames.values m.frames.frame.sp
        (regs.map (fun r => ⟨m.regs.get r⟩) ++ [envHeader])) ∧
      m'.regs.get scratch' = Layout.slotAddr (m.frames.frame.sp + regs.length) ∧ Keeps [scratch'] m m' := by
  obtain ⟨params, hparams⟩ : ∃ params, regs.map (fun r => (⟨m.regs.get r⟩ : Value)) = params := ⟨_, rfl⟩
  have hlen : params.length = regs.length := by rw [← hparams, List.length_map]
  obtain ⟨s₁, hs₁⟩ : ∃ s₁, m.frames.withValues (FrameStack.writeValues m.frames.values m.frames.frame.sp params) = s₁ :=
    ⟨_, rfl⟩
  obtain ⟨s₂, hs₂⟩ : ∃ s₂, m.frames.withValues
      (FrameStack.writeValues m.frames.values m.frames.frame.sp (params ++ [envHeader])) = s₂ := ⟨_, rfl⟩
  have hu₁ : Unchanged m.frames.current m.frames.frame.sp m.frames s₁ := hs₁ ▸ FrameStack.unchanged_writeValues ..
  have hu₂ : Unchanged m.frames.current m.frames.frame.sp m.frames s₂ := hs₂ ▸ FrameStack.unchanged_writeValues ..
  have hargs : Calm size (Call.storeArgs regs) m (m.setFrames s₁) := by
    rw [← hs₁, ← hparams]
    exact storeArgs_calm m.frames.frame.sp 0 ht ha hb (by simp only [Layout.wordSize]; omega) (by omega) (Nat.le_refl _)
  have hheader : (m.setFrames s₁).step
      (.mov (.mem scratch (Int32.ofNat (regs.length * Layout.wordSize))) (word envHeader)) =
      .ok (m.setFrames s₂) := by
    rw [step_store_slot (m := m.setFrames s₁) (w := envHeader.raw) (ha.congr hu₁.framesSize hu₁.valuesSize) hb
      (by simp only [Layout.wordSize]; omega) (lt_of_lt_of_eq (by omega) hu₁.valuesSize.symm) rfl,
      ← hs₂, FrameStack.writeValues_append, hlen, ← hs₁]
    rfl
  have hbase : (m.setFrames s₂).step (.mov (.reg scratch') (.reg scratch)) =
      .ok ((m.setFrames s₂).setReg scratch' (Layout.slotAddr m.frames.frame.sp)) := by
    rw [← hb]
    rfl
  have ht₂ : Tame size s₂ := ht.congr hu₂ (by rw [← hs₂]; rfl)
  obtain ⟨m', hc, hf, hs, hk⟩ := skipArgs_calm (n := regs.length)
    (m := (m.setFrames s₂).setReg scratch' (Layout.slotAddr m.frames.frame.sp)) ht₂ (get_setReg_self _ _ _)
  refine ⟨m', (hargs.append (.cons (ht.congr hu₁ (by rw [← hs₁]; rfl)) hheader (.cons ht₂ hbase .nil))).append hc,
    hf.trans (by rw [hparams, hs₂]; rfl), hs, Keeps.trans (.trans (keeps_setFrames m s₂) (.setReg (by simp) _ _)) hk⟩

/-! ### Building the frame -/

/-- A store to a field of a frame that is being filled in. -/
private theorem step_fill {t : FrameStack} {index offset : Nat} {f f' : Frame} {src : Operand} {w : UInt64}
    (hm : m.frames = t.withFrame index f) (ha : t.Addressable) (hi : index < t.frames.size)
    (hr : m.regs.get Template.frame = Layout.frameAddr index) (ho : offset < Layout.frameSize) (hs : m.read src = .ok w)
    (hw : f.setWord? offset w = some f') :
    ∃ m', m.step (.mov (frameField offset) src) = .ok m' ∧ m'.frames = t.withFrame index f' ∧ Keeps [] m m' := by
  have hf : m.frames.frames[index]? = some f := by
    rw [hm]
    exact Array.getElem?_setIfInBounds_self_of_lt hi
  have ha' : m.frames.Addressable := by
    rw [hm]
    exact ha.congr Array.size_setIfInBounds rfl
  refine ⟨_, step_store_field ha' hr ho hf hs hw, ?_, keeps_setFrames _ _⟩
  show m.frames.withFrame index f' = _
  rw [hm, FrameStack.withFrame_withFrame]

/-- The next frame is filled in and made current. -/
private theorem frame_calm {receiver : Reg} {header : Nat} (callee : Nat) (ht : Tame size m.frames)
    (ha : m.frames.Addressable) (hc : m.regs.get context = UInt64.ofNat Layout.contextBase)
    (hf : m.regs.get Template.frame = Layout.frameAddr m.frames.current)
    (hd : m.regs.get scratch' = Layout.slotAddr header) (hlt : header + 1 ≤ m.frames.values.size)
    (hr : receiver ∈ slots) :
    ∃ m', Calm size [.alu .sub (.reg Template.frame) (imm Layout.frameSize),
        .mov (frameField Layout.self) (.reg receiver), .mov (frameField Layout.ep) (.reg scratch'),
        .alu .add (.reg scratch') (imm Layout.wordSize), .mov (frameField Layout.sp) (.reg scratch'),
        .mov (frameField Layout.method) (imm callee),
        .mov (.mem context (Int32.ofNat Layout.cfp)) (.reg Template.frame)] m m' ∧
      m'.frames = ⟨m.frames.values, m.frames.frames.setIfInBounds (m.frames.current - 1)
        ⟨header + 1, ⟨m.regs.get receiver⟩, some header, UInt64.ofNat callee⟩, m.frames.current - 1⟩ ∧
      m'.regs.get Template.frame = Layout.frameAddr (m.frames.current - 1) ∧
      Keeps [scratch', Template.frame] m m' := by
  have hcur := ht.room.frames
  have hsize := ht.current_lt
  rw [← ht.size_eq] at hsize
  obtain ⟨i, hi⟩ : ∃ i, m.frames.current - 1 = i := ⟨_, rfl⟩
  have hilt : i < m.frames.frames.size := by omega
  have htame : ∀ f, Tame size (m.frames.withFrame i f) := fun f =>
    ht.congr (FrameStack.unchanged_withFrame _ (by omega) m.frames.frame.sp _) rfl
  obtain ⟨f, hget⟩ : ∃ f, m.frames.frames[i]? = some f := ⟨_, Array.getElem?_eq_getElem hilt⟩
  have hne : receiver ≠ Template.frame ∧ receiver ≠ scratch' := by
    have : ∀ r ∈ slots, r ≠ Template.frame ∧ r ≠ scratch' := by decide
    exact this receiver hr
  -- the frame's address
  obtain ⟨m₁, h₁, hf₁, hk₁, hr₁⟩ := step_alu_imm (m := m) .sub Template.frame Layout.frameSize
    (w := Layout.frameAddr i) (by rw [hf, ← hi]; exact congrArg some (Layout.frameAddr_sub (n := 1) hcur))
  have hm₁ : m₁.frames = m.frames.withFrame i f := hf₁.trans (FrameStack.withFrame_eq_self hget).symm
  -- the receiver and the header
  obtain ⟨m₂, h₂, hf₂, hk₂⟩ := step_fill hm₁ ha hilt hr₁ (show Layout.self < Layout.frameSize by decide)
    (show m₁.read (.reg receiver) = .ok (m.regs.get receiver) from
      congrArg Except.ok (hk₁.regs _ (by simpa using hne.1))) rfl
  have hk₂' : Keeps [Template.frame] m m₂ := hk₁.trans (hk₂.mono (by simp))
  have hep : m₂.regs.get scratch' = Layout.slotAddr header := (hk₂'.regs _ (by decide)).trans hd
  have hr₂ : m₂.regs.get Template.frame = Layout.frameAddr i := (hk₂.regs _ (by simp)).trans hr₁
  obtain ⟨m₃, h₃, hf₃, hk₃⟩ := step_fill hf₂ ha hilt hr₂ (show Layout.ep < Layout.frameSize by decide)
    (show m₂.read (.reg scratch') = .ok (Layout.slotAddr header) from congrArg Except.ok hep)
    (show _ = some (⟨f.sp, ⟨m.regs.get receiver⟩, some header, f.method⟩ : Frame) by
      simp [Frame.setWord?, Layout.sp, Layout.self, Layout.ep, FrameStack.slot?_slotAddr ha (show header ≤ _ by omega)])
  have hr₃ : m₃.regs.get Template.frame = Layout.frameAddr i := (hk₃.regs _ (by simp)).trans hr₂
  -- the first slot after the header
  obtain ⟨m₄, h₄, hf₄, hk₄, hd₄⟩ := step_alu_imm (m := m₃) .add scratch' Layout.wordSize
    (w := Layout.slotAddr (header + 1))
    (by rw [hk₃.regs _ (by simp), hep]; exact congrArg some (Layout.slotAddr_add header 1))
  have hr₄ : m₄.regs.get Template.frame = Layout.frameAddr i := (hk₄.regs _ (by decide)).trans hr₃
  obtain ⟨m₅, h₅, hf₅, hk₅⟩ := step_fill (hf₄.trans hf₃) ha hilt hr₄ (show Layout.sp < Layout.frameSize by decide)
    (show m₄.read (.reg scratch') = .ok (Layout.slotAddr (header + 1)) from congrArg Except.ok hd₄)
    (show _ = some (⟨header + 1, ⟨m.regs.get receiver⟩, some header, f.method⟩ : Frame) by
      simp [Frame.setWord?, FrameStack.slot?_slotAddr ha hlt])
  have hr₅ : m₅.regs.get Template.frame = Layout.frameAddr i := (hk₅.regs _ (by simp)).trans hr₄
  obtain ⟨m₆, h₆, hf₆, hk₆⟩ := step_fill hf₅ ha hilt hr₅ (show Layout.method < Layout.frameSize by decide)
    (imm_ofNat callee) rfl
  have hr₆ : m₆.regs.get Template.frame = Layout.frameAddr i := (hk₆.regs _ (by simp)).trans hr₅
  have hk : Keeps [scratch', Template.frame] m m₆ :=
    (((hk₂'.mono (by simp)).trans (hk₃.mono (by simp))).trans (hk₄.mono (by simp))).trans
      ((hk₅.mono (by simp)).trans (hk₆.mono (by simp)))
  -- the frame becomes current
  have h₇ := step_cfp (m := m₆) (by rw [hf₆]; exact ha.congr Array.size_setIfInBounds rfl)
    ((hk.regs _ (by decide)).trans hc) hr₆ (by rw [hf₆]; exact hilt.trans_eq Array.size_setIfInBounds.symm)
  refine ⟨_, .cons ht h₁ (.cons (hf₁ ▸ ht) h₂ (.cons (hf₂ ▸ htame _) h₃ (.cons (hf₃ ▸ htame _) h₄
    (.cons (hf₄ ▸ hf₃ ▸ htame _) h₅ (.cons (hf₅ ▸ htame _) h₆ (.cons (hf₆ ▸ htame _) h₇ .nil)))))), ?_, ?_, ?_⟩
  · rw [hi]
    show m₆.frames.withCurrent i = _
    rw [hf₆]
    rfl
  · rw [hi]
    exact hr₆
  · exact hk.trans (keeps_setFrames _ _)

/-- The code before the machine call does to the frame stack what `FrameStack.push` does. -/
theorem enter_calm {self : Value} {args stack : List Value} (h : m.Active self args stack) (ht : Tame size m.frames)
    {c : Call} (hr : c.receiver ∈ slots) (ha : c.args ⊆ slots) (hn : c.args.length ≤ 3) :
    ∃ m', Calm size c.enter m m' ∧ c.push m = some m'.frames ∧
      m'.regs.get Template.frame = Layout.frameAddr m'.frames.current ∧
      Keeps [scratch, scratch', Template.frame] m m' := by
  have hroom := ht.room.values
  have hcur := ht.room.frames
  have hload : m.step (.mov (.reg scratch) (frameField Layout.sp)) =
      .ok (m.setReg scratch (Layout.slotAddr m.frames.frame.sp)) := h.load_field (by decide) rfl
  have hkeep : ∀ r ∈ slots, (m.setReg scratch (Layout.slotAddr m.frames.frame.sp)).regs.get r = m.regs.get r := by
    intro r hr
    have hne : ∀ r ∈ slots, scratch ≠ r := by decide
    rw [get_setReg, if_neg (hne r hr)]
  obtain ⟨m₂, hc₂, hf₂, hd₂, hk₂⟩ := environment_calm (m := m.setReg scratch (Layout.slotAddr m.frames.frame.sp)) c.args
    ht h.addressable (get_setReg_self _ _ _) hn (show m.frames.frame.sp + _ + 1 ≤ m.frames.values.size by omega)
  have hk₂' : Keeps [scratch, scratch', Template.frame] m m₂ :=
    (Keeps.setReg (by simp) _ _).trans (hk₂.mono (by simp))
  have hparams : c.args.map (fun r => (⟨(m.setReg scratch (Layout.slotAddr m.frames.frame.sp)).regs.get r⟩ : Value)) =
      c.args.map fun r => ⟨m.regs.get r⟩ := List.map_congr_left fun r hr => by rw [hkeep r (ha hr)]
  rw [hparams] at hf₂
  replace hf₂ : m₂.frames = m.frames.withValues (FrameStack.writeValues m.frames.values m.frames.frame.sp
      (c.args.map (fun r => ⟨m.regs.get r⟩) ++ [envHeader])) := hf₂
  have hu : Unchanged m.frames.current m.frames.frame.sp m.frames m₂.frames := by
    rw [hf₂]
    exact FrameStack.unchanged_writeValues ..
  have hcur₂ : m₂.frames.current = m.frames.current := by rw [hf₂]; rfl
  obtain ⟨m', hc', hf', hr', hk'⟩ := frame_calm c.callee (ht.congr hu hcur₂)
    (h.addressable.congr hu.framesSize hu.valuesSize)
    ((hk₂.regs _ (by decide)).trans ((get_setReg ..).trans h.context_eq))
    ((hk₂.regs _ (by decide)).trans ((get_setReg ..).trans (h.frame_eq.trans (by rw [hcur₂]))))
    hd₂ (show m.frames.frame.sp + c.args.length + 1 ≤ _ by rw [hu.valuesSize]; omega) hr
  have hrecv : m₂.regs.get c.receiver = m.regs.get c.receiver := by
    have hne : ∀ r ∈ slots, r ∉ [scratch, scratch', Template.frame] := by decide
    exact hk₂'.regs _ (hne _ hr)
  refine ⟨m', ?_, ?_, ?_, hk₂'.trans (hk'.mono (by simp))⟩
  · have := Calm.cons ht hload (hc₂.append hc')
    simpa only [Call.enter, List.append_assoc, List.cons_append, List.nil_append] using this
  · rw [hf', hf₂, hrecv, Call.push, FrameStack.push, if_neg (by rw [List.length_map]; omega), List.length_map]
    rfl
  · rw [hr', hf']

/-! ### What comes at a call site -/

/-- The register that an instruction stores in memory. -/
private def storedReg? : X86.Insn → Option Reg
  | .mov (.mem _ _) (.reg r) => some r
  | _ => none

private theorem filterMap_storeArgs (args : List Reg) : (Call.storeArgs args).filterMap storedReg? = args := by
  rw [Call.storeArgs, List.mapIdx_eq_zipIdx_map, List.filterMap_map]
  show List.filterMap (fun a : Reg × Nat => some a.1) args.zipIdx = args
  rw [List.filterMap_eq_map', List.zipIdx_map_fst]

/-- The arguments of a call site are the registers that are stored before the header. -/
private theorem args_code (c : Call) (entry : CodePtr) (rest : Assembly) :
    (((c.code entry ++ rest).tail.takeWhile (storedReg? · |>.isSome)).filterMap storedReg?) = c.args := by
  have hall : ∀ i ∈ Call.storeArgs c.args, (storedReg? i).isSome = true := by
    intro i hi
    obtain ⟨k, _, rfl⟩ := List.mem_mapIdx.1 hi
    rfl
  simp only [Call.code, Call.enter, List.append_assoc, List.cons_append, List.nil_append, List.tail_cons]
  rw [List.takeWhile_append_of_pos hall]
  simp only [List.takeWhile_cons]
  rw [if_neg (by simp [storedReg?, word]), List.append_nil, filterMap_storeArgs]

/-- A call site can be read off its code, but for the multiple of the word range in the callee's index. -/
private theorem code_inj {c c' : Call} {entry entry' : CodePtr} {rest rest' : Assembly}
    (h : c.code entry ++ rest = c'.code entry' ++ rest') :
    c.receiver = c'.receiver ∧ c.args = c'.args ∧ c.enter = c'.enter ∧
      UInt64.ofNat c.callee = UInt64.ofNat c'.callee := by
  have hargs : c.args = c'.args := by rw [← args_code c entry rest, h, args_code]
  obtain ⟨callee, receiver, args⟩ := c
  obtain ⟨callee', receiver', args'⟩ := c'
  cases hargs
  simp only [Call.code, Call.enter, List.append_assoc, List.append_cancel_left_eq, List.cons_append, List.nil_append,
    List.cons.injEq, X86.Insn.mov.injEq, Operand.reg.injEq, true_and, and_true] at h
  obtain ⟨rfl, hcallee, _⟩ := h
  refine ⟨rfl, rfl, by simp only [Call.enter, hcallee], ?_⟩
  rw [← toUInt64_ofInt, ← toUInt64_ofInt, Operand.imm.inj hcallee]

/-- At the start of a call site there is nothing to watch but the call site itself. -/
theorem within_code {self : Value} {args stack : List Value} (h : m.Active self args stack)
    (ht : Tame size m.frames) {c : Call} (hr : c.receiver ∈ slots) (ha : c.args ⊆ slots) (hn : c.args.length ≤ 3)
    (entry : CodePtr) (rest : Assembly) : Within size (c.code entry ++ rest) m := by
  refine ⟨ht, ?_⟩
  intro c' entry' rest' he
  obtain ⟨hrecv, hargs, henter, hcallee⟩ := code_inj he
  obtain ⟨m₁, hc, hp, _⟩ := enter_calm h ht hr ha hn
  refine ⟨by rw [← hargs]; exact hn, m₁, by rw [← henter]; exact hc.steps_eq, ?_⟩
  rw [← hp, Call.push, Call.push, hrecv, hargs, hcallee]

end StackMachine.Native.Machine
