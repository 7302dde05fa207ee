import Mathlib
import StackMachine.Proofs.CallEntry
import StackMachine.Proofs.CallGraph

/-!
# Call sites

After entering the call a call site saves the stack registers, calls, restores them and puts the result where the
receiver was.

* `save_restore`: pops in reverse order take back what was pushed around code that keeps the native stack.
* `Ready` is what a call site has arranged when it calls, `Returned` what a called method guarantees to its caller.
* `plan_operands`: a call site that was planned finds its operands on the stack.
* `code_advances`: if the callee returns, the whole call site is one more instruction that advances the caller, with
  the result in place of the receiver and the arguments.
-/

namespace StackMachine.Native.Machine

open X86 (Reg Operand Assembly)
open Template
open FrameStack (Unchanged)

variable {size : Nat} {placed : List Placement} {code : Assembly} {m m' : Machine}

/-! ### Saving registers -/

/-- The machine after pushing registers on the native stack. -/
def pushRegs : List Reg → Machine → Machine
  | [], m => m
  | r :: rs, m => pushRegs rs (m.pushCell (.word (m.regs.get r)))

theorem get_pushCell {r : Reg} (hr : r ≠ .rsp) (m : Machine) (c : Cell) : (m.pushCell c).regs.get r = m.regs.get r := by
  show (m.setReg .rsp _).regs.get r = _
  rw [get_setReg, if_neg hr.symm]

theorem frames_pushRegs (rs : List Reg) (m : Machine) : (pushRegs rs m).frames = m.frames := by
  induction rs generalizing m with
  | nil => rfl
  | cons r rs ih => exact ih _

theorem get_pushRegs {r : Reg} (hr : r ≠ .rsp) (rs : List Reg) (m : Machine) :
    (pushRegs rs m).regs.get r = m.regs.get r := by
  induction rs generalizing m with
  | nil => rfl
  | cons _ rs ih => exact (ih _).trans (get_pushCell hr _ _)

/-- A return and a pop take back what was pushed. -/
theorem popCell_of_cons {c : Cell} {native : List Cell} (h : m.native = c :: native) :
    ∃ m', m.popCell = .ok (c, m') ∧ m'.native = native ∧ m'.frames = m.frames ∧
      m'.regs.get .rsp = m.regs.get .rsp + 8 ∧ ∀ r, r ≠ .rsp → m'.regs.get r = m.regs.get r := by
  simp only [popCell, h]
  refine ⟨_, rfl, rfl, rfl, get_setReg_self _ _ _, ?_⟩
  intro r hr
  exact (get_setReg _ _ _ _).trans (if_neg hr.symm)

/-- Code that leaves the native stack as it was, between pushes and the pops in reverse order. -/
theorem save_restore {rs : List Reg} (hrs : Reg.rsp ∉ rs) (ht : Tame size m.frames) (ht' : Tame size m'.frames)
    (hl : Leads (Within size) placed code (pushRegs rs m) m') (hn : m'.native = (pushRegs rs m).native)
    (hsp : m'.regs.get .rsp = (pushRegs rs m).regs.get .rsp) :
    ∃ last, Leads (Within size) placed (rs.map .push ++ code ++ rs.reverse.map .pop) m last ∧
      last.frames = m'.frames ∧ last.native = m.native ∧
      ∀ r, last.regs.get r = if r = .rsp ∨ r ∈ rs then m.regs.get r else m'.regs.get r := by
  induction rs generalizing m with
  | nil =>
    refine ⟨m', by simpa [pushRegs] using hl, rfl, hn, ?_⟩
    intro r
    split
    · rename_i hr
      obtain rfl : r = .rsp := by simpa using hr
      exact hsp
    · rfl
  | cons s rs ih =>
    rw [List.mem_cons, not_or] at hrs
    obtain ⟨m₂, hl₂, hf₂, hn₂, hr₂⟩ := ih (m := m.pushCell (.word (m.regs.get s))) hrs.2 ht hl hn hsp
    obtain ⟨m₃, hp, hn₃, hf₃, hsp₃, hr₃⟩ := popCell_of_cons (m := m₂) hn₂
    have hstep : m₂.step (.pop s) = .ok (m₃.setReg s (m.regs.get s)) := by
      simp only [step, hp, bind, Except.bind]
      rfl
    refine ⟨m₃.setReg s (m.regs.get s), ?_, hf₃.trans hf₂, hn₃, ?_⟩
    · have hpop : Leads (Within size) placed [.pop s] m₂ _ := .quiet (hf₂ ▸ ht') (by simp) hstep .nil
      have hpush : m.step (.push s) = .ok (m.pushCell (.word (m.regs.get s))) := rfl
      have := Leads.quiet ht (by simp) hpush (hl₂.append hpop)
      simpa only [List.map_cons, List.reverse_cons, List.map_append, List.map_nil, List.cons_append,
        List.append_assoc] using this
    · intro r
      rw [get_setReg]
      by_cases hs : s = r
      · rw [if_pos hs, if_pos (.inr (hs ▸ List.mem_cons_self ..)), hs]
      · rw [if_neg hs]
        by_cases hr : r = .rsp
        · subst hr
          have hsp₁ : (m.pushCell (.word (m.regs.get s))).regs.get .rsp = m.regs.get .rsp - 8 := get_setReg_self _ _ _
          rw [hsp₃, hr₂, if_pos (.inl rfl), if_pos (.inl rfl), hsp₁, UInt64.sub_add_cancel]
        · simp only [hr₃ r hr, hr₂, get_pushCell hr, List.mem_cons, Ne.symm hs, false_or]

/-! ### Calls -/

/-- The machine is about to enter the code for a call: the call's frame is current, and on the frame stack there is
room for a chain of `n` further calls below it. -/
structure Ready (size n : Nat) (m : Machine) (receiver : Value) (args : List Value) : Prop where
  active : m.Active receiver args []
  room : m.frames.Room n
  caller : Tame size m.frames.caller

/-- The code for a call has returned a value to its caller, whose frame is current again. -/
structure Returned (m m' : Machine) (v : Value) : Prop where
  result_eq : m'.regs.get result = v.raw
  keeps : Keeps (Template.frame :: clobbered) m m'
  frame_eq : m'.regs.get Template.frame = Layout.frameAddr m'.frames.current
  current_eq : m'.frames.current = m.frames.current + 1
  unchanged : Unchanged m.frames.current m.frames.frame.sp m.frames m'.frames

/-- Calling an address returns a value. -/
def Answers (size : Nat) (placed : List Placement) (addr : UInt64) (m : Machine) (v : Value) : Prop :=
  ∃ code older m', Placed placed addr code older ∧ Runs (Within size) older code (m.pushCell .returnAddress) m' ∧
    Returned m m' v

theorem Ready.tame {n : Nat} {self : Value} {args : List Value} (h : Ready size n m self args) (hn : 1 ≤ n) :
    Tame size m.frames :=
  ⟨h.caller.size_eq, Nat.lt_of_succ_lt h.caller.current_lt, h.room.mono hn⟩

/-- Where a call site has its operands. -/
structure Operands (c : Call) (regs : Registers) (receiver : Value) (params below : List Value) : Prop where
  receiver_eq : regs.get c.receiver = receiver.raw
  params_eq : c.args.map (fun r => ⟨regs.get r⟩) = params
  slot_eq : slots[below.length]? = some c.receiver
  args_subset : c.args ⊆ slots
  args_le : c.args.length ≤ 3
  below : Holds regs below

/-- A call site that was planned finds its operands on the stack. -/
theorem plan_operands {regs : Registers} {stack : List Value} (h : Holds regs stack) {p : Program} {method : Method}
    {pc : Nat} {idx : UInt64} {c : Call} (hp : Call.plan p method pc stack.length idx = .ok c) :
    ∃ site callee receiver params below, method.site? idx = some site ∧ p.method? site.callee = some callee ∧
      c.callee = site.callee ∧ site.argc.toNat + 1 ≠ UInt64.size ∧ params.length = site.argc.toNat ∧
      params.length = callee.locals ∧
      c.args.length = params.length ∧ stack = params.reverse ++ receiver :: below ∧
      Operands c regs receiver params below := by
  obtain ⟨site, callee, r, hsite, hcallee, harity, hcount, hr, rfl⟩ := Call.plan_eq_ok.1 hp
  obtain ⟨v, hv, hg, hs⟩ := h.peek hr
  obtain ⟨hlt, hget⟩ := List.getElem?_eq_some_iff.1 hv
  have hle := h.length_le
  have hparams : (((List.range site.argc.toNat).reverse.filterMap (peek? stack.length)).map
      fun r => (⟨regs.get r⟩ : Value)) = (stack.take site.argc.toNat).reverse := by
    rw [List.filterMap_reverse, List.map_reverse, h.map_peek hlt.le]
  have hlen : (stack.take site.argc.toNat).reverse.length = site.argc.toNat := by
    rw [List.length_reverse, List.length_take, min_eq_left hlt.le]
  have hargs : ((List.range site.argc.toNat).reverse.filterMap (peek? stack.length)).length = site.argc.toNat := by
    rw [← List.length_map (fun r => (⟨regs.get r⟩ : Value)), hparams, hlen]
  have hbelow : (stack.drop (site.argc.toNat + 1)).length = stack.length - (site.argc.toNat + 1) := List.length_drop
  refine ⟨site, callee, v, (stack.take site.argc.toNat).reverse, stack.drop (site.argc.toNat + 1), hsite, hcallee, rfl,
    hcount, hlen, by rw [hlen]; omega, hargs.trans hlen.symm, ?_, hg, hparams, by rw [hbelow]; exact hs, ?_, ?_,
    h.drop _⟩
  · rw [List.reverse_reverse, ← hget, List.cons_getElem_drop_succ, List.take_append_drop]
  · intro r' hr'
    obtain ⟨k, _, hk⟩ := List.mem_filterMap.1 hr'
    unfold peek? at hk
    split at hk
    · exact mem_slots hk
    · cases hk
  · rw [hargs]
    simp only [slots, List.length_cons, List.length_nil] at hle
    omega

private theorem enter_tail_quiet (c : Call) :
    ∀ i ∈ c.enter.tail, i ≠ .mov (.reg scratch) (frameField Layout.sp) := by
  have hstore : ∀ i ∈ Call.storeArgs c.args, i ≠ .mov (.reg scratch) (frameField Layout.sp) := by
    intro i hi
    obtain ⟨k, _, rfl⟩ := List.mem_mapIdx.1 hi
    simp
  have hskip : ∀ n, ∀ i ∈ Call.skipArgs n, i ≠ .mov (.reg scratch) (frameField Layout.sp) := by
    intro n i hi
    unfold Call.skipArgs at hi
    split at hi
    · simp at hi
    · simp [List.mem_singleton.1 hi]
  simp only [Call.enter, List.append_assoc, List.cons_append, List.nil_append, List.tail_cons, List.forall_mem_append,
    List.forall_mem_cons]
  exact ⟨hstore, by simp, by simp [frameField], hskip _, by simp [frameField, imm]⟩

private theorem Advances.of_leads {self : Value} {args stack : List Value} (h : m.Active self args stack)
    (hl : Leads (Within size) placed code m m') (hc : m'.frames.current = m.frames.current)
    (hu : Unchanged m.frames.current m.frames.frame.sp m.frames m'.frames) (hk : Keeps clobbered m m')
    {below : List Value} (hb : Holds m'.regs below) : Advances size placed code m self args below := by
  refine ⟨m', hl, ⟨?_, ?_, h.addressable.congr hu.framesSize hu.valuesSize, h.activated.congr hu hc, hb⟩, hk, hc, hu⟩
  · rw [hk.regs _ (by decide), h.context_eq]
  · rw [hk.regs _ (by decide), h.frame_eq, hc]

/-- What the code before the machine call has arranged, with the stack registers saved. -/
private theorem ready_pushRegs {m₁ : Machine} {self receiver : Value} {args stack params : List Value} {word : UInt64}
    {n : Nat} (h : m.Active self args stack) (ht : Tame size m.frames) (hroom : m.frames.Room (n + 1))
    (hp : m.frames.push receiver params word = some m₁.frames) (hparams : params.length ≤ 3)
    (hf : m₁.regs.get Template.frame = Layout.frameAddr m₁.frames.current)
    (hk : Keeps [scratch, scratch', Template.frame] m m₁) : Ready size n (pushRegs slots m₁) receiver params := by
  have hu := FrameStack.unchanged_push hp
  have hreg : ∀ r, r ≠ .rsp → (pushRegs slots m₁).regs.get r = m₁.regs.get r := fun r hr => get_pushRegs hr _ _
  have hframes := frames_pushRegs slots m₁
  refine ⟨⟨?_, ?_, ?_, ?_, trivial⟩, ?_, ?_⟩
  · rw [hreg _ (by decide), hk.regs _ (by decide), h.context_eq]
  · rw [hreg _ (by decide), hframes, hf]
  · rw [hframes]
    exact h.addressable.congr hu.framesSize hu.valuesSize
  · rw [hframes]
    exact FrameStack.activated_push hp h.activated.current_lt
  · rw [hframes]
    exact hroom.pushed hp h.activated.current_lt hparams
  · rw [hframes]
    exact ht.congr ⟨hu.framesSize, hu.valuesSize, hu.frames, hu.values⟩ (FrameStack.current_push hp)

/-- The parts of a call site, one after the other. -/
private theorem code_leads {m₁ m₃ m₄ : Machine} {self : Value} {args stack : List Value} (h : m.Active self args stack)
    (ht : Tame size m.frames) {c : Call} (hr : c.receiver ∈ slots) (ha : c.args ⊆ slots) (hn : c.args.length ≤ 3)
    {entry : CodePtr} (hc : Calm size c.enter m m₁)
    (hl : Leads (Within size) placed
      (slots.map .push ++ [.call (.imm entry.addr.toInt64)] ++ slots.reverse.map .pop) m₁ m₃)
    (ht₃ : Tame size m₃.frames) (hmov : m₃.step (.mov (.reg c.receiver) (.reg result)) = .ok m₄) :
    Leads (Within size) placed (c.code entry) m m₄ := by
  obtain ⟨_, m₀, hload, htail⟩ :=
    (show Calm size (.mov (.reg scratch) (frameField Layout.sp) :: c.enter.tail) m m₁ from hc)
  have hlast : Leads (Within size) placed [.mov (.reg c.receiver) (.reg result)] m₃ m₄ :=
    .quiet ht₃ (by simp [frameField]) hmov .nil
  have hcode : c.code entry = .mov (.reg scratch) (frameField Layout.sp) :: (c.enter.tail ++
      (slots.map .push ++ [.call (.imm entry.addr.toInt64)] ++ slots.reverse.map .pop ++
        [.mov (.reg c.receiver) (.reg result)])) := by
    simp only [Call.code, Call.enter, List.append_assoc, List.cons_append, List.nil_append, List.tail_cons]
  rw [hcode]
  refine .step ?_ hload ((htail.leads (enter_tail_quiet c)).append (hl.append hlast))
  -- only the first instruction can be taken for a call site, and it is this one's
  intro rest
  rw [← List.cons_append, ← hcode]
  exact within_code h ht hr ha hn entry rest

/-- The registers of the caller after the pops, `m₂` being the machine when the callee has returned. -/
private theorem keeps_restored {m₁ m₂ m₃ : Machine} (hk : Keeps [scratch, scratch', Template.frame] m m₁)
    (hret : Keeps (Template.frame :: clobbered) (pushRegs slots m₁) m₂)
    (hframe : m₂.regs.get Template.frame = m.regs.get Template.frame) (hn : m₃.native = m₁.native)
    (hr₃ : ∀ r, m₃.regs.get r = if r = .rsp ∨ r ∈ slots then m₁.regs.get r else m₂.regs.get r) :
    Keeps clobbered m m₃ := by
  refine ⟨fun r hr => ?_, hn.trans hk.native⟩
  have hslots : slots ⊆ clobbered := by decide
  rw [hr₃]
  by_cases hsp : r = .rsp ∨ r ∈ slots
  · rw [if_pos hsp]
    rcases hsp with rfl | hs
    · exact hk.regs _ (by decide)
    · exact absurd (hslots hs) hr
  · rw [if_neg hsp]
    by_cases hfr : r = Template.frame
    · rw [hfr, hframe]
    · have hsub : [scratch, scratch', Template.frame] ⊆ Template.frame :: clobbered := by decide
      have hout : r ∉ Template.frame :: clobbered := by simp [hfr, hr]
      rw [hret.regs r hout, get_pushRegs (fun he => hsp (.inl he)), hk.regs r fun hin => hout (hsub hin)]

/-- The whole call site, given that the callee returns. -/
theorem code_advances {self receiver : Value} {args stack params below : List Value} {n : Nat} {P : Value → Prop}
    (h : m.Active self args stack) (hroom : m.frames.Room (n + 1)) (hsize : m.frames.frames.size = size) (hn : 1 ≤ n)
    {c : Call} (ho : Operands c m.regs receiver params below) {entry : CodePtr}
    (hcall : ∀ m₁, Ready size n m₁ receiver params → ∃ v, P v ∧ Answers size placed entry.addr m₁ v) :
    ∃ v, P v ∧ Advances size placed (c.code entry) m self args (v :: below) := by
  have ht : Tame size m.frames := ⟨hsize, hsize ▸ h.activated.current_lt, hroom.mono (by omega)⟩
  have hmem := mem_slots ho.slot_eq
  obtain ⟨m₁, hc, hp, hf₁, hk₁⟩ := enter_calm h ht hmem ho.args_subset ho.args_le
  have hparams : params.length ≤ 3 := by
    rw [← ho.params_eq, List.length_map]
    exact ho.args_le
  rw [Call.push, ho.params_eq, ho.receiver_eq] at hp
  -- the callee's side
  have hready := ready_pushRegs h ht hroom hp hparams hf₁ hk₁
  obtain ⟨v, hv, code, older, m₂, hplaced, hruns, hret⟩ := hcall _ hready
  have hu₂ : Unchanged m.frames.current m.frames.frame.sp m.frames m₂.frames := by
    have hu := hret.unchanged
    rw [frames_pushRegs] at hu
    have hcur := FrameStack.current_push hp
    have hfr := FrameStack.frame_push hp h.activated.current_lt
    exact (FrameStack.unchanged_push hp).trans (hu.mono (by omega) (by rw [hfr]; show _ ≤ _ + _ + 1; omega))
  have hcur₂ : m₂.frames.current = m.frames.current := by
    rw [hret.current_eq, frames_pushRegs, FrameStack.current_push hp]
  -- the machine call between the pushes and the pops
  have hread : (pushRegs slots m₁).read (.imm entry.addr.toInt64) = .ok entry.addr :=
    congrArg Except.ok (UInt64.toUInt64_toInt64 _)
  have hlead : Leads (Within size) placed [.call (.imm entry.addr.toInt64)] (pushRegs slots m₁) m₂ :=
    .call (fun _ => .of_head (hready.tame hn) (by simp) _) hread hplaced hruns
  obtain ⟨m₃, hl₃, hf₃, hn₃, hr₃⟩ := save_restore (by decide) (frames_pushRegs slots m₁ ▸ hready.tame hn)
    (ht.congr hu₂ hcur₂) hlead hret.keeps.native (hret.keeps.regs _ (by decide))
  have hmov : m₃.step (.mov (.reg c.receiver) (.reg result)) = .ok (m₃.setReg c.receiver v.raw) := by
    show Except.ok (m₃.setReg c.receiver (m₃.regs.get result)) = _
    rw [hr₃, if_neg (by decide), hret.result_eq]
  have hwhole := code_leads h ht hmem ho.args_subset ho.args_le hc hl₃ (hf₃ ▸ ht.congr hu₂ hcur₂) hmov
  have hk₃ : Keeps clobbered m m₃ :=
    keeps_restored hk₁ hret.keeps (by rw [hret.frame_eq, hcur₂, h.frame_eq]) hn₃ hr₃
  have hslots : slots ⊆ clobbered := by decide
  refine ⟨v, hv, .of_leads h hwhole ?_ ?_ (hk₃.trans (.setReg (hslots hmem) _ _))
    ⟨⟨c.receiver, ho.slot_eq, get_setReg_self _ _ _⟩, ?_⟩⟩
  · show m₃.frames.current = _
    rw [hf₃, hcur₂]
  · show Unchanged _ _ _ m₃.frames
    rw [hf₃]
    exact hu₂
  · refine ho.below.congr fun k r hk hs => ?_
    have hne : c.receiver ≠ r := by
      intro he
      have := slots_inj (he ▸ ho.slot_eq) hs
      omega
    have hfree : ∀ r ∈ slots, r ∉ [scratch, scratch', Template.frame] := by decide
    rw [get_setReg, if_neg hne, hr₃, if_pos (.inr (mem_slots hs)), hk₁.regs _ (hfree r (mem_slots hs))]

end StackMachine.Native.Machine
