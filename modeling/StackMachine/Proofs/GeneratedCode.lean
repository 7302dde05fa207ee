import Mathlib
import StackMachine.Proofs.CodeSize
import StackMachine.Proofs.Histories
import StackMachine.Proofs.NativeStack
import StackMachine.Proofs.Refusals

/-!
# What generated code consists of

The code of a method can be encoded at every address, so compilation never fails for an instruction that has no form.
It keeps to the registers that are set aside for it, does not write the one that holds the context, and has taken from
the native stack what it put there wherever it returns.

* `Insn.reads` and `Insn.writes` are the registers that an instruction uses, with the stack pointer.  An instruction
  changes no other register (`Machine.step_get`).
* `Template.Conforms` is what holds of every instruction of a template, and so of the code of a method
  (`Listed.conforms`).
* `Balanced.saved_before_ret`: in balanced code nothing is saved where it returns.
* `generate_listed`: what is generated is listed, however the entries of callees are found.
* `compile_ne_assembly`: no request fails because code cannot be encoded.
-/

namespace StackMachine

namespace X86

/-! ### Registers of an instruction -/

namespace Operand

/-- The registers that an operand names. -/
@[simp]
def regs : Operand → List Reg
  | reg r => [r]
  | mem base _ => [base]
  | imm _ => []

/-- The registers that writing to an operand reads. -/
def bases : Operand → List Reg
  | mem base _ => [base]
  | _ => []

/-- The registers that writing to an operand writes. -/
@[simp]
def targets : Operand → List Reg
  | reg r => [r]
  | _ => []

theorem bases_subset (o : Operand) : o.bases ⊆ o.regs := by
  cases o <;> simp [bases, regs]

theorem targets_subset (o : Operand) : o.targets ⊆ o.regs := by
  cases o <;> simp [targets, regs]

end Operand

namespace Insn

def reads : Insn → List Reg
  | mov dst src => dst.bases ++ src.regs
  | alu _ dst src | cmovl dst src => dst.regs ++ src.regs
  | push r => [.rsp, r]
  | pop _ | ret => [.rsp]
  | call target => .rsp :: target.regs

/-- A call whose target is far goes through `rax`. -/
def writes : Insn → List Reg
  | alu .cmp _ _ => []
  | mov dst _ | alu _ dst _ | cmovl dst _ => dst.targets
  | push _ | ret => [.rsp]
  | pop r => [.rsp, r]
  | call _ => [.rsp, .rax]

/-- Beyond the registers that its operands name, an instruction uses the stack pointer for the native stack, and `rax`
for a call. -/
theorem mem_uses {i : Insn} {r : Reg} (h : r ∈ i.reads ∨ r ∈ i.writes) :
    (∃ o ∈ i.operands, r ∈ o.regs) ∨ (r = .rsp ∨ r = .rax) ∧ i.usesStack = true := by
  cases i with
  | mov dst src =>
    have hbases := @dst.bases_subset r
    have htargets := @dst.targets_subset r
    simp only [reads, writes, List.mem_append] at h
    simp only [operands, List.mem_cons, List.not_mem_nil, or_false, exists_eq_or_imp, exists_eq_left]
    tauto
  | alu op dst src =>
    have htargets := @dst.targets_subset r
    cases op <;> simp [reads, writes, operands] at h ⊢ <;> tauto
  | cmovl dst src =>
    have htargets := @dst.targets_subset r
    simp [reads, writes, operands] at h ⊢
    tauto
  | push s | pop s | call target | ret =>
    simp [reads, writes, operands, usesStack, Operand.regs] at h ⊢
    tauto

/-- The saved registers after an instruction: a register is restored only if it was the last one saved. -/
def save (stack : List Reg) : Insn → Option (List Reg)
  | push r => some (r :: stack)
  | pop r => if stack.head? = some r then some stack.tail else none
  | _ => some stack

end Insn

/-! ### The native stack -/

/-- The registers that are saved on the native stack after the instructions, the last one first.  There is no answer if
a register is restored that was not the last one saved. -/
def Assembly.saved (stack : List Reg) (asm : Assembly) : Option (List Reg) := asm.foldlM Insn.save stack

end X86

namespace Native

open X86 (Reg Operand Assembly)

/-! ### What an instruction changes -/

namespace Machine

variable {m m' : Machine} {r : Reg}

/-- All that was saved is restored where code returns. -/
theorem Balanced.saved_before_ret {limit : Nat} {kind : Operand → Prop} {stack : List Reg} {before after : Assembly}
    (h : Balanced limit kind stack (before ++ .ret :: after)) : before.saved stack = some [] := by
  induction before generalizing stack with
  | nil => exact congrArg some h.1
  | cons i before ih =>
    cases i with
    | push r => exact ih h.2
    | pop r =>
      obtain ⟨below, rfl, h⟩ := h
      rw [Assembly.saved, List.foldlM_cons, X86.Insn.save, List.head?_cons, if_pos rfl]
      exact ih h
    | call | ret => exact ih h.2
    | mov | alu | cmovl => exact ih h

private theorem write_get {dst : Operand} {w : UInt64} (h : m.write dst w = .ok m') (hr : r ∉ dst.targets) :
    m'.regs.get r = m.regs.get r := by
  cases dst with
  | reg d =>
    cases h
    rw [get_setReg, if_neg]
    rintro rfl
    exact hr List.mem_cons_self
  | mem base disp =>
    simp only [write, store] at h
    split at h
    · cases h
      rfl
    · cases h
  | imm value => cases h

/-- An instruction changes only the registers that it writes. -/
theorem step_get {i : X86.Insn} (h : m.step i = .ok m') (hr : r ∉ i.writes) : m'.regs.get r = m.regs.get r := by
  cases i with
  | mov dst src =>
    obtain ⟨w, _, h⟩ := bind_eq_ok h
    exact write_get h hr
  | alu op dst src =>
    obtain ⟨a, _, h⟩ := bind_eq_ok h
    obtain ⟨b, _, h⟩ := bind_eq_ok h
    cases op with
    | add | sub => exact (write_get (m := m.setFlag _) h hr).trans rfl
    | cmp =>
      cases h
      rfl
  | cmovl dst src =>
    obtain ⟨w, _, h⟩ := bind_eq_ok h
    split at h
    · exact write_get h hr
    · cases h
      rfl
  | push s =>
    cases h
    exact (get_setReg _ _ _ _).trans (if_neg fun heq => hr (by simp [X86.Insn.writes, heq]))
  | pop s =>
    obtain ⟨⟨c, m₁⟩, hpop, h⟩ := bind_eq_ok h
    have hkept : m₁.regs.get r = m.regs.get r := by
      simp only [popCell] at hpop
      split at hpop
      · cases hpop
      · cases hpop
        exact (get_setReg _ _ _ _).trans (if_neg fun heq => hr (by simp [X86.Insn.writes, heq]))
    cases c with
    | word w =>
      cases h
      rw [get_setReg, if_neg, hkept]
      rintro rfl
      exact hr (by simp [X86.Insn.writes])
    | returnAddress => cases h
  | call target | ret => cases h

end Machine

/-! ### Templates -/

namespace Template

variable {m : Method} {height : Nat} {i : Insn} {e : Emitted}

/-- The registers that generated code may name. -/
def registers : List Reg := [.rax, .rcx, .rdx, .r8, .r9, .r10, .r11, .r12, .r13]

/-- The instruction names only these registers and does not write the one that holds the context. -/
@[mk_iff]
structure Conforms (i : X86.Insn) : Prop where
  named : ∀ o ∈ i.operands, o.regs ⊆ registers
  context : context ∉ i.writes

theorem Conforms.uses {i : X86.Insn} (h : Conforms i) {r : Reg} (hr : r ∈ i.reads ∨ r ∈ i.writes) :
    r ∈ registers ∨ r = .rsp ∧ i.usesStack = true := by
  rcases X86.Insn.mem_uses hr with ⟨o, ho, hmem⟩ | ⟨rfl | rfl, hstack⟩
  · exact .inl (h.named o ho hmem)
  · exact .inr ⟨rfl, hstack⟩
  · exact .inl (by decide)

/-- The stack pointer is never an operand. -/
theorem Conforms.rsp_not_mem {i : X86.Insn} (h : Conforms i) : ∀ o ∈ i.operands, Reg.rsp ∉ o.regs := by
  intro o ho hmem
  exact absurd (h.named o ho hmem) (by decide)

@[simp]
theorem conforms_mov {dst src : Operand} :
    Conforms (.mov dst src) ↔ dst.regs ⊆ registers ∧ src.regs ⊆ registers ∧ context ∉ dst.targets := by
  simp [conforms_iff, X86.Insn.operands, X86.Insn.writes, and_assoc]

@[simp]
theorem conforms_alu {op : X86.AluOp} {dst src : Operand} :
    Conforms (.alu op dst src) ↔ dst.regs ⊆ registers ∧ src.regs ⊆ registers ∧ (op = .cmp ∨ context ∉ dst.targets) := by
  cases op <;> simp [conforms_iff, X86.Insn.operands, X86.Insn.writes, and_assoc]

@[simp]
theorem conforms_cmovl {dst src : Operand} :
    Conforms (.cmovl dst src) ↔ dst.regs ⊆ registers ∧ src.regs ⊆ registers ∧ context ∉ dst.targets := by
  simp [conforms_iff, X86.Insn.operands, X86.Insn.writes, and_assoc]

@[simp]
theorem conforms_push {r : Reg} : Conforms (.push r) ↔ r ∈ registers := by
  have hne : context ≠ .rsp := by decide
  simp [conforms_iff, X86.Insn.operands, X86.Insn.writes, hne]

@[simp]
theorem conforms_pop {r : Reg} : Conforms (.pop r) ↔ r ∈ registers ∧ context ≠ r := by
  have hne : context ≠ .rsp := by decide
  simp [conforms_iff, X86.Insn.operands, X86.Insn.writes, hne]

@[simp]
theorem conforms_call_imm {value : Int64} : Conforms (.call (.imm value)) := by
  have hwrites : context ∉ [.rsp, .rax] := by decide
  exact ⟨by simp [X86.Insn.operands], hwrites⟩

@[simp]
theorem conforms_ret : Conforms .ret := ⟨List.forall_mem_nil _, by decide⟩

private theorem slot_mem {n : Nat} {r : Reg} (h : slots[n]? = some r) : r ∈ registers ∧ context ≠ r := by
  have hslots : ∀ r ∈ slots, r ∈ registers ∧ context ≠ r := by decide
  exact hslots r (List.mem_of_getElem? h)

private theorem peek_mem {depth : Nat} {r : Reg} (h : peek? height depth = some r) : r ∈ registers ∧ context ≠ r := by
  unfold peek? at h
  split at h
  · exact slot_mem h
  · cases h

private theorem reserved_mem : context ∈ registers ∧ frame ∈ registers ∧ result ∈ registers ∧ scratch ∈ registers ∧
    scratch' ∈ registers := by decide

private theorem reserved_ne : context ≠ frame ∧ context ≠ result ∧ context ≠ scratch ∧ context ≠ scratch' := by decide

/-- Templates name registers that are reserved or hold the operand stack. -/
theorem Emits.conforms (h : Emits m height i e) : ∀ x ∈ e.code, Conforms x := by
  cases h with
  | nop | pop => simp
  | getLocal _ hs | putSelf hs => simp [frameField, slot_mem hs, reserved_mem, reserved_ne]
  | literal _ hs => simp [word, slot_mem hs]
  | dup hp hs => simp [peek_mem hp, slot_mem hs]
  | combine hi hl hr =>
    have hleft := peek_mem hl
    have hright := peek_mem hr
    cases i with
    | plus | minus | less =>
      cases hi
      simp [plus, minus, less, imm, word, hleft, hright, reserved_mem, reserved_ne]
    | _ => cases hi
  | leave hp => simp [Template.leave, imm, peek_mem hp, reserved_mem, reserved_ne]

namespace Call

variable {p : Program} {pc : Nat} {idx : UInt64} {c : Call}

/-- The receiver and the arguments are in registers of the operand stack. -/
private theorem operands_mem (hp : plan p m pc height idx = .ok c) :
    (c.receiver ∈ registers ∧ context ≠ c.receiver) ∧ ∀ r ∈ c.args, r ∈ registers := by
  obtain ⟨site, callee, receiver, _, _, _, _, hreceiver, rfl⟩ := plan_eq_ok.1 hp
  refine ⟨peek_mem hreceiver, fun r hr => ?_⟩
  obtain ⟨depth, _, hdepth⟩ := List.mem_filterMap.1 hr
  exact (peek_mem hdepth).1

private theorem storeArgs_conforms {args : List Reg} (h : ∀ r ∈ args, r ∈ registers) :
    ∀ x ∈ storeArgs args, Conforms x := by
  intro x hx
  obtain ⟨i, hi, rfl⟩ := List.mem_mapIdx.1 hx
  simp [reserved_mem, h _ (List.getElem_mem hi)]

private theorem skipArgs_conforms (offset : Nat) : ∀ x ∈ skipArgs offset, Conforms x := by
  unfold skipArgs
  split
  · simp
  · simp [imm, reserved_mem, reserved_ne]

private theorem enter_conforms (hreceiver : c.receiver ∈ registers) (hargs : ∀ r ∈ c.args, r ∈ registers) :
    ∀ x ∈ c.enter, Conforms x := by
  simp only [enter, List.forall_mem_append]
  refine ⟨⟨⟨⟨?_, storeArgs_conforms hargs⟩, ?_⟩, skipArgs_conforms _⟩, ?_⟩
  · simp [frameField, reserved_mem, reserved_ne]
  · simp [word, reserved_mem, reserved_ne]
  · simp [frameField, imm, hreceiver, reserved_mem, reserved_ne]

theorem conforms (hp : plan p m pc height idx = .ok c) (entry : CodePtr) : ∀ x ∈ c.code entry, Conforms x := by
  obtain ⟨hreceiver, hargs⟩ := operands_mem hp
  have hslots : ∀ r ∈ slots, r ∈ registers ∧ context ≠ r := by decide
  simp only [code, List.forall_mem_append]
  refine ⟨⟨⟨⟨enter_conforms hreceiver.1 hargs, ?_⟩, ?_⟩, ?_⟩, ?_⟩
  · rw [List.forall_mem_map]
    exact fun r hr => conforms_push.2 (hslots r hr).1
  · simp
  · rw [List.forall_mem_map]
    exact fun r hr => conforms_pop.2 (hslots r (List.mem_reverse.1 hr))
  · simp [hreceiver, reserved_mem]

end Call

end Template

/-! ### Methods -/

open Template (Conforms context registers)

section

variable {p : Program} {method : Method} {target : Nat → CodePtr → Prop} {insns : List (Nat × Insn)} {height : Nat}
  {code : Assembly}

theorem Listed.conforms (h : Listed p method target insns height code) : ∀ i ∈ code, Conforms i := by
  induction h with
  | nil => exact List.forall_mem_nil _
  | plain he _ ih => exact List.forall_mem_append.2 ⟨(Template.emit_eq_ok.1 he).conforms, ih⟩
  | send hplan _ _ ih => exact List.forall_mem_append.2 ⟨Template.Call.conforms hplan _, ih⟩

/-- Listed code can be encoded at every address. -/
theorem Listed.encodes (h : Listed p method target insns height code) (hp : p.size ≤ 2 ^ 31)
    (hh : height ≤ Template.slots.length) (addr : UInt64) : ∃ bytes, code.encode addr = .ok bytes := by
  obtain ⟨bytes, hbytes, _⟩ := h.takes hp hh 0 addr.toNat
  rw [UInt64.ofNat_toNat] at hbytes
  exact ⟨bytes, hbytes⟩

end

namespace Compiler

variable {p : Program} {method : Method} {resolve : Nat → Step CodePtr} {s : State} {code : Assembly}

private theorem generateInsns_listed {insns : List (Nat × Insn)} {height : Nat}
    (h : (generateInsns resolve p method insns height s).1 = .ok code) :
    Listed p method (fun _ _ => True) insns height code := by
  induction insns generalizing height s code with
  | nil =>
    cases h
    exact .nil
  | cons head rest ih =>
    obtain ⟨pc, i⟩ := head
    rw [generateInsns_cons] at h
    obtain ⟨emitted, hhead, h⟩ := andThen_eq_ok h
    obtain ⟨more, hrest, h⟩ := andThen_eq_ok h
    cases h
    rcases generateInsn_eq_ok hhead with hemit | ⟨idx, call, entry, rfl, hplan, rfl⟩
    · exact .plain hemit (ih hrest)
    · exact .send hplan trivial (ih hrest)

/-- Generated code is listed, whatever way the entries of callees are found. -/
theorem generate_listed (h : (generate resolve p method s).1 = .ok code) :
    Listed p method (fun _ _ => True) method.sweep.insns 0 code := by
  rw [generate_eq] at h
  obtain ⟨listed, hlisted, hjudged⟩ := andThen_eq_ok h
  simp only [judged] at hjudged
  split at hjudged
  · cases hjudged
  split at hjudged
  · cases hjudged
    exact generateInsns_listed hlisted
  · cases hjudged

/-! ### Requests -/

/-- Code that is generated is encoded, so a request never fails for want of a form. -/
theorem compile_ne_assembly (hp : p.size ≤ 2 ^ 31) (maxDepth id : Nat) (cause : X86.AsmError) :
    (compile p maxDepth id s).1 ≠ .error (.assembly cause) := by
  intro h
  cases compile_refused maxDepth h with
  | @placement _ _ _ _ code hg he =>
    cases he with
    | @assembly addr _ hencode =>
      obtain ⟨bytes, hbytes⟩ := (generate_listed hg).encodes hp (Nat.zero_le _) addr
      rw [hencode] at hbytes
      cases hbytes
  | insn _ _ _ _ _ he =>
    rcases Template.emit_error he with h | h | ⟨_, h⟩ | h
    · cases h
    · cases h
    · cases h
    · cases h
  | send _ _ _ _ he => cases Template.Call.plan_eq_error.1 he

end Compiler

/-- What holds of all generated code. -/
structure Disciplined (code : Assembly) : Prop where
  encodes : ∀ addr, ∃ bytes, code.encode addr = .ok bytes
  legal : ∀ i ∈ code, i.legal = true
  narrow : ∀ i ∈ code, ∀ value, i.narrow? = some value → -0x80000000 ≤ value.toInt ∧ value.toInt < 0x80000000
  compares : ∀ index dst src, code[index]? = some (.alu .cmp dst src) →
    ∃ dst src, code[index + 1]? = some (.cmovl dst src)
  uses : ∀ i ∈ code, ∀ r, r ∈ i.reads ∨ r ∈ i.writes → r ∈ registers ∨ r = .rsp ∧ i.usesStack = true
  /-- The stack pointer is not an operand either. -/
  stackPointer : ∀ i ∈ code, ∀ o ∈ i.operands, Reg.rsp ∉ o.regs
  context_kept : ∀ i ∈ code, context ∉ i.writes ∧
    ∀ m m', Machine.step m i = .ok m' → m'.regs.get context = m.regs.get context
  /-- At every return all registers that were saved are restored, in the opposite order. -/
  returns : ∀ before after, code = before ++ .ret :: after → Assembly.saved [] before = some []

/-- The code of a method can be encoded wherever it is placed, and it keeps to the registers and the native stack.  So
no request fails because code cannot be encoded. -/
theorem Compiler.generate_disciplined {p : Program} (hp : p.size ≤ 2 ^ 31) :
    (∀ resolve method s code, (generate resolve p method s).1 = .ok code → Disciplined code) ∧
      ∀ (j : Jit) es id cause, (j.compile p es id).result ≠ .error (.assembly cause) := by
  refine ⟨fun resolve method s code hcode => ?_, fun j es id cause h => ?_⟩
  · have hlisted := generate_listed hcode
    have hencodes := hlisted.encodes hp (Nat.zero_le _)
    have hconforms := hlisted.conforms
    obtain ⟨bytes, hbytes⟩ := hencodes 0
    obtain ⟨hsound, hused⟩ := X86.Assembly.sound_of_encode hbytes
    refine ⟨hencodes, fun i hi => X86.Insn.legal_of_not_faulty (hsound i hi), fun i hi value hv =>
      X86.Insn.narrow_of_not_faulty (hsound i hi) hv, fun index dst src hcompare => ?_,
      fun i hi r hr => (hconforms i hi).uses hr, fun i hi => (hconforms i hi).rsp_not_mem, fun i hi => ?_,
      fun before after heq => (heq ▸ hlisted.balanced).saved_before_ret⟩
    · by_contra hunused
      exact hused index ⟨⟨dst, src, hcompare⟩, fun dst' src' hmove => hunused ⟨dst', src', hmove⟩⟩
    · have hcontext := (hconforms i hi).context
      exact ⟨hcontext, fun m m' hstep => Machine.step_get hstep hcontext⟩
  · rw [(j.compile_eq p es id).1] at h
    exact compile_ne_assembly hp _ _ _ h

/-- Method 1 compares what method 0 returns with a number of more than 32 bits. -/
def compareProgram : Program :=
  ⟨#[((Draft.empty.insn .putSelf).insn .leave).method "same" 0,
    (((((Draft.empty.insn .putSelf).send ⟨0, 0⟩).insn (.putObject (.ofInt 0x100000000))).insn .less).insn .leave).method
      "below" 0]⟩

/-- The callee is out of reach of a near call. -/
theorem Compiler.generate_disciplined_compareProgram :
    compareProgram.size ≤ 2 ^ 31 ∧ ∃ j notices method code,
      Jit.new (.lending 0x10000 0x1000000) .default = .ok (j, notices) ∧ compareProgram.method? 1 = some method ∧
      (generate (fun _ s => (.ok ⟨0xFFFFFFFFFFFFF000⟩, s)) compareProgram method ⟨j.block, .empty, []⟩).1 = .ok code ∧
      Disciplined code ∧ ∀ cause, (j.compile compareProgram .empty 1).result ≠ .error (.assembly cause) := by
  have hsize : compareProgram.size ≤ 2 ^ 31 := by decide
  obtain ⟨hdisciplined, hassembles⟩ := generate_disciplined hsize
  obtain ⟨j, notices, method, hj, hmethod, hok⟩ : ∃ j notices method,
      Jit.new (.lending 0x10000 0x1000000) .default = .ok (j, notices) ∧ compareProgram.method? 1 = some method ∧
      (generate (fun _ s => (.ok ⟨0xFFFFFFFFFFFFF000⟩, s)) compareProgram method ⟨j.block, .empty, []⟩).1.isOk = true :=
    ⟨_, _, _, rfl, rfl, by decide +kernel⟩
  cases hcode : (generate (fun _ s => (.ok ⟨0xFFFFFFFFFFFFF000⟩, s)) compareProgram method ⟨j.block, .empty, []⟩).1 with
  | error e =>
    rw [hcode] at hok
    cases hok
  | ok code => exact ⟨hsize, j, notices, method, code, hj, hmethod, hcode, hdisciplined _ _ _ _ hcode, hassembles _ _ _⟩

end Native

end StackMachine
