import Mathlib
import StackMachine.Proofs.CodeSize
import StackMachine.Proofs.Compilation

/-!
# Well-formed methods

What a method must be like for code to be generated for it, said without the compiler: its stream decodes and ends with
`leave`, has only instructions that there are templates for, with operands that exist, and keeps the operand stack
between what each instruction needs and four values.

* `Method.needs`, `Method.heightAfter`: what an instruction does to the height of the operand stack.
* `Program.Admits`: the instructions that there are templates for, with their operands.
* `Emits.admits`, `exists_emits` and `Call.admits_of_plan`, `Call.exists_plan`: that is what the compiler checks, one
  instruction at a time.  `Generated.wellFormed`: code is generated for well-formed methods only.
-/

namespace StackMachine

namespace Method

/-- How many values an instruction takes for granted on the operand stack. -/
def needs (m : Method) : Insn → Nat
  | .dup | .pop | .leave => 1
  | .plus | .minus | .less => 2
  | .send idx => m.argc idx + 1
  | _ => 0

/-- The height of the operand stack after an instruction.  The result of a call replaces its receiver. -/
def heightAfter (m : Method) (height : Nat) : Insn → Nat
  | .getLocal _ | .putNil | .putSelf | .putObject _ | .putZero | .putOne | .dup => height + 1
  | .pop | .plus | .minus | .less | .leave => height - 1
  | .send idx => height - m.argc idx
  | _ => height

/-- From that height on, every instruction finds what it needs and leaves at most four values. -/
def Balanced (m : Method) : List (Nat × Insn) → Nat → Prop
  | [], _ => True
  | (_, i) :: rest, height =>
    m.needs i ≤ height ∧ m.heightAfter height i ≤ 4 ∧ m.Balanced rest (m.heightAfter height i)

end Method

/-- There is a template for the instruction, and its operand exists. -/
def Program.Admits (p : Program) (m : Method) : Insn → Prop
  | .getLocal idx => 1 ≤ idx.toNat ∧ idx.toNat ≤ min m.locals (2 ^ 28)
  | .send idx => ∃ site callee, m.site? idx = some site ∧ p.method? site.callee = some callee ∧
      site.argc.toNat = callee.locals
  | .setLocal _ | .mult | .jump _ | .branchIf _ => False
  | _ => True

structure Method.WellFormed (p : Program) (m : Method) : Prop where
  decodes : m.sweep.error = none
  returns : ∃ pc, m.sweep.insns.getLast? = some (pc, .leave)
  admitted : ∀ pc i, (pc, i) ∈ m.sweep.insns → p.Admits m i
  balanced : m.Balanced m.sweep.insns 0

namespace Native

open X86 (Assembly)

namespace Template

variable {p : Program} {m : Method} {pc height : Nat} {i : Insn} {idx : UInt64}

/-! ### One instruction -/

theorem Emits.admits {e : Emitted} (h : Emits m height i e) (hh : height ≤ 4) :
    p.Admits m i ∧ m.needs i ≤ height ∧ e.height = m.heightAfter height i := by
  have hpeek : ∀ {depth r}, peek? height depth = some r → depth + 1 ≤ height := fun hr => (exists_peek hh).1 ⟨_, hr⟩
  cases h with
  | nop => exact ⟨trivial, Nat.zero_le _, rfl⟩
  | pop h => exact ⟨trivial, h, rfl⟩
  | getLocal hd hs =>
    obtain ⟨⟨hpos, hlocals, hdisp⟩, _⟩ := localDisp?_eq_some.1 hd
    refine ⟨⟨hpos, le_min hlocals ?_⟩, Nat.zero_le _, rfl⟩
    simp only [Layout.wordSize] at hdisp
    omega
  | putSelf => exact ⟨trivial, Nat.zero_le _, rfl⟩
  | literal hi =>
    cases i with
    | putNil | putObject | putZero | putOne => exact ⟨trivial, Nat.zero_le _, rfl⟩
    | _ => cases hi
  | dup hp => exact ⟨trivial, hpeek hp, rfl⟩
  | combine hi hl hr =>
    cases i with
    | plus | minus | less => exact ⟨trivial, hpeek hl, rfl⟩
    | _ => cases hi
  | leave hp => exact ⟨trivial, hpeek hp, rfl⟩

theorem exists_emits (ha : p.Admits m i) (hi : ∀ idx, i ≠ .send idx) (hh : height ≤ 4) (hneeds : m.needs i ≤ height)
    (hafter : m.heightAfter height i ≤ 4) : ∃ e, Emits m height i e := by
  have hslot : height + 1 ≤ 4 → ∃ dst, slots[height]? = some dst := fun h => exists_slot.2 h
  have hpeek : ∀ depth, depth + 1 ≤ height → ∃ r, peek? height depth = some r := fun depth => (exists_peek hh).2
  cases i with
  | nop => exact ⟨_, .nop⟩
  | pop => exact ⟨_, .pop hneeds⟩
  | getLocal idx =>
    obtain ⟨hpos, hle⟩ := ha
    rw [le_min_iff] at hle
    obtain ⟨dst, hs⟩ := hslot hafter
    have hdisp : idx.toNat * Layout.wordSize ≤ 0x80000000 := by
      simp only [Layout.wordSize]
      omega
    exact ⟨_, .getLocal (localDisp?_eq_some.2 ⟨⟨hpos, hle.1, hdisp⟩, rfl⟩) hs⟩
  | putSelf =>
    obtain ⟨dst, hs⟩ := hslot hafter
    exact ⟨_, .putSelf hs⟩
  | putNil | putObject | putZero | putOne =>
    obtain ⟨dst, hs⟩ := hslot hafter
    exact ⟨_, .literal rfl hs⟩
  | dup =>
    obtain ⟨src, hp⟩ := hpeek 0 hneeds
    obtain ⟨dst, hs⟩ := hslot hafter
    exact ⟨_, .dup hp hs⟩
  | plus | minus | less =>
    obtain ⟨left, hl⟩ := hpeek 1 hneeds
    obtain ⟨right, hr⟩ := hpeek 0 (Nat.le_of_succ_le hneeds)
    exact ⟨_, .combine rfl hl hr⟩
  | leave =>
    obtain ⟨top, hp⟩ := hpeek 0 hneeds
    exact ⟨_, .leave hp⟩
  | send idx => exact absurd rfl (hi idx)
  | setLocal | mult | jump | branchIf => cases ha

namespace Call

theorem admits_of_plan {c : Call} (hp : plan p m pc height idx = .ok c) (hh : height ≤ 4) :
    p.Admits m (.send idx) ∧ m.needs (.send idx) ≤ height ∧
      height - c.args.length = m.heightAfter height (.send idx) := by
  obtain ⟨hargs, hneeds⟩ := length_args hp hh
  obtain ⟨site, callee, _, hsite, hcallee, harity, _⟩ := plan_eq_ok.1 hp
  exact ⟨⟨site, callee, hsite, hcallee, harity⟩, hneeds, by rw [hargs]; rfl⟩

theorem exists_plan (ha : p.Admits m (.send idx)) (pc : Nat) (hh : height ≤ 4) (hneeds : m.needs (.send idx) ≤ height) :
    ∃ c, plan p m pc height idx = .ok c := by
  obtain ⟨site, callee, hsite, hcallee, harity⟩ := ha
  have hargc : m.argc idx = site.argc.toNat := by simp [Method.argc, hsite]
  simp only [Method.needs, hargc] at hneeds
  obtain ⟨receiver, hreceiver⟩ := (exists_peek hh).2 hneeds
  have hcount : site.argc.toNat + 1 ≠ UInt64.size := by
    simp only [UInt64.size]
    omega
  exact ⟨_, plan_eq_ok.2 ⟨site, callee, receiver, hsite, hcallee, harity, hcount, hreceiver, rfl⟩⟩

end Call

end Template

/-! ### Whole methods -/

private theorem Listed.admits {p : Program} {method : Method} {target : Nat → CodePtr → Prop}
    {insns : List (Nat × Insn)} {height : Nat} {code : Assembly} (h : Listed p method target insns height code)
    (hh : height ≤ 4) :
    (∀ pc i, (pc, i) ∈ insns → p.Admits method i) ∧ method.Balanced insns height := by
  induction h with
  | nil => exact ⟨nofun, trivial⟩
  | @plain pc i rest height e code he _ ih =>
    have hemits := Template.emit_eq_ok.1 he
    obtain ⟨hadmits, hneeds, hafter⟩ := hemits.admits hh
    have hle := hemits.height_le hh
    obtain ⟨hrest, hbalanced⟩ := ih hle
    refine ⟨fun pc' i' hmem => ?_, hneeds, hafter ▸ hle, hafter ▸ hbalanced⟩
    rcases List.mem_cons.1 hmem with heq | hmem
    · cases heq
      exact hadmits
    · exact hrest pc' i' hmem
  | @send pc idx rest height c entry code hp _ _ ih =>
    obtain ⟨hadmits, hneeds, hafter⟩ := Template.Call.admits_of_plan hp hh
    have hle : height - c.args.length ≤ 4 := (Nat.sub_le _ _).trans hh
    obtain ⟨hrest, hbalanced⟩ := ih hle
    refine ⟨fun pc' i' hmem => ?_, hneeds, hafter ▸ hle, hafter ▸ hbalanced⟩
    rcases List.mem_cons.1 hmem with heq | hmem
    · cases heq
      exact hadmits
    · exact hrest pc' i' hmem

theorem Generated.wellFormed {p : Program} {method : Method} {target : Nat → CodePtr → Prop} {code : Assembly}
    (h : Generated p method target code) : method.WellFormed p := by
  obtain ⟨hadmitted, hbalanced⟩ := h.listed.admits (Nat.zero_le _)
  exact ⟨h.decodes, h.returns, hadmitted, hbalanced⟩

end Native

end StackMachine
