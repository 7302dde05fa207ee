import Mathlib
import StackMachine.Native.Template

/-!
# Templates that are emitted

`emit` checks an instruction and writes its template in one go.  `Emits` says for each kind of instruction what it needs
and what its template is, and `emit_eq_ok` that this is what `emit` does.

* `literal?` and `combine?` name the instructions that differ only in a value or in how two registers are combined.
* `Emits.eq_ret_of_usesStack`: a template uses the native stack only to return.
* `exists_slot`, `exists_peek`: a register is there as long as the operand stack has room or is high enough.
-/

namespace StackMachine

/-- The instruction works on the native stack. -/
def X86.Insn.usesStack : X86.Insn → Bool
  | push _ | pop _ | call _ | ret => true
  | _ => false

namespace Native.Template

open X86 (Reg Assembly)

variable {m : Method} {pc height : Nat} {i : Insn} {e : Emitted}

/-! ### Registers of the operand stack -/

theorem exists_slot {n : Nat} : (∃ r, slots[n]? = some r) ↔ n < slots.length := by
  constructor
  · rintro ⟨r, hr⟩
    exact (List.getElem?_eq_some_iff.1 hr).1
  · intro hn
    exact ⟨_, List.getElem?_eq_getElem hn⟩

theorem exists_peek {height depth : Nat} (hh : height ≤ slots.length) :
    (∃ r, peek? height depth = some r) ↔ depth + 1 ≤ height := by
  unfold peek?
  by_cases hd : depth + 1 ≤ height
  · rw [if_pos hd, exists_slot]
    exact iff_of_true (by omega) hd
  · rw [if_neg hd]
    exact iff_of_false (by simp) hd

/-- A local that is there has a displacement that 32 bits can hold. -/
theorem localDisp?_eq_some {idx : UInt64} {disp : Int32} :
    localDisp? m idx = some disp ↔ (1 ≤ idx.toNat ∧ idx.toNat ≤ m.locals ∧ idx.toNat * Layout.wordSize ≤ 0x80000000) ∧
      Int32.ofInt (-(idx.toNat * Layout.wordSize : Int)) = disp := by
  unfold localDisp?
  split
  · rename_i hidx
    rw [Option.some.injEq]
    exact ⟨fun h => ⟨hidx, h⟩, fun h => h.2⟩
  · rename_i hidx
    exact ⟨nofun, fun h => absurd h.1 hidx⟩

/-! ### Instructions of one kind -/

/-- The value that an instruction pushes whatever the state is. -/
def literal? : Insn → Option Value
  | .putNil => some .nil
  | .putObject v => some v
  | .putZero => some (.ofInt 0)
  | .putOne => some (.ofInt 1)
  | _ => none

/-- The code that an instruction combines two registers by. -/
def combine? : Insn → Option (Reg → Reg → Assembly)
  | .plus => some plus
  | .minus => some minus
  | .less => some less
  | _ => none

theorem pushed_eq_ok {code : Reg → Assembly} (h : pushed m pc height code = .ok e) :
    ∃ dst, slots[height]? = some dst ∧ e = ⟨code dst, height + 1⟩ := by
  unfold pushed at h
  split at h
  · rename_i dst hs
    cases h
    exact ⟨dst, hs, rfl⟩
  · cases h

theorem combined_eq_ok {op : Opcode} {code : Reg → Reg → Assembly} (h : combined m pc height op code = .ok e) :
    ∃ left right, peek? height 1 = some left ∧ peek? height 0 = some right ∧ e = ⟨code left right, height - 1⟩ := by
  unfold combined at h
  split at h
  · rename_i left right hl hr
    cases h
    exact ⟨left, right, hl, hr, rfl⟩
  · cases h

/-! ### Emission -/

/-- What an instruction that is not a call needs on an operand stack of that height, and its template. -/
inductive Emits (m : Method) (height : Nat) : Insn → Emitted → Prop where
  | nop : Emits m height .nop ⟨[], height⟩
  | pop (h : 0 < height) : Emits m height .pop ⟨[], height - 1⟩
  | getLocal {idx disp dst} (hd : localDisp? m idx = some disp) (hs : slots[height]? = some dst) :
      Emits m height (.getLocal idx)
        ⟨[.mov (.reg scratch) (frameField Layout.ep), .mov (.reg dst) (.mem scratch disp)], height + 1⟩
  | putSelf {dst} (hs : slots[height]? = some dst) :
      Emits m height .putSelf ⟨[.mov (.reg dst) (frameField Layout.self)], height + 1⟩
  | literal {i v dst} (hi : literal? i = some v) (hs : slots[height]? = some dst) :
      Emits m height i ⟨[.mov (.reg dst) (word v)], height + 1⟩
  | dup {src dst} (hp : peek? height 0 = some src) (hs : slots[height]? = some dst) :
      Emits m height .dup ⟨[.mov (.reg dst) (.reg src)], height + 1⟩
  | combine {i code left right} (hi : combine? i = some code) (hl : peek? height 1 = some left)
      (hr : peek? height 0 = some right) : Emits m height i ⟨code left right, height - 1⟩
  | leave {top} (hp : peek? height 0 = some top) : Emits m height .leave ⟨leave top, height - 1⟩

private theorem emits_of_emit (h : emit m pc height i = .ok e) : Emits m height i e := by
  cases i with
  | nop =>
    cases h
    exact .nop
  | getLocal idx =>
    simp only [emit] at h
    split at h
    · cases h
    rename_i disp hd
    obtain ⟨dst, hs, rfl⟩ := pushed_eq_ok h
    exact .getLocal hd hs
  | putSelf =>
    obtain ⟨dst, hs, rfl⟩ := pushed_eq_ok h
    exact .putSelf hs
  | putNil | putObject | putZero | putOne =>
    obtain ⟨dst, hs, rfl⟩ := pushed_eq_ok h
    exact .literal rfl hs
  | dup =>
    simp only [emit] at h
    split at h
    · cases h
    rename_i src hp
    obtain ⟨dst, hs, rfl⟩ := pushed_eq_ok h
    exact .dup hp hs
  | pop =>
    simp only [emit] at h
    split at h
    · cases h
    cases h
    exact .pop (by omega)
  | plus | minus | less =>
    obtain ⟨left, right, hl, hr, rfl⟩ := combined_eq_ok h
    exact .combine rfl hl hr
  | leave =>
    simp only [emit] at h
    split at h
    · cases h
    rename_i top hp
    cases h
    exact .leave hp
  | setLocal | mult | jump | branchIf | send => cases h

private theorem emit_of_emits (h : Emits m height i e) : emit m pc height i = .ok e := by
  cases h with
  | nop => rfl
  | pop h => simp only [emit, if_neg (Nat.pos_iff_ne_zero.1 h)]
  | getLocal hd hs => simp only [emit, hd, pushed, hs]
  | putSelf hs => simp only [emit, pushed, hs]
  | literal hi hs =>
    cases i with
    | putNil | putObject | putZero | putOne =>
      cases hi
      simp only [emit, pushed, hs]
    | _ => cases hi
  | dup hp hs => simp only [emit, hp, pushed, hs]
  | combine hi hl hr =>
    cases i with
    | plus | minus | less =>
      cases hi
      simp only [emit, combined, hl, hr]
    | _ => cases hi
  | leave hp => simp only [emit, hp]

theorem emit_eq_ok : emit m pc height i = .ok e ↔ Emits m height i e := ⟨emits_of_emit, emit_of_emits⟩

theorem Emits.height_le (h : Emits m height i e) (hh : height ≤ slots.length) : e.height ≤ slots.length := by
  cases h with
  | getLocal _ hs | putSelf hs | literal _ hs | dup _ hs => exact exists_slot.1 ⟨_, hs⟩
  | nop => exact hh
  | pop | combine | leave => exact (Nat.sub_le _ _).trans hh

/-- Only call sites save registers and call. -/
theorem Emits.eq_ret_of_usesStack (h : Emits m height i e) : ∀ x ∈ e.code, x.usesStack = true → x = .ret := by
  cases h with
  | combine hi _ _ =>
    cases i with
    | plus | minus | less =>
      cases hi
      simp [plus, minus, less, X86.Insn.usesStack]
    | _ => cases hi
  | _ => simp [Template.leave, X86.Insn.usesStack]

theorem Emits.call_not_mem (h : Emits m height i e) (target : X86.Operand) : X86.Insn.call target ∉ e.code := by
  intro hmem
  cases h.eq_ret_of_usesStack _ hmem rfl

end Native.Template

end StackMachine
