import Mathlib
import StackMachine.Proofs.Results
import StackMachine.X86.Assembly

/-!
# Encodings

An assembly is encoded instruction by instruction: `encodeFrom_cons` takes the first one off.  No form is encoded as no
bytes at all, so an assembly that is not empty takes up space.
-/

namespace StackMachine.X86

/-- The numbers that fit in 32 bits. -/
theorem int32?_isSome (n : Int) : (Word.int32? n).isSome ↔ -0x80000000 ≤ n ∧ n < 0x80000000 := by
  have hmin : Int32.minValue.toInt = -0x80000000 := rfl
  have hmax : Int32.maxValue.toInt = 0x7FFFFFFF := rfl
  unfold Word.int32?
  rw [hmin, hmax]
  split
  · simp only [Option.isSome_some, true_iff]
    omega
  · simp only [Option.isSome_none, Bool.false_eq_true, false_iff]
    omega

/-- The address further on, if there is one. -/
theorem toNat_add_ofNat {here : UInt64} {n : Nat} (h : here.toNat + n < UInt64.size) :
    (here + UInt64.ofNat n).toNat = here.toNat + n := by
  rw [UInt64.toNat_add, UInt64.toNat_ofNat_of_lt' (show n < UInt64.size by omega)]
  exact Nat.mod_eq_of_lt h

theorem Form.bytes_ne_nil (f : Form) : f.bytes ≠ [] := by
  cases f <;> simp [bytes]

theorem Insn.forms_ne_nil {i : Insn} {here : UInt64} {fs : List Form} (h : i.forms here = .ok fs) : fs ≠ [] := by
  cases i with
  | mov dst src | alu op dst src | cmovl dst src =>
    obtain ⟨f, _, rfl⟩ := map_eq_ok h
    simp
  | push r | pop r | ret =>
    cases h
    simp
  | call target =>
    cases h
    cases target with
    | imm addr =>
      simp only [callForms]
      split <;> simp
    | _ => simp [callForms]

namespace Assembly

variable {index : Nat} {here : UInt64} {i : Insn} {rest : Assembly} {code : List UInt8}

/-- The first instruction and the rest, which starts where the first one ends. -/
theorem encodeFrom_cons (h : encodeFrom index here (i :: rest) = .ok code) :
    ∃ fs more, i.forms here = .ok fs ∧
      encodeFrom (index + 1) (here + UInt64.ofNat (fs.flatMap Form.bytes).length) rest = .ok more ∧
      code = fs.flatMap Form.bytes ++ more := by
  rw [encodeFrom] at h
  split at h
  · cases h
  split at h
  · cases h
  rename_i front hfront
  split at h
  · cases h
  rename_i more hmore
  obtain ⟨fs, hfs, rfl⟩ := map_eq_ok hfront
  exact ⟨fs, more, hfs, hmore, (Except.ok.inj h).symm⟩

theorem encode_ne_nil {asm : Assembly} {target : UInt64} (ha : asm ≠ []) (h : asm.encode target = .ok code) :
    code ≠ [] := by
  match asm, ha with
  | i :: rest, _ =>
    obtain ⟨fs, more, hfs, _, rfl⟩ := encodeFrom_cons h
    match fs, Insn.forms_ne_nil hfs with
    | f :: fs, _ => simp [f.bytes_ne_nil]

end Assembly

end StackMachine.X86
