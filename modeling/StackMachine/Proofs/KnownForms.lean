import Mathlib
import StackMachine.Proofs.Decoding
import StackMachine.Proofs.Tilings

/-!
# What a disassembly knows

A disassembly shows the instruction forms in all the ways of writing them (`Form.Spelled`), and nothing else.  `Shown`
is what it looks like: bytes that spell a form have the line of that form, and a byte at which no form is spelled has a
`.byte` line.

* `disassembleFrom_shown`: a disassembly is of this kind, whatever the bytes are.
* `Shown.unique`: for given bytes there is only one.
* `disassemble_exactly_shown`: the two together.

A form has more spellings than its own bytes, so a line does not always stand for bytes of a form.  The first bytes of
`redundant_bytes_shown` have a REX byte that says nothing; the second are shown as `[rbp]` although a processor takes
an absolute address from the next four bytes.
-/

namespace StackMachine.X86

/-! ### Lines of forms -/

/-- The text of operands of an instruction that ends at the address `stop`. -/
def Operands.text (stop : Nat) : Operands → String
  | listed ops => Operand.listText ops
  | relative offset => Hex.ofWord (UInt64.ofNat stop + offset.toUInt64)

/-- The line of a form that takes `size` bytes. -/
def Form.line (f : Form) (address size : Nat) : Line :=
  ⟨address, size, f.decoded.mnemonic, f.decoded.operands.text (address + size)⟩

theorem Form.line_of_ofDecoded {f : Form} {address size : Nat} {l : Line}
    (h : Line.ofDecoded address size f.decoded = .ok l) : l = f.line address size := by
  unfold Line.ofDecoded at h
  unfold line
  cases hops : f.decoded.operands with
  | listed ops =>
    rw [hops] at h
    cases h
    rfl
  | relative offset =>
    rw [hops] at h
    simp only at h
    split at h
    · cases h
      rfl
    · cases h

theorem Form.Spelled.ne_nil {f : Form} {own : List UInt8} (h : f.Spelled own) : own ≠ [] := by
  rintro rfl
  have hread := Decoded.ofBytes?_eq_some.2 ⟨f, [], h, rfl, (List.nil_append []).symm⟩
  cases hread

/-! ### Disassemblies -/

/-- Lines for bytes that lie from the address on. -/
inductive Shown : Nat → List UInt8 → List Line → Prop where
  | nil (address : Nat) : Shown address [] []
  | insn {address : Nat} {f : Form} {own code : List UInt8} {lines : List Line} (spelled : f.Spelled own)
      (rest : Shown (address + own.length) code lines) :
      Shown address (own ++ code) (f.line address own.length :: lines)
  | byte {address : Nat} {b : UInt8} {code : List UInt8} {lines : List Line}
      (unknown : ∀ (f : Form) (own : List UInt8), f.Spelled own → ¬own <+: b :: code)
      (rest : Shown (address + 1) code lines) : Shown address (b :: code) (.ofByte address b :: lines)

/-- What the first line of a disassembly is, and that the rest is a disassembly. -/
private theorem disassembleFrom_eq_ok {address : Nat} {b : UInt8} {code : List UInt8} {lines : List Line}
    (h : disassembleFrom address (b :: code) = .ok lines) :
    ∃ l rest, Line.first address b code = .ok l ∧ lines = l :: rest ∧
      disassembleFrom (address + (l.size - 1) + 1) (code.drop (l.size - 1)) = .ok rest := by
  rw [disassembleFrom] at h
  split at h
  · split at h
    · cases h
    · rename_i l hl
      split at h
      · cases h
      · rename_i rest hrest
        cases h
        exact ⟨l, rest, hl, rfl, hrest⟩
  · cases h

/-- Induction on the bytes that are left. -/
theorem disassembleFrom_shown {address : Nat} {code : List UInt8} {lines : List Line}
    (h : disassembleFrom address code = .ok lines) : Shown address code lines := by
  induction hn : code.length using Nat.strong_induction_on generalizing address code lines with
  | _ n ih =>
    subst hn
    cases code with
    | nil =>
      rw [disassembleFrom] at h
      cases h
      exact .nil address
    | cons b code =>
      obtain ⟨l, rest, hfirst, rfl, hrest⟩ := disassembleFrom_eq_ok h
      unfold Line.first at hfirst
      cases hread : Decoded.ofBytes? (b :: code) with
      | none =>
        rw [hread] at hfirst
        cases hfirst
        have hcode : code.length < (b :: code).length := by simp
        refine .byte ?_ (ih code.length hcode hrest rfl)
        rintro f own hspelled ⟨more, hmore⟩
        rw [Decoded.ofBytes?_eq_some.2 ⟨f, own, hspelled, rfl, hmore.symm⟩] at hread
        cases hread
      | some r =>
        obtain ⟨d, more⟩ := r
        obtain ⟨f, own, hspelled, rfl, hcode⟩ := Decoded.ofBytes?_eq_some.1 hread
        obtain ⟨b', own, rfl⟩ := List.exists_cons_of_ne_nil hspelled.ne_nil
        obtain ⟨rfl, rfl⟩ : b = b' ∧ code = own ++ more := List.cons.inj hcode
        have hsize : (own ++ more).length + 1 - more.length = own.length + 1 := by
          rw [List.length_append]
          omega
        rw [hread] at hfirst
        simp only [hsize] at hfirst
        obtain rfl := Form.line_of_ofDecoded hfirst
        simp only [Form.line, Nat.add_sub_cancel, List.drop_left] at hrest
        have hmore : more.length < (b :: (own ++ more)).length := by
          simp only [List.length_cons, List.length_append]
          omega
        exact Shown.insn hspelled (ih more.length hmore hrest rfl)

/-- A form is told from its bytes, so there is no choice. -/
theorem Shown.unique {address : Nat} {code : List UInt8} {lines lines' : List Line} (h : Shown address code lines)
    (h' : Shown address code lines') : lines = lines' := by
  induction h generalizing lines' with
  | nil address =>
    generalize hcode : [] = code at h'
    cases h' with
    | nil => rfl
    | insn spelled => exact absurd (List.append_eq_nil_iff.1 hcode.symm).1 spelled.ne_nil
    | byte => cases hcode
  | @insn address f own code lines spelled _ ih =>
    have hread := Decoded.ofBytes?_eq_some.2 ⟨f, own, spelled, rfl, (rfl : own ++ code = own ++ code)⟩
    generalize hcode : own ++ code = bytes at h' hread
    cases h' with
    | nil => exact absurd (List.append_eq_nil_iff.1 hcode).1 spelled.ne_nil
    | @insn _ f' own' code' lines' spelled' rest' =>
      have hread' := Decoded.ofBytes?_eq_some.2 ⟨f', own', spelled', rfl, (rfl : own' ++ code' = own' ++ code')⟩
      obtain ⟨hdecoded, rfl⟩ : f.decoded = f'.decoded ∧ code = code' := by
        simpa using hread.symm.trans hread'
      obtain rfl : own = own' := List.append_cancel_right hcode
      rw [ih rest', Form.line, Form.line, hdecoded]
    | byte unknown => exact absurd ⟨code, hcode⟩ (unknown f own spelled)
  | @byte address b code lines unknown _ ih =>
    generalize hcode : b :: code = bytes at h'
    cases h' with
    | nil => cases hcode
    | @insn _ f' own' code' lines' spelled' => exact absurd ⟨code', hcode.symm⟩ (unknown f' own' spelled')
    | byte _ rest' =>
      cases hcode
      rw [ih rest']

/-- The disassembly of any bytes shows the forms that are spelled there, one after the other, and every other byte by
itself.  It exists if the bytes end within the address space, and the bytes of a form are one of its spellings. -/
theorem disassemble_exactly_shown (code : List UInt8) (address : UInt64) :
    (∀ lines, disassemble code address = .ok lines → ∀ lines', Shown address.toNat code lines' ↔ lines' = lines) ∧
      (address.toNat + code.length < UInt64.size → ∃ lines, disassemble code address = .ok lines) ∧
      ∀ f : Form, f.Spelled f.bytes := by
  refine ⟨?_, ?_, Form.spelled_bytes⟩
  · intro lines hlines lines'
    have hshown := disassembleFrom_shown hlines
    constructor
    · intro h
      exact h.unique hshown
    · rintro rfl
      exact hshown
  · intro hend
    obtain ⟨lines, hlines, _⟩ := disassembleFrom_tiling hend
    exact ⟨lines, hlines⟩

/-- A return with a REX byte, and the same byte with nothing after it. -/
theorem disassemble_exactly_shown_prefixedReturn :
    disassemble [0x48, 0xC3, 0x48] 0x1000 = .ok [⟨0x1000, 2, "ret", ""⟩, ⟨0x1002, 1, ".byte", "0x48"⟩] ∧
      Shown 0x1000 [0x48, 0xC3, 0x48] [⟨0x1000, 2, "ret", ""⟩, ⟨0x1002, 1, ".byte", "0x48"⟩] ∧
      (0x1000 : UInt64).toNat + [0x48, 0xC3, (0x48 : UInt8)].length < UInt64.size ∧
      ∃ lines, disassemble [0x48, 0xC3, 0x48] 0x1000 = .ok lines := by
  obtain ⟨hshown, hexists, _⟩ := disassemble_exactly_shown [0x48, 0xC3, 0x48] 0x1000
  have hlines : disassemble [0x48, 0xC3, 0x48] 0x1000 =
      .ok [⟨0x1000, 2, "ret", ""⟩, ⟨0x1002, 1, ".byte", "0x48"⟩] := by decide +kernel
  have hend : (0x1000 : UInt64).toNat + [0x48, 0xC3, (0x48 : UInt8)].length < UInt64.size := by decide
  exact ⟨hlines, (hshown _ hlines _).2 rfl, hend, hexists hend⟩

/-! ### Bytes of no form -/

/-- What is read off the bytes of a form tells whose they are. -/
private theorem decoded_of_bytes_eq {f : Form} {own : List UInt8} {d : Decoded} (hf : f.bytes = own)
    (h : Decoded.ofBytes? own = some (d, [])) : f.decoded = d := by
  have hread := Decoded.ofBytes?_bytes f []
  rw [List.append_nil, hf, h] at hread
  cases hread
  rfl

private theorem eq_ret {f : Form} (h : f.decoded = ⟨"ret", .listed []⟩) : f = .ret := by
  have hops := congrArg Decoded.operands h
  cases f with
  | ret => rfl
  | _ => cases hops

private theorem eq_movRM {f : Form} {dst base : Reg} {disp : Int32}
    (h : f.decoded = .binary "mov" (.reg dst) (.mem base disp)) : f = .movRM dst base disp := by
  have hops := congrArg Decoded.operands h
  cases f with
  | movRM => cases hops; rfl
  -- the other forms with such operands have other names
  | aluRM op => cases op <;> simp [Form.decoded, Decoded.binary, AluOp.mnemonic] at h
  | cmovRM cond => cases cond <;> simp [Form.decoded, Decoded.binary, Cond.suffix] at h
  | _ => cases hops

/-- Two instructions that are shown although their bytes are those of no form: a return with a REX byte, and a load
with a SIB byte for `[rbp]`. -/
theorem redundant_bytes_shown :
    (disassemble [0x48, 0xC3] 0x1000 = .ok [⟨0x1000, 2, "ret", ""⟩] ∧ ∀ f : Form, f.bytes ≠ [0x48, 0xC3]) ∧
      disassemble [0x48, 0x8B, 0x04, 0x25] 0x1000 = .ok [⟨0x1000, 4, "mov", "rax, [rbp]"⟩] ∧
      ∀ f : Form, f.bytes ≠ [0x48, 0x8B, 0x04, 0x25] := by
  refine ⟨⟨by decide +kernel, ?_⟩, by decide +kernel, ?_⟩
  · intro f hf
    obtain rfl := eq_ret (decoded_of_bytes_eq hf rfl)
    cases hf
  · intro f hf
    obtain rfl := eq_movRM (decoded_of_bytes_eq hf rfl)
    cases hf

end StackMachine.X86
