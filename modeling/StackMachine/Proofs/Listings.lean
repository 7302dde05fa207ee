import Mathlib
import StackMachine.Proofs.Decoding
import StackMachine.Proofs.Encoding

/-!
# Listings of assembled code

`Listing here asm lines` says what the disassembly of an assembly encoded at `here` should look like: one line for each
instruction, with its text and as many bytes as its encoding has, except that a call to an address out of reach is shown
as the two instructions it is made of.

* `Insn.forms_cases`: an instruction is one form that reads as its text, a near call, or the two forms of a far call.
* `disassembleFrom_form`: the bytes of a form give one line.
* `disassemble_encode`: the disassembly of encoded code is a listing of the assembly.
-/

namespace StackMachine.X86

/-! ### What a listing is -/

/-- A line as it reads, without the padding of columns. -/
def Line.text (l : Line) : String :=
  if l.operands.isEmpty then l.mnemonic else l.mnemonic ++ " " ++ l.operands

/-- A line of an instruction, at its address. -/
structure Line.Shows (l : Line) (here : UInt64) (size : Nat) (text : String) : Prop where
  address : l.address = here.toNat
  size : l.size = size
  text : l.text = text
  known : l.mnemonic ≠ ".byte"

/-- How far the address `addr` is from the end of a call of five bytes at `here`. -/
def callDistance (here : UInt64) (addr : Int64) : Int := (addr.toUInt64 - (here + 5)).toInt64.toInt

/-- The target of a call that a 32-bit offset does not reach. -/
def Insn.farTarget? (here : UInt64) : Insn → Option Int64
  | call (.imm addr) =>
    if -0x80000000 ≤ callDistance here addr ∧ callDistance here addr < 0x80000000 then none else some addr
  | _ => none

inductive Listing : UInt64 → Assembly → List Line → Prop where
  | nil (here : UInt64) : Listing here [] []
  | insn {here : UInt64} {i : Insn} {code : List UInt8} {l : Line} {asm : Assembly} {lines : List Line}
      (near : i.farTarget? here = none) (encoded : i.encode here = .ok code) (shown : l.Shows here code.length i.text)
      (rest : Listing (here + UInt64.ofNat code.length) asm lines) : Listing here (i :: asm) (l :: lines)
  | farCall {here : UInt64} {i : Insn} {addr : Int64} {mov call : List UInt8} {l₁ l₂ : Line} {asm : Assembly}
      {lines : List Line} (far : i.farTarget? here = some addr) (encoded : i.encode here = .ok (mov ++ call))
      (first : l₁.Shows here mov.length ("mov rax, " ++ Hex.ofInt64 addr))
      (second : l₂.Shows (here + UInt64.ofNat mov.length) call.length "call rax")
      (rest : Listing (here + UInt64.ofNat (mov ++ call).length) asm lines) :
      Listing here (i :: asm) (l₁ :: l₂ :: lines)

/-! ### Texts -/

private theorem Operand.text_ne_empty (op : Operand) : op.text ≠ "" := by
  cases op with
  | reg r => cases r <;> decide
  | mem base disp =>
    simp only [text]
    split
    · simp
    split <;> simp
  | imm value => simp [text, Hex.ofInt64, Hex.ofWord, Hex.ofNat]

private theorem Operand.isEmpty_listText (ops : List Operand) : (listText ops).isEmpty = ops.isEmpty := by
  match ops with
  | [] => rfl
  | [op] => simp [listText, op.text_ne_empty]
  | op :: next :: rest => simp [listText, op.text_ne_empty]

private theorem Insn.text_line (i : Insn) (address size : Nat) :
    (Line.mk address size i.mnemonic (Operand.listText i.operands)).text = i.text := by
  rw [Line.text, Insn.text, Operand.isEmpty_listText]

private theorem Insn.mnemonic_ne_byte (i : Insn) : i.mnemonic ≠ ".byte" := by
  cases i with
  | alu op dst src => cases op <;> simp [mnemonic, AluOp.mnemonic]
  | _ => simp [mnemonic]

private theorem Insn.text_mov_rax (addr : Int64) :
    (mov (.reg .rax) (.imm addr)).text = "mov rax, " ++ Hex.ofInt64 addr := by
  have hmov : "mov" ++ " " ++ ("rax" ++ ", ") = "mov rax, " := by decide
  simp only [text, operands, List.isEmpty_cons, Bool.false_eq_true, if_false, mnemonic, Operand.listText, List.map,
    Operand.text, Reg.name, String.intercalate_cons_cons, String.intercalate_singleton]
  rw [← hmov]
  simp only [String.append_assoc]

private theorem Insn.text_call_rax : (call (.reg .rax)).text = "call rax" := by decide

/-! ### The forms of an instruction -/

private theorem int32?_eq_some {n : Int64} {m : Int32} (h : Word.int32? n.toInt = some m) : m.toInt64 = n := by
  unfold Word.int32? at h
  split at h
  · rename_i hr
    cases h
    rw [Int32.toInt64_ofInt hr.1 hr.2, Int64.ofInt_toInt]
  · cases h

private theorem imm32_eq_ok {mnemonic : String} {value : Int64} {n : Int32} (h : imm32 mnemonic value = .ok n) :
    n.toInt64 = value := by
  unfold imm32 at h
  split at h
  · rename_i m hm
    cases h
    exact int32?_eq_some hm
  · cases h

namespace Insn

private theorem decoded_movForm {dst src : Operand} {f : Form} (h : movForm dst src = .ok f) :
    f.decoded = .binary "mov" dst src := by
  unfold movForm at h
  split at h
  · cases h; rfl
  · cases h; rfl
  · cases h; rfl
  · split at h
    · rename_i n hn
      cases h
      rw [Form.decoded, int32?_eq_some hn]
    · cases h; rfl
  · obtain ⟨n, hn, rfl⟩ := map_eq_ok h
    rw [Form.decoded, imm32_eq_ok hn]
  · cases h

private theorem decoded_aluForm {op : AluOp} {dst src : Operand} {f : Form} (h : aluForm op dst src = .ok f) :
    f.decoded = .binary op.mnemonic dst src := by
  unfold aluForm at h
  split at h
  · cases h; rfl
  · cases h; rfl
  · cases h; rfl
  · obtain ⟨n, hn, rfl⟩ := map_eq_ok h
    rw [Form.decoded, imm32_eq_ok hn]
  · obtain ⟨n, hn, rfl⟩ := map_eq_ok h
    rw [Form.decoded, imm32_eq_ok hn]
  · cases h

private theorem decoded_cmovForm {dst src : Operand} {f : Form} (h : cmovForm dst src = .ok f) :
    f.decoded = .binary "cmovl" dst src := by
  unfold cmovForm at h
  split at h
  · cases h; rfl
  · cases h; rfl
  · cases h

private theorem callForms_imm (here : UInt64) (addr : Int64) :
    callForms here (.imm addr) =
      match Word.int32? (callDistance here addr) with
      | some offset => [.callRel offset]
      | none => [.movRI64 .rax addr, .callR .rax] := rfl

private theorem farTarget?_imm (here : UInt64) (addr : Int64) :
    (call (.imm addr)).farTarget? here = if (Word.int32? (callDistance here addr)).isSome then none else some addr := by
  simp only [farTarget?, int32?_isSome]

/-- A form that reads as the instruction, a near call, or the two forms of a far call. -/
theorem forms_cases {i : Insn} {here : UInt64} {fs : List Form} (h : i.forms here = .ok fs) :
    (i.farTarget? here = none ∧ ∃ f, fs = [f] ∧ f.decoded = ⟨i.mnemonic, .listed i.operands⟩) ∨
    (i.farTarget? here = none ∧ ∃ addr offset, i = call (.imm addr) ∧ fs = [.callRel offset] ∧
      offset.toInt64 = (addr.toUInt64 - (here + 5)).toInt64) ∨
    ∃ addr, i.farTarget? here = some addr ∧ fs = [.movRI64 .rax addr, .callR .rax] := by
  cases i with
  | mov dst src =>
    obtain ⟨f, hf, rfl⟩ := map_eq_ok h
    exact .inl ⟨rfl, f, rfl, decoded_movForm hf⟩
  | alu op dst src =>
    obtain ⟨f, hf, rfl⟩ := map_eq_ok h
    exact .inl ⟨rfl, f, rfl, decoded_aluForm hf⟩
  | cmovl dst src =>
    obtain ⟨f, hf, rfl⟩ := map_eq_ok h
    exact .inl ⟨rfl, f, rfl, decoded_cmovForm hf⟩
  | push r | pop r | ret =>
    cases h
    exact .inl ⟨rfl, _, rfl, rfl⟩
  | call target =>
    cases h
    cases target with
    | reg r => exact .inl ⟨rfl, _, rfl, rfl⟩
    | mem base disp => exact .inl ⟨rfl, _, rfl, rfl⟩
    | imm addr =>
      rw [callForms_imm, farTarget?_imm]
      match hd : Word.int32? (callDistance here addr) with
      | some offset => exact .inr (.inl ⟨rfl, addr, offset, rfl, rfl, int32?_eq_some hd⟩)
      | none => exact .inr (.inr ⟨addr, rfl, rfl⟩)

end Insn

/-! ### Lines of forms -/

private theorem size_ofDecoded {address size : Nat} {d : Decoded} {l : Line}
    (h : Line.ofDecoded address size d = .ok l) : l.size = size := by
  unfold Line.ofDecoded at h
  split at h
  · cases h; rfl
  · split at h
    · cases h; rfl
    · cases h

/-- The bytes of a form are one line, and the rest follows. -/
theorem disassembleFrom_form {f : Form} {address : Nat} {rest : List UInt8} {l : Line} {lines : List Line}
    (ha : address < UInt64.size) (hl : Line.ofDecoded address f.bytes.length f.decoded = .ok l)
    (hrest : disassembleFrom (address + f.bytes.length) rest = .ok lines) :
    disassembleFrom address (f.bytes ++ rest) = .ok (l :: lines) := by
  have hread := Decoded.ofBytes?_bytes f rest
  have hsize := size_ofDecoded hl
  -- the reader looks at the first byte, so the bytes have to be opened
  match hf : f.bytes, f.bytes_ne_nil with
  | b :: tail, _ =>
    rw [hf, List.cons_append] at hread
    rw [hf, List.length_cons] at hsize hrest hl
    have hfirst : Line.first address b (tail ++ rest) = .ok l := by
      rw [Line.first, hread]
      simp only [List.length_append]
      rw [show tail.length + rest.length + 1 - rest.length = tail.length + 1 by omega]
      exact hl
    rw [List.cons_append, disassembleFrom, if_pos ha, hfirst]
    simp only [hsize, Nat.add_sub_cancel, List.drop_left, Nat.add_assoc, hrest]

/-- The line of a form that reads as an instruction. -/
private theorem line_of_decoded (i : Insn) (f : Form) (h : f.decoded = ⟨i.mnemonic, .listed i.operands⟩) (here : UInt64)
    {text : String} (ht : i.text = text) :
    ∃ l, Line.ofDecoded here.toNat f.bytes.length f.decoded = .ok l ∧ l.Shows here f.bytes.length text := by
  rw [h]
  exact ⟨_, rfl, ⟨rfl, rfl, (i.text_line _ _).trans ht, i.mnemonic_ne_byte⟩⟩

private theorem length_callRel (offset : Int32) : (Form.callRel offset).bytes.length = 5 := by
  simp [Form.bytes, LittleEndian.ofInt32, LittleEndian.length_bytes]

/-- A near call is shown with its target. -/
private theorem line_of_callRel {here : UInt64} {addr : Int64} {offset : Int32}
    (h : offset.toInt64 = (addr.toUInt64 - (here + 5)).toInt64)
    (hend : here.toNat + (Form.callRel offset).bytes.length < UInt64.size) :
    ∃ l, Line.ofDecoded here.toNat (Form.callRel offset).bytes.length (Form.callRel offset).decoded = .ok l ∧
      l.Shows here (Form.callRel offset).bytes.length (Insn.call (.imm addr)).text := by
  have hlen := length_callRel offset
  have htarget : UInt64.ofNat (here.toNat + 5) + offset.toInt64.toUInt64 = addr.toUInt64 := by
    rw [h, UInt64.toUInt64_toInt64, UInt64.ofNat_add, UInt64.ofNat_toNat, UInt64.add_comm]
    exact UInt64.sub_add_cancel _ _
  refine ⟨⟨here.toNat, 5, "call", Hex.ofInt64 addr⟩, ?_, rfl, hlen.symm, ?_, by simp⟩
  · rw [hlen, Form.decoded, Line.ofDecoded]
    rw [hlen] at hend
    simp only [if_pos hend, htarget]
    rfl
  · exact (Insn.call (.imm addr)).text_line here.toNat 5

/-! ### Whole assemblies -/

/-- Code that ends within the address space starts and continues within it. -/
private theorem toNat_add_length {here : UInt64} {front more : List UInt8}
    (hend : here.toNat + (front ++ more).length < UInt64.size) :
    (here + UInt64.ofNat front.length).toNat = here.toNat + front.length := by
  rw [List.length_append] at hend
  exact toNat_add_ofNat (by omega)

/-- One step of the listing: the lines of an instruction, given those of the rest. -/
private theorem disassembleFrom_insn {i : Insn} {here : UInt64} {fs : List Form} (hfs : i.forms here = .ok fs)
    {more : List UInt8} (hend : here.toNat + (fs.flatMap Form.bytes ++ more).length < UInt64.size) {asm : Assembly}
    {lines : List Line}
    (hrest : disassembleFrom (here + UInt64.ofNat (fs.flatMap Form.bytes).length).toNat more = .ok lines)
    (hlist : Listing (here + UInt64.ofNat (fs.flatMap Form.bytes).length) asm lines) :
    ∃ lines', disassembleFrom here.toNat (fs.flatMap Form.bytes ++ more) = .ok lines' ∧
      Listing here (i :: asm) lines' := by
  have hcode : i.encode here = .ok (fs.flatMap Form.bytes) := by rw [Insn.encode, hfs, Except.map]
  have hnext := toNat_add_length hend
  rw [hnext] at hrest
  have hstart : here.toNat < UInt64.size := here.toNat_lt
  rcases Insn.forms_cases hfs with ⟨hnear, f, rfl, hdec⟩ | ⟨hnear, addr, offset, rfl, rfl, hoffset⟩ | ⟨addr, hfar, rfl⟩
  · simp only [List.flatMap_singleton] at hcode hend hrest hlist ⊢
    obtain ⟨l, hl, hshow⟩ := line_of_decoded i f hdec here rfl
    exact ⟨l :: lines, disassembleFrom_form hstart hl hrest, .insn hnear hcode hshow hlist⟩
  · simp only [List.flatMap_singleton] at hcode hend hrest hlist ⊢
    obtain ⟨l, hl, hshow⟩ := line_of_callRel hoffset (by rw [List.length_append] at hend; omega)
    exact ⟨l :: lines, disassembleFrom_form hstart hl hrest, .insn hnear hcode hshow hlist⟩
  · -- two forms, and the second starts where the first ends
    simp only [List.flatMap_cons, List.flatMap_nil, List.append_nil] at hcode hend hrest hlist ⊢
    rw [List.append_assoc] at hend
    have hmid := toNat_add_length hend
    obtain ⟨l₁, hl₁, hshow₁⟩ := line_of_decoded (.mov (.reg .rax) (.imm addr)) (.movRI64 .rax addr) rfl here
      (Insn.text_mov_rax addr)
    obtain ⟨l₂, hl₂, hshow₂⟩ := line_of_decoded (.call (.reg .rax)) (.callR .rax) rfl
      (here + UInt64.ofNat (Form.movRI64 .rax addr).bytes.length) Insn.text_call_rax
    rw [hmid] at hl₂
    rw [List.append_assoc]
    refine ⟨l₁ :: l₂ :: lines, disassembleFrom_form hstart hl₁ (disassembleFrom_form ?_ hl₂ ?_),
      .farCall hfar hcode hshow₁ hshow₂ hlist⟩
    · rw [List.length_append] at hend
      omega
    · rw [List.length_append, ← Nat.add_assoc] at hrest
      exact hrest

private theorem disassembleFrom_encodeFrom {asm : Assembly} {index : Nat} {here : UInt64} {code : List UInt8}
    (h : asm.encodeFrom index here = .ok code) (hend : here.toNat + code.length < UInt64.size) :
    ∃ lines, disassembleFrom here.toNat code = .ok lines ∧ Listing here asm lines := by
  induction asm generalizing index here code with
  | nil =>
    cases h
    exact ⟨[], by rw [disassembleFrom], .nil here⟩
  | cons i asm ih =>
    obtain ⟨fs, more, hfs, hmore, rfl⟩ := Assembly.encodeFrom_cons h
    have hnext := toNat_add_length hend
    obtain ⟨lines, hrest, hlist⟩ := ih hmore (by rw [hnext]; rw [List.length_append] at hend; omega)
    exact disassembleFrom_insn hfs hend hrest hlist

theorem disassemble_encode {asm : Assembly} {target : UInt64} {code : List UInt8} (h : asm.encode target = .ok code)
    (hend : target.toNat + code.length < UInt64.size) :
    ∃ lines, disassemble code target = .ok lines ∧ Listing target asm lines :=
  disassembleFrom_encodeFrom h hend

/-- Memory behind `r13` and `rsp`, a comparison, a far call and a near one. -/
def mixedCalls : Assembly :=
  [.mov (.mem .r13 0) (.imm (-1)), .alu .cmp (.reg .r12) (.mem .rsp 200), .cmovl (.reg .rax) (.reg .r9),
    .call (.imm 0x7FFF00000000), .call (.imm 0x1000), .ret]

theorem disassemble_encode_mixedCalls :
    ∃ code lines, mixedCalls.encode 0x1000 = .ok code ∧ (0x1000 : UInt64).toNat + code.length < UInt64.size ∧
      disassemble code 0x1000 = .ok lines ∧ Listing 0x1000 mixedCalls lines := by
  have hcode : mixedCalls.encode 0x1000 = .ok _ := rfl
  obtain ⟨lines, hlines, hlist⟩ := disassemble_encode hcode (by decide)
  exact ⟨_, lines, hcode, by decide, hlines, hlist⟩

end StackMachine.X86
