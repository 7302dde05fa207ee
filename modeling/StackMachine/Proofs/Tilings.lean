import Mathlib
import StackMachine.Proofs.Encoding
import StackMachine.X86.Disassembly

/-!
# Disassembly of any bytes

Whatever the bytes are, their disassembly cuts them into pieces that follow each other, with one line for each.

* `Reads`: a reader whose result is decided by the bytes that it takes off the front.  Every part of an instruction is
  read so (`takeModrm?_reads`), hence every instruction (`Decoded.ofBytes?_reads`).
* `Tiling address code lines`: the lines, piece by piece.
* `disassembleFrom_tiling`: the disassembly of bytes that end within the address space is such a tiling.
* `Tiling.disassembleFrom_append`: a disassembly without `.byte` lines can be continued.
-/

namespace StackMachine.X86

/-! ### Readers -/

/-- What is read satisfies `P`, and is decided by the bytes that are taken off. -/
def Reads {α : Type} (P : α → Prop) (read : List UInt8 → Option (α × List UInt8)) : Prop :=
  ∀ code x rest, read code = some (x, rest) →
    P x ∧ ∃ own, code = own ++ rest ∧ ∀ tail, read (own ++ tail) = some (x, tail)

namespace Reads

variable {α β : Type} {P : α → Prop} {Q : β → Prop} {read read' : List UInt8 → Option (α × List UInt8)}

theorem pure {x : α} (h : P x) : Reads P (fun code => some (x, code)) := by
  intro code y rest hread
  cases hread
  exact ⟨h, [], rfl, fun _ => rfl⟩

theorem fail : Reads P (fun _ => none) := by
  intro code y rest hread
  cases hread

theorem bind {next : α × List UInt8 → Option (β × List UInt8)} (h : Reads P read)
    (hnext : ∀ x, P x → Reads Q (fun code => next (x, code))) : Reads Q (fun code => read code >>= next) := by
  intro code y rest hread
  obtain ⟨⟨x, mid⟩, hfirst, hsecond⟩ := Option.bind_eq_some_iff.1 hread
  obtain ⟨hx, own, rfl, hown⟩ := h code x mid hfirst
  obtain ⟨hy, own', rfl, hown'⟩ := hnext x hx mid y rest hsecond
  refine ⟨hy, own ++ own', (List.append_assoc ..).symm, fun tail => ?_⟩
  simp only [List.append_assoc, hown]
  exact hown' tail

theorem map {f : α × List UInt8 → β × List UInt8} (h : Reads P read)
    (hf : ∀ x, P x → Reads Q (fun code => some (f (x, code)))) : Reads Q (fun code => (read code).map f) := by
  simp only [Option.map_eq_bind]
  exact h.bind hf

/-- A part that was looked up, not read. -/
theorem lookup {o : Option α} {next : α → List UInt8 → Option (β × List UInt8)} (h : ∀ x, Reads Q (next x)) :
    Reads Q (fun code => o >>= fun x => next x code) := by
  cases o with
  | none => exact fail
  | some x => exact h x

theorem ite {c : Prop} [Decidable c] (h : c → Reads P read) (h' : ¬c → Reads P read') :
    Reads P (fun code => if c then read code else read' code) := by
  by_cases hc : c
  · simpa only [if_pos hc] using h hc
  · simpa only [if_neg hc] using h' hc

/-- A reader that starts with one byte. -/
theorem cons (hnil : read [] = none) (h : ∀ b, Reads P (fun code => read (b :: code))) : Reads P read := by
  intro code x rest hread
  cases code with
  | nil =>
    rw [hnil] at hread
    cases hread
  | cons b code =>
    obtain ⟨hx, own, rfl, hown⟩ := h b code x rest hread
    exact ⟨hx, b :: own, rfl, hown⟩

end Reads

theorem takeByte?_reads : Reads (fun _ => True) takeByte? := .cons rfl fun _ => .pure trivial

theorem takeInt8?_reads : Reads (fun _ => True) takeInt8? := .cons rfl fun _ => .pure trivial

theorem LittleEndian.take?_reads (k : Nat) : Reads (fun _ => True) (LittleEndian.take? k) := by
  intro code n rest h
  unfold LittleEndian.take? at h
  split at h
  · rename_i hk
    cases h
    have hlen : (code.take k).length = k := List.length_take_of_le hk
    refine ⟨trivial, code.take k, (List.take_append_drop k code).symm, fun tail => ?_⟩
    rw [LittleEndian.take?, if_pos (by rw [List.length_append, hlen]; exact Nat.le_add_right ..),
      List.take_left' hlen, List.drop_left' hlen]
  · cases h

theorem takeInt32?_reads : Reads (fun _ => True) takeInt32? :=
  (LittleEndian.take?_reads 4).map fun _ _ => .pure trivial

theorem takeInt64?_reads : Reads (fun _ => True) takeInt64? :=
  (LittleEndian.take?_reads 8).map fun _ _ => .pure trivial

theorem takeBase?_reads (rex : Rex) (mode rm : Nat) : Reads (fun _ => True) (takeBase? rex mode rm) := by
  refine .ite (fun _ => ?_) fun _ => .ite (fun _ => .fail) fun _ => .pure trivial
  -- the SIB byte
  exact .cons rfl fun _ => .ite (fun _ => .pure trivial) fun _ => .fail

theorem takeDisp?_reads (mode : Nat) : Reads (fun _ => True) (takeDisp? mode) :=
  .ite (fun _ => .pure trivial) fun _ => .ite (fun _ => takeInt8?_reads) fun _ => takeInt32?_reads

theorem takeModrm?_reads (rex : Rex) : Reads (fun _ => True) (takeModrm? rex) := by
  refine .cons rfl fun b => .ite (fun _ => .pure trivial) fun _ => ?_
  exact (takeBase?_reads _ _ _).bind fun base _ => (takeDisp?_reads _).bind fun disp _ => .pure trivial

/-! ### Instructions -/

namespace Decoded

/-- No instruction reads as the line of a single byte. -/
def Known (d : Decoded) : Prop := d.mnemonic ≠ ".byte"

theorem takeRegRm?_reads {mnemonic : String} (hm : mnemonic ≠ ".byte") (regFirst : Bool) (rex : Rex) :
    Reads Known (takeRegRm? mnemonic regFirst rex) := by
  refine (takeModrm?_reads rex).bind fun r _ => .pure ?_
  cases regFirst <;> exact hm

private theorem mnemonic_alu (op : AluOp) : op.mnemonic ≠ ".byte" := by
  cases op <;> simp [AluOp.mnemonic]

private theorem mnemonic_cmov (c : Cond) : "cmov" ++ c.suffix ≠ ".byte" := by
  cases c <;> decide

theorem ofOpcode?_reads (rex : Rex) (op : Nat) : Reads Known (ofOpcode? rex op) := by
  have known : ∀ {m : String} {operands : Operands}, m ≠ ".byte" → Known ⟨m, operands⟩ := id
  unfold ofOpcode?
  refine .ite (fun _ => .pure (known (by simp))) fun _ => ?_
  refine .ite (fun _ => .pure (known (by simp))) fun _ => ?_
  refine .ite (fun _ => takeInt32?_reads.bind fun _ _ => .pure (known (by simp))) fun _ => ?_
  refine .ite (fun _ => (takeModrm?_reads _).bind fun _ _ => .ite (fun _ => .pure (known (by simp))) fun _ => .fail)
    fun _ => ?_
  refine .ite (fun _ => .pure (known (by simp))) fun _ => ?_
  refine .ite (fun _ => .fail) fun _ => ?_
  refine .ite (fun _ => takeRegRm?_reads (by simp) _ _) fun _ => ?_
  refine .ite (fun _ => takeRegRm?_reads (by simp) _ _) fun _ => ?_
  refine .ite (fun _ => takeInt64?_reads.bind fun _ _ => .pure (known (by simp))) fun _ => ?_
  refine .ite (fun _ => (takeModrm?_reads _).bind fun _ _ => .ite (fun _ => .fail) fun _ =>
    takeInt32?_reads.bind fun _ _ => .pure (known (by simp))) fun _ => ?_
  refine .ite (fun _ => (takeModrm?_reads _).bind fun _ _ => .lookup fun alu => ?_) fun _ => ?_
  · exact .ite (fun _ => takeInt8?_reads.bind fun _ _ => .pure (known (mnemonic_alu alu)))
      fun _ => takeInt32?_reads.bind fun _ _ => .pure (known (mnemonic_alu alu))
  refine .ite (fun _ => takeByte?_reads.bind fun _ _ => .ite (fun _ => takeRegRm?_reads (mnemonic_cmov _) _ _)
    fun _ => .fail) fun _ => ?_
  exact .lookup fun _ => takeRegRm?_reads (mnemonic_alu _) _ _

theorem ofBytes?_reads : Reads Known ofBytes? :=
  .cons rfl fun _ => .ite (fun _ => takeByte?_reads.bind fun _ _ => ofOpcode?_reads _ _) fun _ => ofOpcode?_reads _ _

end Decoded

/-! ### Lines and their bytes -/

/-- A line and the bytes that it stands for.  An instruction is told from these bytes, whatever follows them. -/
structure Piece (here : Nat) (own : List UInt8) (l : Line) : Prop where
  address : l.address = here
  nonempty : own ≠ []
  size : l.size = own.length
  byte : l.mnemonic = ".byte" → ∃ b, own = [b] ∧ l.operands = Hex.padded 4 b.toNat
  insn : l.mnemonic ≠ ".byte" → ∀ more,
    disassembleFrom here (own ++ more) = (disassembleFrom (here + l.size) more).map (l :: ·)

/-- Lines for bytes that lie from the address on, each where the one before it ends. -/
inductive Tiling : Nat → List UInt8 → List Line → Prop where
  | nil (address : Nat) : Tiling address [] []
  | cons {address : Nat} {own code : List UInt8} {l : Line} {lines : List Line} (piece : Piece address own l)
      (rest : Tiling (address + l.size) code lines) : Tiling address (own ++ code) (l :: lines)

private theorem Line.ofDecoded_ok {address size : Nat} (h : address + size < UInt64.size) (d : Decoded) :
    ∃ l, ofDecoded address size d = .ok l ∧ l.address = address ∧ l.size = size ∧ l.mnemonic = d.mnemonic := by
  unfold ofDecoded
  cases d.operands with
  | listed ops => exact ⟨_, rfl, rfl, rfl, rfl⟩
  | relative offset =>
    simp only [if_pos h]
    exact ⟨_, rfl, rfl, rfl, rfl⟩

private theorem disassembleFrom_cons {address : Nat} {b : UInt8} {own more : List UInt8} {l : Line}
    (ha : address < UInt64.size) (hfirst : Line.first address b (own ++ more) = .ok l)
    (hsize : l.size = own.length + 1) :
    disassembleFrom address (b :: own ++ more) = (disassembleFrom (address + l.size) more).map (l :: ·) := by
  rw [List.cons_append, disassembleFrom, if_pos ha, hfirst]
  simp only [hsize, Nat.add_sub_cancel, List.drop_left, Nat.add_assoc]
  cases disassembleFrom (address + (own.length + 1)) more <;> rfl

/-- One step: the first line, and the disassembly of what follows its bytes. -/
theorem disassembleFrom_step {address : Nat} {b : UInt8} {code : List UInt8}
    (hend : address + (b :: code).length < UInt64.size) :
    ∃ own rest l, b :: code = own ++ rest ∧ Piece address own l ∧
      disassembleFrom address (b :: code) = (disassembleFrom (address + l.size) rest).map (l :: ·) := by
  have ha : address < UInt64.size := (Nat.le_add_right ..).trans_lt hend
  cases hread : Decoded.ofBytes? (b :: code) with
  | none =>
    have hfirst : Line.first address b ([] ++ code) = .ok (.ofByte address b) := by
      simp only [List.nil_append, Line.first, hread]
    refine ⟨[b], code, .ofByte address b, rfl, ⟨rfl, by simp, rfl, fun _ => ⟨b, rfl, rfl⟩, fun h => ?_⟩,
      disassembleFrom_cons ha hfirst rfl⟩
    exact absurd rfl h
  | some r =>
    obtain ⟨d, rest⟩ := r
    obtain ⟨hknown, own, hcode, hown⟩ := Decoded.ofBytes?_reads _ _ _ hread
    cases own with
    | nil => cases hown []
    | cons b' own =>
      obtain ⟨rfl, rfl⟩ : b = b' ∧ code = own ++ rest := List.cons.inj hcode
      have hcall : address + (own.length + 1) < UInt64.size := by
        rw [List.length_cons, List.length_append] at hend
        omega
      obtain ⟨l, hl, haddress, hsize, hmnemonic⟩ := Line.ofDecoded_ok hcall d
      -- the line is the same, whatever follows
      have hinsn : ∀ more, disassembleFrom address (b :: own ++ more) =
          (disassembleFrom (address + l.size) more).map (l :: ·) := by
        intro more
        refine disassembleFrom_cons ha ?_ hsize
        have hmore : Decoded.ofBytes? (b :: (own ++ more)) = some (d, more) := hown more
        have hlen : (own ++ more).length + 1 - more.length = own.length + 1 := by
          rw [List.length_append]
          omega
        simp only [Line.first, hmore, hlen, hl]
      refine ⟨b :: own, rest, l, rfl, ⟨haddress, by simp, hsize, fun h => ?_, fun _ => hinsn⟩, hinsn rest⟩
      exact absurd (hmnemonic.symm.trans h) hknown

/-- Induction on the bytes that are left. -/
theorem disassembleFrom_tiling {address : Nat} {code : List UInt8} (hend : address + code.length < UInt64.size) :
    ∃ lines, disassembleFrom address code = .ok lines ∧ Tiling address code lines := by
  induction hn : code.length using Nat.strong_induction_on generalizing address code with
  | _ n ih =>
    subst hn
    cases code with
    | nil => exact ⟨[], by rw [disassembleFrom], .nil address⟩
    | cons b code =>
      obtain ⟨own, rest, l, hcode, hpiece, hstep⟩ := disassembleFrom_step hend
      rw [hcode, List.length_append] at hend
      have hpos : 0 < own.length := List.length_pos_of_ne_nil hpiece.nonempty
      have hlen : (b :: code).length = own.length + rest.length := by rw [hcode, List.length_append]
      have hrest : address + l.size + rest.length < UInt64.size := by
        rw [hpiece.size]
        omega
      obtain ⟨lines, hlines, htiling⟩ := ih rest.length (by omega) hrest rfl
      rw [hlines] at hstep
      exact ⟨l :: lines, hstep, hcode ▸ .cons hpiece htiling⟩

namespace Tiling

variable {address : Nat} {code : List UInt8} {lines : List Line}

theorem head_address (h : Tiling address code lines) : ∀ l ∈ lines.head?, l.address = address := by
  cases h with
  | nil => simp
  | cons piece _ => simpa using piece.address

theorem isChain_address (h : Tiling address code lines) :
    lines.IsChain fun l next => next.address = l.address + l.size := by
  induction h with
  | nil => exact .nil
  | cons piece rest ih => exact List.isChain_cons.2 ⟨by rw [piece.address]; exact rest.head_address, ih⟩

theorem one_le_size (h : Tiling address code lines) : ∀ l ∈ lines, 1 ≤ l.size := by
  induction h with
  | nil => exact List.forall_mem_nil _
  | cons piece _ ih => exact List.forall_mem_cons.2 ⟨piece.size ▸ List.length_pos_of_ne_nil piece.nonempty, ih⟩

theorem sum_size (h : Tiling address code lines) : (lines.map Line.size).sum = code.length := by
  induction h with
  | nil => rfl
  | cons piece _ ih => rw [List.map_cons, List.sum_cons, ih, piece.size, List.length_append]

theorem disassembleFrom_append (h : Tiling address code lines) (hinsns : ∀ l ∈ lines, l.mnemonic ≠ ".byte")
    (more : List UInt8) :
    disassembleFrom address (code ++ more) = (disassembleFrom (address + code.length) more).map (lines ++ ·) := by
  induction h with
  | nil address =>
    rw [List.nil_append, List.length_nil, Nat.add_zero]
    cases disassembleFrom address more <;> rfl
  | @cons address own code l lines piece _ ih =>
    obtain ⟨hl, hlines⟩ := List.forall_mem_cons.1 hinsns
    rw [List.append_assoc, piece.insn hl, ih hlines, piece.size, List.length_append, Nat.add_assoc]
    cases disassembleFrom (address + (own.length + code.length)) more <;> rfl

end Tiling

/-- The disassembly of any bytes that end within the address space is a tiling of them; if all its lines are those of
instructions, it is also the beginning of the disassembly of more bytes. -/
theorem disassemble_tiles (code : List UInt8) (address : UInt64) (hend : address.toNat + code.length < UInt64.size) :
    ∃ lines, disassemble code address = .ok lines ∧ Tiling address.toNat code lines ∧
      (∀ l ∈ lines.head?, l.address = address.toNat) ∧
      (lines.IsChain fun l next => next.address = l.address + l.size) ∧
      (∀ l ∈ lines, 1 ≤ l.size) ∧ (lines.map Line.size).sum = code.length ∧
      ((∀ l ∈ lines, l.mnemonic ≠ ".byte") → ∀ more,
        disassemble (code ++ more) address =
          (disassemble more (address + UInt64.ofNat code.length)).map (lines ++ ·)) := by
  obtain ⟨lines, hlines, htiling⟩ := disassembleFrom_tiling hend
  refine ⟨lines, hlines, htiling, htiling.head_address, htiling.isChain_address, htiling.one_le_size, htiling.sum_size,
    fun hinsns more => ?_⟩
  rw [disassemble, disassemble, toNat_add_ofNat hend]
  exact htiling.disassembleFrom_append hinsns more

/-- Saves the frame pointer and calls a method. -/
def frameCall : List UInt8 := [0x55, 0x48, 0x89, 0xE5, 0xE8, 0xF2, 0xFF, 0xFF, 0xFF]

def frameCallLines : List Line :=
  [⟨0x1000, 1, "push", "rbp"⟩, ⟨0x1001, 3, "mov", "rbp, rsp"⟩, ⟨0x1004, 5, "call", "0xffb"⟩]

theorem disassemble_tiles_frameCall :
    (0x1000 : UInt64).toNat + frameCall.length < UInt64.size ∧ disassemble frameCall 0x1000 = .ok frameCallLines ∧
      Tiling 0x1000 frameCall frameCallLines ∧ (∀ l ∈ frameCallLines, l.mnemonic ≠ ".byte") ∧
      ∀ more, disassemble (frameCall ++ more) 0x1000 = (disassemble more 0x1009).map (frameCallLines ++ ·) := by
  have hcode : disassemble frameCall 0x1000 = .ok frameCallLines := by decide +kernel
  have hknown : ∀ l ∈ frameCallLines, l.mnemonic ≠ ".byte" := by decide
  obtain ⟨lines, hlines, htiling, _, _, _, _, happend⟩ := disassemble_tiles frameCall 0x1000 (by decide)
  cases hcode.symm.trans hlines
  exact ⟨by decide, hcode, htiling, hknown, happend hknown⟩

end StackMachine.X86
