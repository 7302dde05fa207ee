import Mathlib
import StackMachine.Proofs.Spellings

/-!
# Decoding a form

`Form.decoded` is what an instruction form reads as, and `Form.Spelled` are the ways of writing it.  The decoder takes
one of these off the front and reads the form (`Decoded.ofBytes?_eq_some`), and nothing else is an instruction to it.

The bytes of a form are one way of writing it (`Form.spelled_bytes`), and so they are read as that form
(`ofBytes?_bytes`).  In the other ways

* there is a REX byte that is not called for, or bits in it that say nothing;
* a register is moved to or combined with another by the opcode for loads;
* a place is written with a wide displacement or a SIB byte (`Place.Spelled`);
* an immediate has four bytes although it fits one.
-/

namespace StackMachine.X86

/-- What a form reads as. -/
def Form.decoded : Form → Decoded
  | movRR dst src => .binary "mov" (.reg dst) (.reg src)
  | movRI64 dst imm => .binary "mov" (.reg dst) (.imm imm)
  | movRI32 dst imm => .binary "mov" (.reg dst) (.imm imm.toInt64)
  | movRM dst base disp => .binary "mov" (.reg dst) (.mem base disp)
  | movMR base disp src => .binary "mov" (.mem base disp) (.reg src)
  | movMI32 base disp imm => .binary "mov" (.mem base disp) (.imm imm.toInt64)
  | aluRR op dst src => .binary op.mnemonic (.reg dst) (.reg src)
  | aluRM op dst base disp => .binary op.mnemonic (.reg dst) (.mem base disp)
  | aluMR op base disp src => .binary op.mnemonic (.mem base disp) (.reg src)
  | aluRI op dst imm => .binary op.mnemonic (.reg dst) (.imm imm.toInt64)
  | aluMI op base disp imm => .binary op.mnemonic (.mem base disp) (.imm imm.toInt64)
  | cmovRR cond dst src => .binary ("cmov" ++ cond.suffix) (.reg dst) (.reg src)
  | cmovRM cond dst base disp => .binary ("cmov" ++ cond.suffix) (.reg dst) (.mem base disp)
  | push r => .unary "push" (.reg r)
  | pop r => .unary "pop" (.reg r)
  | callRel offset => ⟨"call", .relative offset.toInt64⟩
  | callR r => .unary "call" (.reg r)
  | callM base disp => .unary "call" (.mem base disp)
  | ret => ⟨"ret", .listed []⟩

/-! ### Forms by their place -/

namespace Form

def store (place : Place) (src : Reg) : Form :=
  match place with
  | .reg dst => movRR dst src
  | .mem base disp => movMR base disp src

def load (dst : Reg) : Place → Form
  | .reg src => movRR dst src
  | .mem base disp => movRM dst base disp

def storeImm (place : Place) (imm : Int32) : Form :=
  match place with
  | .reg dst => movRI32 dst imm
  | .mem base disp => movMI32 base disp imm

def aluStore (op : AluOp) (place : Place) (src : Reg) : Form :=
  match place with
  | .reg dst => aluRR op dst src
  | .mem base disp => aluMR op base disp src

def aluLoad (op : AluOp) (dst : Reg) : Place → Form
  | .reg src => aluRR op dst src
  | .mem base disp => aluRM op dst base disp

def aluImm (op : AluOp) (place : Place) (imm : Int32) : Form :=
  match place with
  | .reg dst => aluRI op dst imm
  | .mem base disp => aluMI op base disp imm

def cmov (cond : Cond) (dst : Reg) : Place → Form
  | .reg src => cmovRR cond dst src
  | .mem base disp => cmovRM cond dst base disp

def call : Place → Form
  | .reg r => callR r
  | .mem base disp => callM base disp

@[simp] theorem decoded_store (place : Place) (src : Reg) :
    (store place src).decoded = .binary "mov" place.operand (.reg src) := by cases place <;> rfl

@[simp] theorem decoded_load (dst : Reg) (place : Place) :
    (load dst place).decoded = .binary "mov" (.reg dst) place.operand := by cases place <;> rfl

@[simp] theorem decoded_storeImm (place : Place) (imm : Int32) :
    (storeImm place imm).decoded = .binary "mov" place.operand (.imm imm.toInt64) := by cases place <;> rfl

@[simp] theorem decoded_aluStore (op : AluOp) (place : Place) (src : Reg) :
    (aluStore op place src).decoded = .binary op.mnemonic place.operand (.reg src) := by cases place <;> rfl

@[simp] theorem decoded_aluLoad (op : AluOp) (dst : Reg) (place : Place) :
    (aluLoad op dst place).decoded = .binary op.mnemonic (.reg dst) place.operand := by cases place <;> rfl

@[simp] theorem decoded_aluImm (op : AluOp) (place : Place) (imm : Int32) :
    (aluImm op place imm).decoded = .binary op.mnemonic place.operand (.imm imm.toInt64) := by cases place <;> rfl

@[simp] theorem decoded_cmov (cond : Cond) (dst : Reg) (place : Place) :
    (cmov cond dst place).decoded = .binary ("cmov" ++ cond.suffix) (.reg dst) place.operand := by cases place <;> rfl

@[simp] theorem decoded_call (place : Place) : (call place).decoded = .unary "call" place.operand := by
  cases place <;> rfl

end Form

/-! ### Spellings -/

/-- A REX byte, with the bit that is not read. -/
def rexByte (rex : Rex) (x : Bool) : UInt8 :=
  UInt8.ofNat
    (0x40 + (if rex.w then 8 else 0) + (if rex.r then 4 else 0) + (if x then 2 else 0) + if rex.b then 1 else 0)

inductive Rex.Spelled : Rex → List UInt8 → Prop where
  | none : Spelled .none []
  | byte (rex : Rex) (x : Bool) : Spelled rex [rexByte rex x]

namespace Form

/-- The ways of writing a form after its REX byte, by what that says. -/
inductive Body (rex : Rex) : Form → List UInt8 → Prop where
  | push {r : Reg} (hb : r.extended = rex.b) : Body rex (.push r) [UInt8.ofNat (0x50 + r.code)]
  | pop {r : Reg} (hb : r.extended = rex.b) : Body rex (.pop r) [UInt8.ofNat (0x58 + r.code)]
  | callRel (offset : Int32) : Body rex (.callRel offset) (0xE8 :: LittleEndian.ofInt32 offset)
  | call {place : Place} {rm : List UInt8} (hb : place.register.extended = rex.b) (hrm : place.Spelled 2 rm) :
      Body rex (call place) (0xFF :: rm)
  | ret : Body rex .ret [0xC3]
  | store {place : Place} {r : Reg} {rm : List UInt8} (hw : rex.w = true) (hr : r.extended = rex.r)
      (hb : place.register.extended = rex.b) (hrm : place.Spelled r.code rm) : Body rex (store place r) (0x89 :: rm)
  | load {place : Place} {r : Reg} {rm : List UInt8} (hw : rex.w = true) (hr : r.extended = rex.r)
      (hb : place.register.extended = rex.b) (hrm : place.Spelled r.code rm) : Body rex (load r place) (0x8B :: rm)
  | imm64 {r : Reg} (hw : rex.w = true) (hb : r.extended = rex.b) (imm : Int64) :
      Body rex (.movRI64 r imm) (UInt8.ofNat (0xB8 + r.code) :: LittleEndian.ofInt64 imm)
  | storeImm {place : Place} {rm : List UInt8} (hw : rex.w = true) (hb : place.register.extended = rex.b)
      (hrm : place.Spelled 0 rm) (imm : Int32) :
      Body rex (storeImm place imm) (0xC7 :: (rm ++ LittleEndian.ofInt32 imm))
  | aluStore (op : AluOp) {place : Place} {r : Reg} {rm : List UInt8} (hw : rex.w = true) (hr : r.extended = rex.r)
      (hb : place.register.extended = rex.b) (hrm : place.Spelled r.code rm) :
      Body rex (aluStore op place r) (UInt8.ofNat op.storeOpcode :: rm)
  | aluLoad (op : AluOp) {place : Place} {r : Reg} {rm : List UInt8} (hw : rex.w = true) (hr : r.extended = rex.r)
      (hb : place.register.extended = rex.b) (hrm : place.Spelled r.code rm) :
      Body rex (aluLoad op r place) (UInt8.ofNat op.loadOpcode :: rm)
  | aluByte (op : AluOp) {place : Place} {rm : List UInt8} (hw : rex.w = true) (hb : place.register.extended = rex.b)
      (hrm : place.Spelled op.ext rm) {imm : Int32} (hfits : fitsByte imm = true) :
      Body rex (aluImm op place imm) (0x83 :: (rm ++ [imm.toUInt32.toUInt8]))
  | aluDword (op : AluOp) {place : Place} {rm : List UInt8} (hw : rex.w = true) (hb : place.register.extended = rex.b)
      (hrm : place.Spelled op.ext rm) (imm : Int32) :
      Body rex (aluImm op place imm) (0x81 :: (rm ++ LittleEndian.ofInt32 imm))
  | cmov (cond : Cond) {place : Place} {r : Reg} {rm : List UInt8} (hw : rex.w = true) (hr : r.extended = rex.r)
      (hb : place.register.extended = rex.b) (hrm : place.Spelled r.code rm) :
      Body rex (cmov cond r place) (0x0F :: UInt8.ofNat (0x40 + cond.code) :: rm)

def Spelled (f : Form) (own : List UInt8) : Prop :=
  ∃ (rex : Rex) (pre body : List UInt8), rex.Spelled pre ∧ f.Body rex body ∧ own = pre ++ body

end Form

theorem AluOp.ext_lt (op : AluOp) : op.ext < 8 := by cases op <;> decide

namespace Decoded

/-- Two operands named by ModR/M. -/
theorem takeRegRm?_eq_some {mnemonic : String} {regFirst : Bool} {rex : Rex} {code rest : List UInt8} {d : Decoded} :
    takeRegRm? mnemonic regFirst rex code = some (d, rest) ↔
      ∃ (r : Reg) (place : Place) (rm : List UInt8), r.extended = rex.r ∧ place.register.extended = rex.b ∧
        place.Spelled r.code rm ∧ code = rm ++ rest ∧
        d = if regFirst then binary mnemonic (.reg r) place.operand else binary mnemonic place.operand (.reg r) := by
  constructor
  · intro hread
    obtain ⟨⟨⟨r, op⟩, code'⟩, hmodrm, h⟩ := Option.bind_eq_some_iff.1 hread
    obtain ⟨hr, place, rm, rfl, hb, hspelled, rfl⟩ := takeModrm?_eq_some.1 hmodrm
    cases h
    exact ⟨r, place, rm, hr, hb, hspelled, rfl, rfl⟩
  · rintro ⟨r, place, rm, hr, hb, hspelled, rfl, rfl⟩
    have hmodrm : takeModrm? rex (rm ++ rest) = some ((r, place.operand), rest) :=
      takeModrm?_eq_some.2 ⟨hr, place, rm, rfl, hb, hspelled, rfl⟩
    simp only [takeRegRm?, hmodrm, bind, Option.bind, pure]

/-- One operand named by ModR/M, whose reg field holds a number. -/
theorem takeModrm?_field {rex : Rex} {place : Place} {field : Nat} {rm : List UInt8} (hf : field < 8)
    (hb : place.register.extended = rex.b) (hrm : place.Spelled field rm) (rest : List UInt8) :
    ∃ r : Reg, r.code = field ∧ takeModrm? rex (rm ++ rest) = some ((r, place.operand), rest) := by
  obtain ⟨hcode, hext⟩ := (Reg.ofNumber_eq_iff hf).1 (rfl : Reg.ofNumber (field + if rex.r then 8 else 0) = _)
  exact ⟨_, hcode, takeModrm?_eq_some.2 ⟨hext, place, rm, rfl, hb, hcode.symm ▸ hrm, rfl⟩⟩

/-! ### Reading what is spelled -/

section

variable {rex : Rex} {f : Form} {body : List UInt8}

private theorem toNat_opcode {base n : Nat} (hbase : base < 248) (hn : n < 8) :
    (UInt8.ofNat (base + n)).toNat = base + n := by
  rw [UInt8.toNat_ofNat_of_lt']
  simp only [UInt8.size]
  omega

private theorem takeRegRm?_spelled (mnemonic : String) (regFirst : Bool) {place : Place} {r : Reg} {rm : List UInt8}
    (hr : r.extended = rex.r) (hb : place.register.extended = rex.b) (hrm : place.Spelled r.code rm)
    (rest : List UInt8) :
    takeRegRm? mnemonic regFirst rex (rm ++ rest) =
      some (if regFirst then binary mnemonic (.reg r) place.operand else binary mnemonic place.operand (.reg r),
        rest) :=
  takeRegRm?_eq_some.2 ⟨r, place, rm, hr, hb, hrm, rfl, rfl⟩

private theorem takeInt32?_ofInt32 (n : Int32) (rest : List UInt8) :
    takeInt32? (LittleEndian.ofInt32 n ++ rest) = some (n.toInt64, rest) :=
  takeInt32?_eq_some.2 ⟨n, rfl, rfl⟩

/-- However a form is written after its REX byte, it is read. -/
theorem ofOpcode?_body (h : f.Body rex body) (rest : List UInt8) :
    ∃ op tail, body = op :: tail ∧ ofOpcode? rex op.toNat (tail ++ rest) = some (f.decoded, rest) := by
  cases h with
  | @push r hb =>
    refine ⟨_, [], rfl, ?_⟩
    have hcode := r.code_lt
    rw [toNat_opcode (by decide) hcode]
    unfold ofOpcode?
    rw [if_pos (by omega), Nat.add_sub_cancel_left, Rex.extB, (Reg.ofNumber_eq_iff hcode).2 ⟨rfl, hb⟩]
    rfl
  | @pop r hb =>
    refine ⟨_, [], rfl, ?_⟩
    have hcode := r.code_lt
    rw [toNat_opcode (by decide) hcode]
    unfold ofOpcode?
    rw [if_neg (by omega), if_pos (by omega), Nat.add_sub_cancel_left, Rex.extB,
      (Reg.ofNumber_eq_iff hcode).2 ⟨rfl, hb⟩]
    rfl
  | callRel offset => exact ⟨_, _, rfl, by simp [ofOpcode?, takeInt32?_ofInt32, Form.decoded]⟩
  | call hb hrm =>
    refine ⟨_, _, rfl, ?_⟩
    obtain ⟨r, hr, hread⟩ := @takeModrm?_field { rex with r := false } _ _ _ (by decide) hb hrm rest
    simp [ofOpcode?, hread, hr]
  | ret => exact ⟨_, [], rfl, by simp [ofOpcode?, Form.decoded]⟩
  | store hw hr hb hrm => exact ⟨_, _, rfl, by simp [ofOpcode?, hw, takeRegRm?_spelled _ _ hr hb hrm]⟩
  | load hw hr hb hrm => exact ⟨_, _, rfl, by simp [ofOpcode?, hw, takeRegRm?_spelled _ _ hr hb hrm]⟩
  | @imm64 r hw hb imm =>
    refine ⟨_, _, rfl, ?_⟩
    have hcode := r.code_lt
    have hread : takeInt64? (LittleEndian.ofInt64 imm ++ rest) = some (imm, rest) := takeInt64?_eq_some.2 rfl
    rw [toNat_opcode (by decide) hcode]
    unfold ofOpcode?
    -- the other opcodes are below or above the eight of this form
    rw [if_neg (by omega), if_neg (by omega), if_neg (by omega), if_neg (by omega), if_neg (by omega),
      if_neg (by simp [hw]), if_neg (by omega), if_neg (by omega), if_pos (by omega), hread, Nat.add_sub_cancel_left,
      Rex.extB, (Reg.ofNumber_eq_iff hcode).2 ⟨rfl, hb⟩]
    rfl
  | storeImm hw hb hrm imm =>
    refine ⟨_, _, rfl, ?_⟩
    obtain ⟨r, hr, hread⟩ := takeModrm?_field (by decide) hb hrm (LittleEndian.ofInt32 imm ++ rest)
    simp [ofOpcode?, hw, hread, hr, takeInt32?_ofInt32]
  | aluStore op hw hr hb hrm =>
    refine ⟨_, _, rfl, ?_⟩
    cases op <;>
      simp [ofOpcode?, hw, AluOp.storeOpcode, AluOp.ofOpcode?, takeRegRm?_spelled _ _ hr hb hrm]
  | aluLoad op hw hr hb hrm =>
    refine ⟨_, _, rfl, ?_⟩
    cases op <;>
      simp [ofOpcode?, hw, AluOp.storeOpcode, AluOp.loadOpcode, AluOp.ofOpcode?, takeRegRm?_spelled _ _ hr hb hrm]
  | @aluByte op place rm hw hb hrm imm hfits =>
    refine ⟨_, _, rfl, ?_⟩
    obtain ⟨r, hr, hread⟩ := @takeModrm?_field { rex with r := false } _ _ _ op.ext_lt hb hrm
      (imm.toUInt32.toUInt8 :: rest)
    have himm : takeInt8? (imm.toUInt32.toUInt8 :: rest) = some (imm.toInt64, rest) :=
      takeInt8?_eq_some.2 ⟨imm, hfits, rfl, rfl⟩
    rw [hw] at hread
    simp [ofOpcode?, hw, hread, hr, AluOp.ofExt?_ext, himm]
  | @aluDword op place rm hw hb hrm imm =>
    refine ⟨_, _, rfl, ?_⟩
    obtain ⟨r, hr, hread⟩ := @takeModrm?_field { rex with r := false } _ _ _ op.ext_lt hb hrm
      (LittleEndian.ofInt32 imm ++ rest)
    rw [hw] at hread
    simp [ofOpcode?, hw, hread, hr, AluOp.ofExt?_ext, takeInt32?_ofInt32]
  | cmov cond hw hr hb hrm =>
    refine ⟨_, _, rfl, ?_⟩
    have hhigh : (UInt8.ofNat (0x40 + cond.code)).toNat / 16 = 4 := by cases cond <;> rfl
    have hlow : Cond.ofCode (UInt8.ofNat (0x40 + cond.code)).toNat = cond := by cases cond <;> rfl
    simp only [List.cons_append]
    generalize UInt8.ofNat (0x40 + cond.code) = second at hhigh hlow
    simp [ofOpcode?, hw, takeByte?, hhigh, hlow, takeRegRm?_spelled _ _ hr hb hrm]

/-! ### What is read is spelled -/

private theorem exists_reg_opcode (rex : Rex) {op : UInt8} {base : Nat} (h : base ≤ op.toNat ∧ op.toNat ≤ base + 7) :
    ∃ r : Reg, r.extended = rex.b ∧ op = UInt8.ofNat (base + r.code) ∧
      Reg.ofNumber (op.toNat - base + rex.extB) = r := by
  have hn : op.toNat - base < 8 := by omega
  obtain ⟨hcode, hext⟩ := (Reg.ofNumber_eq_iff hn).1 (rfl : Reg.ofNumber (op.toNat - base + rex.extB) = _)
  refine ⟨_, hext, ?_, rfl⟩
  rw [hcode, show base + (op.toNat - base) = op.toNat by omega, UInt8.ofNat_toNat]

private theorem ofExt?_eq_some {n : Nat} {op : AluOp} (h : AluOp.ofExt? n = some op) : n = op.ext := by
  unfold AluOp.ofExt? at h
  split at h <;> cases h <;> rfl

private theorem ofOpcode?_eq_some {op : UInt8} {alu : AluOp} {regFirst : Bool}
    (h : AluOp.ofOpcode? op.toNat = some (alu, regFirst)) :
    op = UInt8.ofNat (if regFirst then alu.loadOpcode else alu.storeOpcode) := by
  rw [← UInt8.toNat_inj]
  unfold AluOp.ofOpcode? at h
  split at h <;> cases h <;> assumption

private theorem exists_cmov_opcode {b : UInt8} (h : b.toNat / 16 = 4) :
    b = UInt8.ofNat (0x40 + (Cond.ofCode b.toNat).code) := by
  obtain ⟨n, hn, hb⟩ : ∃ n < 16, b.toNat = 64 + n := ⟨b.toNat - 64, by omega, by omega⟩
  rw [← UInt8.toNat_inj, hb]
  interval_cases n <;> rfl

/-- What follows the opcode starts with the rest of a way of writing a form that reads so. -/
def OfBody (rex : Rex) (op : UInt8) (code : List UInt8) (d : Decoded) (rest : List UInt8) : Prop :=
  ∃ (f : Form) (tail : List UInt8), f.Body rex (op :: tail) ∧ f.decoded = d ∧ code = tail ++ rest

variable {op : UInt8} {code rest : List UInt8} {d : Decoded}

private theorem ofBody_call (hread : ofOpcode? rex 0xFF code = some (d, rest)) : OfBody rex 0xFF code d rest := by
  obtain ⟨⟨⟨reg, rm⟩, code'⟩, hmodrm, h⟩ := Option.bind_eq_some_iff.1 hread
  obtain ⟨_, place, own, rfl, hb, hspelled, rfl⟩ := takeModrm?_eq_some.1 hmodrm
  simp only at h
  split at h
  · rename_i hfield
    cases h
    rw [hfield] at hspelled
    exact ⟨_, _, .call hb hspelled, Form.decoded_call place, rfl⟩
  · cases h

private theorem ofBody_storeImm (hw : rex.w = true) (hread : ofOpcode? rex 0xC7 code = some (d, rest)) :
    OfBody rex 0xC7 code d rest := by
  simp only [ofOpcode?, hw] at hread
  obtain ⟨⟨⟨reg, rm⟩, code'⟩, hmodrm, h⟩ := Option.bind_eq_some_iff.1 hread
  obtain ⟨_, place, own, rfl, hb, hspelled, rfl⟩ := takeModrm?_eq_some.1 hmodrm
  simp only at h
  split at h
  · cases h
  · rename_i hfield
    obtain ⟨⟨x, code''⟩, himm, h'⟩ := Option.bind_eq_some_iff.1 h
    obtain ⟨imm, rfl, rfl⟩ := takeInt32?_eq_some.1 himm
    cases h'
    rw [not_not.1 hfield] at hspelled
    exact ⟨_, _, .storeImm hw hb hspelled imm, Form.decoded_storeImm place imm, by simp⟩

private theorem ofBody_aluImm (hw : rex.w = true) (hop : op.toNat = 0x81 ∨ op.toNat = 0x83)
    (hread : ofOpcode? rex op.toNat code = some (d, rest)) : OfBody rex op code d rest := by
  obtain ⟨⟨⟨reg, rm⟩, code'⟩, hmodrm, h⟩ : ∃ x, takeModrm? { rex with r := false } code = some x ∧
      ((AluOp.ofExt? x.1.1.code).bind fun alu =>
        (if op.toNat = 0x83 then takeInt8? x.2 else takeInt32? x.2).bind fun y =>
          some (binary alu.mnemonic x.1.2 (.imm y.1), y.2)) = some (d, rest) := by
    apply Option.bind_eq_some_iff.1
    rcases hop with hop | hop <;>
    · rw [hop] at hread ⊢
      simpa [ofOpcode?, hw] using hread
  obtain ⟨_, place, own, rfl, hb, hspelled, rfl⟩ := takeModrm?_eq_some.1 hmodrm
  obtain ⟨alu, halu, h'⟩ := Option.bind_eq_some_iff.1 h
  obtain ⟨⟨x, code''⟩, himm, h''⟩ := Option.bind_eq_some_iff.1 h'
  cases h''
  rw [ofExt?_eq_some halu] at hspelled
  simp only at himm
  split at himm
  · rename_i hop
    obtain rfl : op = 0x83 := UInt8.toNat_inj.1 hop
    obtain ⟨imm, hfits, rfl, rfl⟩ := takeInt8?_eq_some.1 himm
    exact ⟨_, _, .aluByte alu hw hb hspelled hfits, Form.decoded_aluImm alu place imm, by simp⟩
  · rename_i hne
    obtain rfl : op = 0x81 := UInt8.toNat_inj.1 (hop.resolve_right hne)
    obtain ⟨imm, rfl, rfl⟩ := takeInt32?_eq_some.1 himm
    exact ⟨_, _, .aluDword alu hw hb hspelled imm, Form.decoded_aluImm alu place imm, by simp⟩

private theorem ofBody_cmov (hw : rex.w = true) (hread : ofOpcode? rex 0x0F code = some (d, rest)) :
    OfBody rex 0x0F code d rest := by
  cases code with
  | nil => simp [ofOpcode?, hw, takeByte?] at hread
  | cons second code =>
    have h : (if second.toNat / 16 = 4 then takeRegRm? ("cmov" ++ (Cond.ofCode second.toNat).suffix) true rex code
        else none) = some (d, rest) := by
      simpa [ofOpcode?, hw, takeByte?] using hread
    split at h
    · rename_i hsecond
      obtain ⟨r, place, rm, hr, hb, hspelled, rfl, rfl⟩ := takeRegRm?_eq_some.1 h
      refine ⟨.cmov (.ofCode second.toNat) r place, second :: rm, ?_, Form.decoded_cmov _ r place, rfl⟩
      have hbody := Form.Body.cmov (.ofCode second.toNat) hw hr hb hspelled
      rwa [← exists_cmov_opcode hsecond] at hbody
    · cases h

/-- What is read by an opcode is a form, written in one of its ways. -/
theorem ofBody_of_ofOpcode? (hread : ofOpcode? rex op.toNat code = some (d, rest)) : OfBody rex op code d rest := by
  have h := hread
  unfold ofOpcode? at h
  by_cases hpush : 0x50 ≤ op.toNat ∧ op.toNat ≤ 0x57
  · rw [if_pos hpush] at h
    obtain ⟨r, hb, hop, hr⟩ := exists_reg_opcode rex hpush
    cases h
    exact ⟨.push r, [], hop ▸ .push hb, by rw [hr]; rfl, rfl⟩
  by_cases hpop : 0x58 ≤ op.toNat ∧ op.toNat ≤ 0x5F
  · rw [if_neg hpush, if_pos hpop] at h
    obtain ⟨r, hb, hop, hr⟩ := exists_reg_opcode rex hpop
    cases h
    exact ⟨.pop r, [], hop ▸ .pop hb, by rw [hr]; rfl, rfl⟩
  by_cases hrel : op.toNat = 0xE8
  · obtain rfl : op = 0xE8 := UInt8.toNat_inj.1 hrel
    obtain ⟨⟨x, code'⟩, himm, h'⟩ := Option.bind_eq_some_iff.1 hread
    obtain ⟨offset, rfl, rfl⟩ := takeInt32?_eq_some.1 himm
    cases h'
    exact ⟨_, _, .callRel offset, rfl, rfl⟩
  by_cases hcall : op.toNat = 0xFF
  · obtain rfl : op = 0xFF := UInt8.toNat_inj.1 hcall
    exact ofBody_call hread
  by_cases hret : op.toNat = 0xC3
  · obtain rfl : op = 0xC3 := UInt8.toNat_inj.1 hret
    cases hread
    exact ⟨_, [], .ret, rfl, rfl⟩
  rw [if_neg hpush, if_neg hpop, if_neg hrel, if_neg hcall, if_neg hret] at h
  -- all other forms have 64-bit operands
  by_cases hw : rex.w = true
  swap
  · rw [if_pos (by simpa using hw)] at h
    cases h
  rw [if_neg (by simpa using hw)] at h
  by_cases hstore : op.toNat = 0x89
  · rw [if_pos hstore] at h
    obtain rfl : op = 0x89 := UInt8.toNat_inj.1 hstore
    obtain ⟨r, place, rm, hr, hb, hspelled, rfl, rfl⟩ := takeRegRm?_eq_some.1 h
    exact ⟨_, _, .store hw hr hb hspelled, Form.decoded_store place r, rfl⟩
  by_cases hload : op.toNat = 0x8B
  · rw [if_neg hstore, if_pos hload] at h
    obtain rfl : op = 0x8B := UInt8.toNat_inj.1 hload
    obtain ⟨r, place, rm, hr, hb, hspelled, rfl, rfl⟩ := takeRegRm?_eq_some.1 h
    exact ⟨_, _, .load hw hr hb hspelled, Form.decoded_load r place, rfl⟩
  rw [if_neg hstore, if_neg hload] at h
  by_cases himm64 : 0xB8 ≤ op.toNat ∧ op.toNat ≤ 0xBF
  · rw [if_pos himm64] at h
    obtain ⟨⟨imm, code'⟩, himm, h'⟩ := Option.bind_eq_some_iff.1 h
    obtain rfl := takeInt64?_eq_some.1 himm
    obtain ⟨r, hb, hop, hr⟩ := exists_reg_opcode rex himm64
    cases h'
    exact ⟨.movRI64 r imm, _, hop ▸ .imm64 hw hb imm, by rw [hr]; rfl, rfl⟩
  by_cases hstoreImm : op.toNat = 0xC7
  · obtain rfl : op = 0xC7 := UInt8.toNat_inj.1 hstoreImm
    exact ofBody_storeImm hw hread
  by_cases haluImm : op.toNat = 0x81 ∨ op.toNat = 0x83
  · exact ofBody_aluImm hw haluImm hread
  by_cases hcmov : op.toNat = 0x0F
  · obtain rfl : op = 0x0F := UInt8.toNat_inj.1 hcmov
    exact ofBody_cmov hw hread
  rw [if_neg himm64, if_neg hstoreImm, if_neg haluImm, if_neg hcmov] at h
  obtain ⟨⟨alu, regFirst⟩, halu, h'⟩ := Option.bind_eq_some_iff.1 h
  obtain ⟨r, place, rm, hr, hb, hspelled, rfl, rfl⟩ := takeRegRm?_eq_some.1 h'
  obtain rfl := ofOpcode?_eq_some halu
  cases regFirst with
  | false => exact ⟨_, _, .aluStore alu hw hr hb hspelled, Form.decoded_aluStore alu place r, rfl⟩
  | true => exact ⟨_, _, .aluLoad alu hw hr hb hspelled, Form.decoded_aluLoad alu r place, rfl⟩

end

end Decoded

/-! ### REX bytes -/

theorem isPrefixByte_rexByte (rex : Rex) (x : Bool) : Rex.isPrefixByte (rexByte rex x) = true := by
  rcases rex with ⟨w, r, b⟩
  cases w <;> cases r <;> cases b <;> cases x <;> rfl

theorem ofByte_rexByte (rex : Rex) (x : Bool) : Rex.ofByte (rexByte rex x) = rex := by
  rcases rex with ⟨w, r, b⟩
  cases w <;> cases r <;> cases b <;> cases x <;> rfl

theorem Rex.spelled_ofByte {b : UInt8} (h : isPrefixByte b = true) : (ofByte b).Spelled [b] := by
  have hb : b.toNat / 16 = 4 := by simpa [isPrefixByte] using h
  obtain ⟨n, hn, hb⟩ : ∃ n < 16, b.toNat = 64 + n := ⟨b.toNat - 64, by omega, by omega⟩
  obtain rfl : b = UInt8.ofNat (64 + n) := by rw [← hb, UInt8.ofNat_toNat]
  have hspelled := Rex.Spelled.byte (ofByte (UInt8.ofNat (64 + n))) (n / 2 % 2 == 1)
  have hbyte : rexByte (ofByte (UInt8.ofNat (64 + n))) (n / 2 % 2 == 1) = UInt8.ofNat (64 + n) := by
    interval_cases n <;> rfl
  rwa [hbyte] at hspelled

theorem Form.Body.isPrefixByte_eq_false {rex : Rex} {f : Form} {op : UInt8} {tail : List UInt8}
    (h : f.Body rex (op :: tail)) : Rex.isPrefixByte op = false := by
  cases h with
  | @push r hb => cases r <;> rfl
  | @pop r hb => cases r <;> rfl
  | @imm64 r hw hb imm => cases r <;> rfl
  | aluStore op => cases op <;> rfl
  | aluLoad op => cases op <;> rfl
  | _ => rfl

/-! ### Instructions -/

theorem Decoded.ofBytes?_eq_some {code rest : List UInt8} {d : Decoded} :
    ofBytes? code = some (d, rest) ↔
      ∃ (f : Form) (own : List UInt8), f.Spelled own ∧ f.decoded = d ∧ code = own ++ rest := by
  constructor
  · intro hread
    cases code with
    | nil => cases hread
    | cons b code =>
      rw [ofBytes?] at hread
      split at hread
      · rename_i hb
        cases code with
        | nil => cases hread
        | cons op code =>
          obtain ⟨f, tail, hbody, hd, rfl⟩ := ofBody_of_ofOpcode? hread
          exact ⟨f, b :: op :: tail, ⟨_, [b], _, Rex.spelled_ofByte hb, hbody, rfl⟩, hd, rfl⟩
      · obtain ⟨f, tail, hbody, hd, rfl⟩ := ofBody_of_ofOpcode? hread
        exact ⟨f, b :: tail, ⟨_, [], _, .none, hbody, rfl⟩, hd, rfl⟩
  · rintro ⟨f, own, ⟨rex, pre, body, hrex, hbody, rfl⟩, rfl, rfl⟩
    obtain ⟨op, tail, rfl, hread⟩ := ofOpcode?_body hbody rest
    cases hrex with
    | none => simp [ofBytes?, hbody.isPrefixByte_eq_false, hread]
    | byte x => simp [ofBytes?, isPrefixByte_rexByte, takeByte?, ofByte_rexByte, hread]

namespace Form

private theorem rexW_eq (x y : Bool) :
    rexW (if x then 4 else 0) (if y then 1 else 0) = rexByte ⟨true, x, y⟩ false := by
  cases x <;> cases y <;> rfl

private theorem spelled_wide {f : Form} {x y : Bool} {body : List UInt8} (h : f.Body ⟨true, x, y⟩ body) :
    f.Spelled (rexW (if x then 4 else 0) (if y then 1 else 0) :: body) :=
  ⟨_, [_], body, rexW_eq x y ▸ .byte _ false, h, rfl⟩

private theorem spelled_rexB? (r : Reg) : Rex.Spelled ⟨false, false, r.extended⟩ (rexB? r) := by
  cases hr : r.extended with
  | false => rw [rexB?, hr]; exact .none
  | true => rw [rexB?, hr]; exact .byte ⟨false, false, true⟩ false

private theorem body_aluImmBytes (op : AluOp) (place : Place) (imm : Int32) :
    (aluImm op place imm).Body ⟨true, false, place.register.extended⟩ (aluImmBytes op place imm) := by
  have hplace := Place.spelled_modrm op.ext place
  unfold aluImmBytes
  split
  · rename_i hfits
    exact .aluByte op rfl rfl hplace hfits
  · exact .aluDword op rfl rfl hplace imm

/-- The bytes of a form are a way of writing it. -/
theorem spelled_bytes (f : Form) : f.Spelled f.bytes := by
  have hplace := Place.spelled_modrm
  cases f with
  | movRR dst src => exact spelled_wide (.store rfl rfl rfl (hplace _ (.reg dst)))
  | movRI64 dst imm => exact spelled_wide (x := false) (.imm64 rfl rfl imm)
  | movRI32 dst imm => exact spelled_wide (x := false) (.storeImm rfl rfl (hplace _ (.reg dst)) imm)
  | movRM dst base disp => exact spelled_wide (.load rfl rfl rfl (hplace _ (.mem base disp)))
  | movMR base disp src => exact spelled_wide (.store rfl rfl rfl (hplace _ (.mem base disp)))
  | movMI32 base disp imm => exact spelled_wide (x := false) (.storeImm rfl rfl (hplace _ (.mem base disp)) imm)
  | aluRR op dst src => exact spelled_wide (.aluStore op rfl rfl rfl (hplace _ (.reg dst)))
  | aluRM op dst base disp => exact spelled_wide (.aluLoad op rfl rfl rfl (hplace _ (.mem base disp)))
  | aluMR op base disp src => exact spelled_wide (.aluStore op rfl rfl rfl (hplace _ (.mem base disp)))
  | aluRI op dst imm => exact spelled_wide (x := false) (body_aluImmBytes op (.reg dst) imm)
  | aluMI op base disp imm => exact spelled_wide (x := false) (body_aluImmBytes op (.mem base disp) imm)
  | cmovRR cond dst src => exact spelled_wide (.cmov cond rfl rfl rfl (hplace _ (.reg src)))
  | cmovRM cond dst base disp => exact spelled_wide (.cmov cond rfl rfl rfl (hplace _ (.mem base disp)))
  | push r => exact ⟨_, _, _, spelled_rexB? r, .push rfl, rfl⟩
  | pop r => exact ⟨_, _, _, spelled_rexB? r, .pop rfl, rfl⟩
  | callRel offset => exact ⟨_, [], _, .none, .callRel offset, rfl⟩
  | callR r => exact ⟨_, _, _, spelled_rexB? r, .call rfl (hplace _ (.reg r)), rfl⟩
  | callM base disp => exact ⟨_, _, _, spelled_rexB? base, .call rfl (hplace _ (.mem base disp)), rfl⟩
  | ret => exact ⟨_, [], _, .none, .ret, rfl⟩

end Form

/-- The bytes of a form are read as that form, whatever stands after them. -/
theorem Decoded.ofBytes?_bytes (f : Form) (rest : List UInt8) : ofBytes? (f.bytes ++ rest) = some (f.decoded, rest) :=
  ofBytes?_eq_some.2 ⟨f, f.bytes, f.spelled_bytes, rfl, rfl⟩

end StackMachine.X86
