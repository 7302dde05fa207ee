import Mathlib
import StackMachine.X86.Disassembly

/-!
# The parts of an instruction as they can be written

Each reader of the decoder takes a part of an instruction off the front.  The lemmas here say of which bytes it does
so, in both directions:

* `takeInt8?_eq_some`, `takeInt32?_eq_some`, `takeInt64?_eq_some`: immediates and displacements, little endian;
* `takeBase?_eq_some`: the base register, with or without a SIB byte;
* `takeModrm?_eq_some`: ModR/M and what follows it.

`Place.Spelled` are the ways of writing a place.  One of them is that of `modrm` (`spelled_modrm`).  The others have a
displacement that is wider than it need be, or a SIB byte that is not called for.
-/

namespace StackMachine.X86

/-! ### Numbers -/

namespace LittleEndian

theorem ofBytes_lt (bs : List UInt8) : ofBytes bs < bound bs.length := by
  induction bs with
  | nil => decide
  | cons b bs ih =>
    have hb := b.toNat_lt
    simp only [ofBytes, List.length_cons, bound]
    omega

theorem bytes_ofBytes (bs : List UInt8) : bytes bs.length (ofBytes bs) = bs := by
  induction bs with
  | nil => rfl
  | cons b bs ih =>
    have hb := b.toNat_lt
    have hlow : UInt8.ofNat (b.toNat + 256 * ofBytes bs) = b := by
      rw [← UInt8.toNat_inj, UInt8.toNat_ofNat']
      omega
    have hhigh : (b.toNat + 256 * ofBytes bs) / 256 = ofBytes bs := by omega
    simp only [List.length_cons, ofBytes, bytes, hlow, hhigh, ih]

theorem take?_eq_some {k n : Nat} {code rest : List UInt8} :
    take? k code = some (n, rest) ↔ n < bound k ∧ code = bytes k n ++ rest := by
  constructor
  · intro h
    unfold take? at h
    split at h
    · rename_i hk
      cases h
      have hlen : (code.take k).length = k := List.length_take_of_le hk
      have hlt := ofBytes_lt (code.take k)
      have hbytes := bytes_ofBytes (code.take k)
      rw [hlen] at hlt hbytes
      exact ⟨hlt, by rw [hbytes, List.take_append_drop]⟩
    · cases h
  · rintro ⟨hn, rfl⟩
    rw [take?_bytes, Nat.mod_eq_of_lt hn]

end LittleEndian

theorem takeInt32?_eq_some {code rest : List UInt8} {x : Int64} :
    takeInt32? code = some (x, rest) ↔ ∃ n : Int32, x = n.toInt64 ∧ code = LittleEndian.ofInt32 n ++ rest := by
  rw [takeInt32?, Option.map_eq_some_iff]
  constructor
  · rintro ⟨⟨n, rest'⟩, hread, heq⟩
    obtain ⟨hn, hcode⟩ := LittleEndian.take?_eq_some.1 hread
    cases heq
    refine ⟨_, rfl, ?_⟩
    rw [hcode, LittleEndian.ofInt32, UInt32.toUInt32_toInt32, UInt32.toNat_ofNat_of_lt' hn]
  · rintro ⟨n, rfl, rfl⟩
    refine ⟨(n.toUInt32.toNat, rest), LittleEndian.take?_eq_some.2 ⟨n.toUInt32.toNat_lt, rfl⟩, ?_⟩
    simp only [UInt32.ofNat_toNat, Int32.toInt32_toUInt32]

theorem takeInt64?_eq_some {code rest : List UInt8} {x : Int64} :
    takeInt64? code = some (x, rest) ↔ code = LittleEndian.ofInt64 x ++ rest := by
  rw [takeInt64?, Option.map_eq_some_iff]
  constructor
  · rintro ⟨⟨n, rest'⟩, hread, heq⟩
    obtain ⟨hn, hcode⟩ := LittleEndian.take?_eq_some.1 hread
    cases heq
    rw [hcode, LittleEndian.ofInt64, UInt64.toUInt64_toInt64, UInt64.toNat_ofNat_of_lt' hn]
  · rintro rfl
    refine ⟨(x.toUInt64.toNat, rest), LittleEndian.take?_eq_some.2 ⟨x.toUInt64.toNat_lt, rfl⟩, ?_⟩
    simp only [UInt64.ofNat_toNat, Int64.toInt64_toUInt64]

private theorem toUInt8_toUInt32 (n : Int32) : n.toUInt32.toUInt8 = n.toInt8.toUInt8 := by
  apply UInt8.toBitVec_inj.1
  simp only [UInt32.toBitVec_toUInt8, Int8.toBitVec_toUInt8, Int32.toBitVec_toInt8, Int32.toBitVec_toUInt32]
  rw [BitVec.signExtend_eq_setWidth_of_le]
  decide

/-- A byte stands for the numbers that fit one, by their low byte. -/
theorem takeInt8?_eq_some {code rest : List UInt8} {x : Int64} :
    takeInt8? code = some (x, rest) ↔
      ∃ n : Int32, fitsByte n = true ∧ x = n.toInt64 ∧ code = n.toUInt32.toUInt8 :: rest := by
  constructor
  · intro h
    cases code with
    | nil => cases h
    | cons b code =>
      cases h
      have hlow := b.toInt8.minValue_le_toInt
      have hhigh := b.toInt8.toInt_le
      refine ⟨b.toInt8.toInt32, ?_, (Int8.toInt64_toInt32 _).symm, ?_⟩
      · simp only [fitsByte, Int8.toInt_toInt32, Bool.and_eq_true, decide_eq_true_eq]
        exact ⟨hlow, hhigh⟩
      · rw [toUInt8_toUInt32, Int8.toInt8_toInt32, UInt8.toUInt8_toInt8]
  · rintro ⟨n, hfits, rfl, rfl⟩
    simp only [fitsByte, Bool.and_eq_true, decide_eq_true_eq] at hfits
    have hext : n.toInt8.toInt64 = n.toInt64 := by
      rw [← Int64.toInt_inj, Int8.toInt_toInt64, Int32.toInt_toInt64, Int32.toInt_toInt8]
      rw [Int.bmod_eq_of_le] <;> omega
    rw [takeInt8?, toUInt8_toUInt32, Int8.toInt8_toUInt8, hext]

/-! ### Registers -/

theorem Reg.code_lt (r : Reg) : r.code < 8 := Nat.mod_lt _ (by decide)

/-- A register is known by the low three bits of its number and the fourth. -/
theorem Reg.ofNumber_eq_iff {n : Nat} (hn : n < 8) {ext : Bool} {r : Reg} :
    ofNumber (n + if ext then 8 else 0) = r ↔ r.code = n ∧ r.extended = ext := by
  constructor
  · rintro rfl
    interval_cases n <;> cases ext <;> exact ⟨rfl, rfl⟩
  · rintro ⟨rfl, rfl⟩
    cases r <;> rfl

/-! ### Memory operands -/

/-- Whether a displacement can be stored in that size. -/
def DispSize.Holds (disp : Int32) : DispSize → Prop
  | none => disp = 0
  | byte => fitsByte disp = true
  | dword => True

theorem DispSize.holds_select (base : Reg) (disp : Int32) : (select base disp).Holds disp := by
  unfold select
  split
  · rename_i h
    exact h.1
  · split
    · assumption
    · trivial

theorem DispSize.exists_mode {mode : Nat} (h : mode < 3) : ∃ size, DispSize.mode size = mode := by
  interval_cases mode
  · exact ⟨.none, rfl⟩
  · exact ⟨.byte, rfl⟩
  · exact ⟨.dword, rfl⟩

theorem takeDisp?_eq_some {size : DispSize} {code rest : List UInt8} {x : Int64} :
    takeDisp? size.mode code = some (x, rest) ↔
      ∃ disp, size.Holds disp ∧ x = disp.toInt64 ∧ code = size.bytes disp ++ rest := by
  cases size with
  | none =>
    constructor
    · intro h
      cases h
      exact ⟨0, rfl, rfl, rfl⟩
    · rintro ⟨disp, rfl, rfl, rfl⟩
      rfl
  | byte => exact takeInt8?_eq_some
  | dword =>
    refine takeInt32?_eq_some.trans ⟨?_, ?_⟩
    · rintro ⟨n, rfl, rfl⟩
      exact ⟨n, trivial, rfl, rfl⟩
    · rintro ⟨n, _, rfl, rfl⟩
      exact ⟨n, rfl, rfl⟩

/-- A SIB byte without index.  The scale says nothing then. -/
def sibByte (scale base : Nat) : UInt8 := UInt8.ofNat (scale * 64 + 32 + base)

theorem toNat_sibByte {scale base : Nat} (hs : scale < 4) (hb : base < 8) :
    (sibByte scale base).toNat = scale * 64 + 32 + base := by
  rw [sibByte, UInt8.toNat_ofNat_of_lt']
  simp only [UInt8.size]
  omega

/-- The base register stands in the ModR/M byte, or in a SIB byte after it. -/
theorem takeBase?_eq_some {rex : Rex} {mode rm : Nat} (hrm : rm < 8) {code rest : List UInt8} {base : Reg} :
    takeBase? rex mode rm code = some (base, rest) ↔
      base.extended = rex.b ∧
        ((base.code = rm ∧ rm ≠ 4 ∧ ¬(mode = 0 ∧ rm = 5) ∧ code = rest) ∨
          (rm = 4 ∧ ∃ scale < 4, code = sibByte scale base.code :: rest)) := by
  unfold takeBase?
  by_cases h4 : rm = 4
  · rw [if_pos h4]
    cases code with
    | nil => simp [h4]
    | cons sib code =>
      have hsib := sib.toNat_lt
      have hlow : sib.toNat % 8 < 8 := by omega
      simp only
      constructor
      · intro h
        split at h
        · rename_i hindex
          cases h
          obtain ⟨hcode, hext⟩ := (Reg.ofNumber_eq_iff hlow).1 (rfl : Reg.ofNumber (sib.toNat % 8 + rex.extB) = _)
          refine ⟨hext, .inr ⟨h4, sib.toNat / 64, by omega, ?_⟩⟩
          have hbyte : sib = sibByte (sib.toNat / 64) (sib.toNat % 8) := by
            rw [← UInt8.toNat_inj, toNat_sibByte (by omega) hlow]
            omega
          rw [hcode, ← hbyte]
        · cases h
      · rintro ⟨hext, ⟨_, hne, _⟩ | ⟨_, scale, hscale, hcode⟩⟩
        · exact absurd h4 hne
        · cases hcode
          have hb := base.code_lt
          have hindex : (scale * 64 + 32 + base.code) / 8 % 8 = 4 := by omega
          have hbase : (scale * 64 + 32 + base.code) % 8 = base.code := by omega
          rw [toNat_sibByte hscale hb, if_pos hindex, hbase, Rex.extB, (Reg.ofNumber_eq_iff hb).2 ⟨rfl, hext⟩]
  · rw [if_neg h4]
    by_cases hrip : mode = 0 ∧ rm = 5
    · rw [if_pos hrip]
      simp [hrip]
    · rw [if_neg hrip]
      simp only [Option.some.injEq, Prod.mk.injEq, Rex.extB, Reg.ofNumber_eq_iff hrm, h4, ne_eq, not_false_eq_true,
        hrip, true_and, false_and, or_false]
      tauto

/-! ### ModR/M -/

theorem toNat_modrmByte {mode field rm : Nat} (hm : mode < 4) (hf : field < 8) (hr : rm < 8) :
    (modrmByte mode field rm).toNat = mode * 64 + field * 8 + rm := by
  rw [modrmByte, UInt8.toNat_ofNat_of_lt']
  simp only [UInt8.size]
  omega

theorem exists_modrmByte (b : UInt8) :
    ∃ mode field rm, mode < 4 ∧ field < 8 ∧ rm < 8 ∧ b = modrmByte mode field rm := by
  have hb := b.toNat_lt
  refine ⟨b.toNat / 64, b.toNat / 8 % 8, b.toNat % 8, by omega, by omega, by omega, ?_⟩
  rw [← UInt8.toNat_inj, toNat_modrmByte (by omega) (by omega) (by omega)]
  omega

/-- The register that the r/m position names. -/
def Place.register : Place → Reg
  | .reg r => r
  | .mem base _ => base

/-- The ways of writing a place after a value in the reg field. -/
inductive Place.Spelled (field : Nat) : Place → List UInt8 → Prop where
  | reg (r : Reg) : Spelled field (.reg r) [modrmByte 3 field r.code]
  | plain {base : Reg} {disp : Int32} {size : DispSize} (hsize : size.Holds disp) (hbase : base.code ≠ 4)
      (hrip : ¬(size.mode = 0 ∧ base.code = 5)) :
      Spelled field (.mem base disp) (modrmByte size.mode field base.code :: size.bytes disp)
  | sib {base : Reg} {disp : Int32} {size : DispSize} {scale : Nat} (hsize : size.Holds disp) (hscale : scale < 4) :
      Spelled field (.mem base disp) (modrmByte size.mode field 4 :: sibByte scale base.code :: size.bytes disp)

/-- The encoder writes a place in one of these ways. -/
theorem Place.spelled_modrm (field : Nat) (place : Place) : place.Spelled field (modrm field place) := by
  cases place with
  | reg r => exact .reg r
  | mem base disp =>
    have hsize := DispSize.holds_select base disp
    simp only [modrm]
    by_cases h4 : base.code = 4
    · have hspelled : Spelled field (.mem base disp) (modrmByte (DispSize.select base disp).mode field 4 ::
          sibByte 0 base.code :: (DispSize.select base disp).bytes disp) := .sib hsize (by decide)
      rw [if_pos h4, h4]
      rw [h4] at hspelled
      exact hspelled
    · rw [if_neg h4]
      refine .plain hsize h4 ?_
      rintro ⟨hmode, h5⟩
      unfold DispSize.select at hmode
      split at hmode
      · rename_i h
        exact h.2 h5
      · split at hmode <;> cases hmode

private theorem takeModrm?_byte {rex : Rex} {mode field rm : Nat} (hm : mode < 4) (hf : field < 8) (hr : rm < 8)
    (code : List UInt8) :
    takeModrm? rex (modrmByte mode field rm :: code) =
      if mode = 3 then some ((.ofNumber (field + rex.extR), .reg (.ofNumber (rm + rex.extB))), code)
      else (takeBase? rex mode rm code).bind fun b => (takeDisp? mode b.2).bind fun d =>
        some ((.ofNumber (field + rex.extR), .mem b.1 d.1.toInt32), d.2) := by
  have hmode : (mode * 64 + field * 8 + rm) / 64 = mode := by omega
  have hfield : (mode * 64 + field * 8 + rm) / 8 % 8 = field := by omega
  have hrm : (mode * 64 + field * 8 + rm) % 8 = rm := by omega
  simp only [takeModrm?, toNat_modrmByte hm hf hr, hmode, hfield, hrm]
  rfl

private theorem spelled_of_takeModrm? {rex : Rex} {code rest : List UInt8} {reg : Reg} {op : Operand}
    (h : takeModrm? rex code = some ((reg, op), rest)) :
    reg.extended = rex.r ∧ ∃ (place : Place) (own : List UInt8), op = place.operand ∧
      place.register.extended = rex.b ∧ place.Spelled reg.code own ∧ code = own ++ rest := by
  cases code with
  | nil => cases h
  | cons b code =>
    obtain ⟨mode, field, rm, hm, hf, hr, rfl⟩ := exists_modrmByte b
    obtain ⟨hcode, hext⟩ := (Reg.ofNumber_eq_iff hf).1 (rfl : Reg.ofNumber (field + rex.extR) = _)
    rw [takeModrm?_byte hm hf hr] at h
    split at h
    · rename_i hmode
      subst hmode
      cases h
      obtain ⟨hcode', hext'⟩ := (Reg.ofNumber_eq_iff hr).1 (rfl : Reg.ofNumber (rm + rex.extB) = _)
      refine ⟨hext, .reg (.ofNumber (rm + rex.extB)), _, rfl, hext', .reg _, ?_⟩
      rw [hcode, hcode']
      rfl
    · obtain ⟨⟨base, code₁⟩, hbase, h⟩ := Option.bind_eq_some_iff.1 h
      obtain ⟨⟨x, code₂⟩, hdisp, h⟩ := Option.bind_eq_some_iff.1 h
      cases h
      obtain ⟨size, rfl⟩ := DispSize.exists_mode (show mode < 3 by omega)
      obtain ⟨disp, hsize, rfl, rfl⟩ := takeDisp?_eq_some.1 hdisp
      refine ⟨hext, .mem base disp, ?_⟩
      rw [Int32.toInt32_toInt64, hcode]
      obtain ⟨hext', ⟨rfl, hne, hrip, rfl⟩ | ⟨rfl, scale, hscale, rfl⟩⟩ := (takeBase?_eq_some hr).1 hbase
      · exact ⟨_, rfl, hext', .plain hsize hne hrip, rfl⟩
      · exact ⟨_, rfl, hext', .sib hsize hscale, rfl⟩

private theorem takeModrm?_spelled {rex : Rex} {reg : Reg} {place : Place} {own : List UInt8}
    (hext : reg.extended = rex.r) (hb : place.register.extended = rex.b) (h : place.Spelled reg.code own)
    (rest : List UInt8) : takeModrm? rex (own ++ rest) = some ((reg, place.operand), rest) := by
  have hreg : Reg.ofNumber (reg.code + rex.extR) = reg := (Reg.ofNumber_eq_iff reg.code_lt).2 ⟨rfl, hext⟩
  cases h with
  | reg r =>
    have hr : Reg.ofNumber (r.code + rex.extB) = r := (Reg.ofNumber_eq_iff r.code_lt).2 ⟨rfl, hb⟩
    rw [List.cons_append, takeModrm?_byte (by decide) reg.code_lt r.code_lt, if_pos rfl, hreg, hr]
    rfl
  | @plain base disp size hsize hbase hrip =>
    have hmode : size.mode < 3 := by cases size <;> decide
    have hread : takeBase? rex size.mode base.code (size.bytes disp ++ rest) = some (base, size.bytes disp ++ rest) :=
      (takeBase?_eq_some base.code_lt).2 ⟨hb, .inl ⟨rfl, hbase, hrip, rfl⟩⟩
    rw [List.cons_append, takeModrm?_byte (by omega) reg.code_lt base.code_lt, if_neg (by omega), hread]
    simp only [Option.bind_some, takeDisp?_eq_some.2 ⟨disp, hsize, rfl, rfl⟩, hreg, Int32.toInt32_toInt64]
    rfl
  | @sib base disp size scale hsize hscale =>
    have hmode : size.mode < 3 := by cases size <;> decide
    have hread : takeBase? rex size.mode 4 (sibByte scale base.code :: (size.bytes disp ++ rest)) =
        some (base, size.bytes disp ++ rest) :=
      (takeBase?_eq_some (by decide)).2 ⟨hb, .inr ⟨rfl, scale, hscale, rfl⟩⟩
    rw [List.cons_append, List.cons_append, takeModrm?_byte (by omega) reg.code_lt (by decide), if_neg (by omega),
      hread]
    simp only [Option.bind_some, takeDisp?_eq_some.2 ⟨disp, hsize, rfl, rfl⟩, hreg, Int32.toInt32_toInt64]
    rfl

theorem takeModrm?_eq_some {rex : Rex} {code rest : List UInt8} {reg : Reg} {op : Operand} :
    takeModrm? rex code = some ((reg, op), rest) ↔
      reg.extended = rex.r ∧ ∃ (place : Place) (own : List UInt8), op = place.operand ∧
        place.register.extended = rex.b ∧ place.Spelled reg.code own ∧ code = own ++ rest := by
  refine ⟨spelled_of_takeModrm?, ?_⟩
  rintro ⟨hext, place, own, rfl, hb, hspelled, rfl⟩
  exact takeModrm?_spelled hext hb hspelled rest

end StackMachine.X86
