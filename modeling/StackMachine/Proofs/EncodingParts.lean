import Mathlib
import StackMachine.Proofs.Encoding

/-!
# Encoding in parts

The bytes of an instruction depend on where it stands, but whether it has any does not.  So the code of a list is the
code of a front part followed by that of the rest, and the first instruction that cannot be encoded decides the error.

* `Insn.Faulty i e`: the instruction has no form, wherever it stands.  This is all that can go wrong with one
  instruction (`Insn.encode_eq_error`).
* `Assembly.FaultAt asm index e`: the error of the instruction at a position, which may also be a comparison that the
  next instruction does not use.
* `encodeFrom_append` and `encodeFrom_add`: a part of a list after another one, and with positions counted from its own
  start.
* `encode_eq_error`: the error of a list is that of its first fault.
-/

namespace StackMachine.X86

/-- The error for a list that stands after `n` further instructions. -/
def AsmError.shift (n : Nat) : AsmError → AsmError
  | .danglingCompare index => .danglingCompare (index + n)
  | e => e

/-! ### Faults of one instruction -/

namespace Operand

def isReg : Operand → Bool
  | reg _ => true
  | _ => false

def isMem : Operand → Bool
  | mem _ _ => true
  | _ => false

def isImm : Operand → Bool
  | imm _ => true
  | _ => false

end Operand

namespace Insn

variable {i : Insn} {here : UInt64} {e : AsmError}

/-- Nothing is written to an immediate, at most one of two operands is in memory, and a conditional move leads to a
register and takes no immediate. -/
def legal : Insn → Bool
  | mov dst src | alu _ dst src => !dst.isImm && !(dst.isMem && src.isMem)
  | cmovl dst src => dst.isReg && !src.isImm
  | push _ | pop _ | call _ | ret => true

/-- The immediate that must fit in 32 bits: any but that of a move to a register or of a call. -/
def narrow? : Insn → Option Int64
  | mov (.reg _) (.imm _) => none
  | mov _ (.imm value) | alu _ _ (.imm value) => some value
  | _ => none

/-- The instruction cannot be encoded, wherever it stands. -/
@[mk_iff]
inductive Faulty (i : Insn) : AsmError → Prop where
  | operands {dst src} (hops : i.operands = [dst, src]) (h : i.legal = false) :
      Faulty i (.invalidOperands i.mnemonic dst src)
  | immediate {value} (hlegal : i.legal = true) (hv : i.narrow? = some value)
      (h : ¬(-0x80000000 ≤ value.toInt ∧ value.toInt < 0x80000000)) : Faulty i (.immediateOutOfRange i.mnemonic value)

/-- Only a comparison is told where it stands. -/
theorem Faulty.shift_eq (h : i.Faulty e) (n : Nat) : e.shift n = e := by
  cases h with
  | operands => rfl
  | immediate => rfl

private theorem imm32_eq_error {mnemonic : String} {value : Int64} :
    imm32 mnemonic value = .error e ↔
      ¬(-0x80000000 ≤ value.toInt ∧ value.toInt < 0x80000000) ∧ e = .immediateOutOfRange mnemonic value := by
  have hfits := int32?_isSome value.toInt
  unfold imm32
  cases hn : Word.int32? value.toInt with
  | some n =>
    rw [hn] at hfits
    have hin := hfits.1 rfl
    simp [hin]
  | none =>
    rw [hn] at hfits
    have hout : ¬(-0x80000000 ≤ value.toInt ∧ value.toInt < 0x80000000) := by simpa using hfits
    simp [hout, eq_comm]

private theorem movForm_eq_error {dst src : Operand} : movForm dst src = .error e ↔ (mov dst src).Faulty e := by
  rw [faulty_iff]
  cases dst with
  | reg d =>
    cases src with
    | imm value =>
      -- a move to a register has a form for every immediate
      simp only [movForm]
      split <;> simp [legal, narrow?, Operand.isImm, Operand.isMem]
    | _ => simp [movForm, legal, narrow?, Operand.isImm, Operand.isMem]
  | mem base disp =>
    cases src <;> simp [movForm, map_eq_error, imm32_eq_error, legal, narrow?, Insn.operands, mnemonic, Operand.isImm,
      Operand.isMem, eq_comm (a := e)]
  | imm value => cases src <;> simp [movForm, legal, Insn.operands, mnemonic, Operand.isImm, eq_comm]

private theorem aluForm_eq_error {op : AluOp} {dst src : Operand} :
    aluForm op dst src = .error e ↔ (alu op dst src).Faulty e := by
  rw [faulty_iff]
  cases dst <;> cases src <;> simp [aluForm, map_eq_error, imm32_eq_error, legal, narrow?, Insn.operands, mnemonic,
    Operand.isImm, Operand.isMem, eq_comm (a := e)]

private theorem cmovForm_eq_error {dst src : Operand} :
    cmovForm dst src = .error e ↔ (cmovl dst src).Faulty e := by
  rw [faulty_iff]
  cases dst <;> cases src <;> simp [cmovForm, legal, narrow?, Insn.operands, mnemonic, Operand.isImm, Operand.isReg,
    eq_comm (a := e)]

/-- Whether an instruction can be encoded, and the error if not, does not depend on where it stands. -/
theorem encode_eq_error : i.encode here = .error e ↔ i.Faulty e := by
  rw [encode, map_eq_error]
  cases i with
  | mov dst src => rw [forms, map_eq_error, movForm_eq_error]
  | alu op dst src => rw [forms, map_eq_error, aluForm_eq_error]
  | cmovl dst src => rw [forms, map_eq_error, cmovForm_eq_error]
  | push r | pop r | call target | ret => simp [forms, faulty_iff, legal, narrow?]

theorem legal_of_not_faulty (h : ∀ e, ¬i.Faulty e) : i.legal = true := by
  by_contra hlegal
  rw [Bool.not_eq_true] at hlegal
  cases i with
  | mov dst src | alu op dst src | cmovl dst src => exact h _ (.operands rfl hlegal)
  | push r | pop r | call target | ret => cases hlegal

theorem narrow_of_not_faulty (h : ∀ e, ¬i.Faulty e) {value : Int64} (hv : i.narrow? = some value) :
    -0x80000000 ≤ value.toInt ∧ value.toInt < 0x80000000 := by
  by_contra hwide
  exact h _ (.immediate (legal_of_not_faulty h) hv hwide)

end Insn

/-! ### Lists of instructions -/

namespace Assembly

variable {a b asm rest : Assembly} {i : Insn} {index n : Nat} {here target : UInt64} {e : AsmError}
  {front : List UInt8}

/-- The first instruction, if it can be encoded, goes before the rest. -/
theorem encodeFrom_of_encode {code : List UInt8} (hused : ¬(i.isCompare && !consumesCompare rest) = true)
    (hi : i.encode here = .ok code) :
    encodeFrom index here (i :: rest) =
      (encodeFrom (index + 1) (here + UInt64.ofNat code.length) rest).map (code ++ ·) := by
  rw [encodeFrom, if_neg hused, hi]
  simp only
  cases encodeFrom (index + 1) (here + UInt64.ofNat code.length) rest with
  | error e => rfl
  | ok more => rfl

/-- What a list comes to after one that is encoded.  The last instruction of that is no comparison, which would not be
used. -/
theorem encodeFrom_append (ha : encodeFrom index here a = .ok front) :
    encodeFrom index here (a ++ b) =
      (encodeFrom (index + a.length) (here + UInt64.ofNat front.length) b).map (front ++ ·) := by
  induction a generalizing index here front with
  | nil =>
    cases ha
    have hhere : here + UInt64.ofNat 0 = here := UInt64.add_zero here
    simp only [List.nil_append, List.length_nil, Nat.add_zero, hhere]
    cases encodeFrom index here b with
    | error e => rfl
    | ok more => rfl
  | cons i rest ih =>
    have hused : ¬(i.isCompare && !consumesCompare rest) = true := by
      intro hdangling
      rw [encodeFrom, if_pos hdangling] at ha
      cases ha
    have hused' : ¬(i.isCompare && !consumesCompare (rest ++ b)) = true := by
      cases rest with
      | nil =>
        have hi : i.isCompare = false := by simpa [consumesCompare] using hused
        simp [hi]
      | cons => exact hused
    cases hi : i.encode here with
    | error e =>
      rw [encodeFrom, if_neg hused, hi] at ha
      cases ha
    | ok code =>
      rw [encodeFrom_of_encode hused hi] at ha
      obtain ⟨more, hmore, rfl⟩ := map_eq_ok ha
      have hshift : here + UInt64.ofNat (code ++ more).length =
          here + UInt64.ofNat code.length + UInt64.ofNat more.length := by
        rw [List.length_append, UInt64.ofNat_add, UInt64.add_assoc]
      have hindex : index + (i :: rest).length = index + 1 + rest.length := by
        rw [List.length_cons]
        omega
      rw [List.cons_append, encodeFrom_of_encode hused' hi, ih hmore, hshift, hindex]
      cases encodeFrom (index + 1 + rest.length) (here + UInt64.ofNat code.length + UInt64.ofNat more.length) b with
      | error e => rfl
      | ok back => simp [Except.map]

/-- The position where a list starts shows only in the error for a comparison. -/
theorem encodeFrom_add (index n : Nat) (here : UInt64) (asm : Assembly) :
    encodeFrom (index + n) here asm = (encodeFrom index here asm).mapError (AsmError.shift n) := by
  induction asm generalizing index here with
  | nil => rfl
  | cons i rest ih =>
    by_cases hused : (i.isCompare && !consumesCompare rest) = true
    · rw [encodeFrom, encodeFrom, if_pos hused, if_pos hused]
      rfl
    · cases hi : i.encode here with
      | error e =>
        rw [encodeFrom, encodeFrom, if_neg hused, if_neg hused, hi]
        simp only [Except.mapError, (Insn.encode_eq_error.1 hi).shift_eq]
      | ok code =>
        rw [encodeFrom_of_encode hused hi, encodeFrom_of_encode hused hi, Nat.add_right_comm, ih]
        cases encodeFrom (index + 1) (here + UInt64.ofNat code.length) rest with
        | error e => rfl
        | ok more => rfl

/-! ### The first fault -/

/-- A comparison stands there whose result the next instruction does not use. -/
def DanglingAt (asm : Assembly) (index : Nat) : Prop :=
  (∃ dst src, asm[index]? = some (.alu .cmp dst src)) ∧ ∀ dst src, asm[index + 1]? ≠ some (.cmovl dst src)

/-- The error of the instruction at a position. -/
inductive FaultAt (asm : Assembly) (index : Nat) : AsmError → Prop where
  | dangling (h : DanglingAt asm index) : FaultAt asm index (.danglingCompare index)
  | insn {i : Insn} {e : AsmError} (hi : asm[index]? = some i) (hused : ¬DanglingAt asm index) (h : i.Faulty e) :
      FaultAt asm index e

/-- The error of an instruction before which there is no fault. -/
def FirstFault (asm : Assembly) (e : AsmError) : Prop :=
  ∃ index, FaultAt asm index e ∧ ∀ k < index, ∀ e', ¬FaultAt asm k e'

theorem danglingAt_zero : DanglingAt (i :: rest) 0 ↔ (i.isCompare && !consumesCompare rest) = true := by
  have hcompare : i.isCompare = true ↔ ∃ dst src, i = .alu .cmp dst src := by
    cases i with
    | alu op dst src => cases op <;> simp [Insn.isCompare]
    | _ => simp [Insn.isCompare]
  have hnext : consumesCompare rest = true ↔ ∃ dst src, rest[0]? = some (.cmovl dst src) := by
    cases rest with
    | nil => simp [consumesCompare]
    | cons j rest => cases j <;> simp [consumesCompare, Insn.isCMov]
  rw [Bool.and_eq_true, Bool.not_eq_true', ← Bool.not_eq_true, hcompare, hnext]
  simp [DanglingAt]

theorem danglingAt_succ : DanglingAt (i :: rest) (index + 1) ↔ DanglingAt rest index := by
  simp [DanglingAt]

theorem faultAt_zero : FaultAt (i :: rest) 0 e ↔
    DanglingAt (i :: rest) 0 ∧ e = .danglingCompare 0 ∨ ¬DanglingAt (i :: rest) 0 ∧ i.Faulty e := by
  constructor
  · intro h
    cases h with
    | dangling h => exact .inl ⟨h, rfl⟩
    | insn hi hused h =>
      cases hi
      exact .inr ⟨hused, h⟩
  · rintro (⟨h, rfl⟩ | ⟨hused, h⟩)
    · exact .dangling h
    · exact .insn rfl hused h

/-- In a longer list a fault stands one position further on. -/
theorem faultAt_succ : FaultAt (i :: rest) (index + 1) e ↔ ∃ e', FaultAt rest index e' ∧ e'.shift 1 = e := by
  constructor
  · intro h
    cases h with
    | dangling h => exact ⟨_, .dangling (danglingAt_succ.1 h), rfl⟩
    | insn hi hused h => exact ⟨e, .insn (by simpa using hi) (fun hd => hused (danglingAt_succ.2 hd)) h, h.shift_eq 1⟩
  · rintro ⟨e', h, rfl⟩
    cases h with
    | dangling h => exact .dangling (danglingAt_succ.2 h)
    | insn hi hused h =>
      rw [h.shift_eq]
      exact .insn (by simpa using hi) (fun hd => hused (danglingAt_succ.1 hd)) h

theorem not_faultAt_nil : ¬FaultAt [] index e := by
  rintro (⟨⟨_, _, h⟩, _⟩ | ⟨h, _, _⟩)
  · simp at h
  · simp at h

/-- The first fault is that of the first instruction, or else that of the rest. -/
theorem firstFault_cons : FirstFault (i :: rest) e ↔
    FaultAt (i :: rest) 0 e ∨ (∀ e', ¬FaultAt (i :: rest) 0 e') ∧ ∃ e', FirstFault rest e' ∧ e'.shift 1 = e := by
  constructor
  · rintro ⟨index, h, hfirst⟩
    cases index with
    | zero => exact .inl h
    | succ index =>
      obtain ⟨e', h', rfl⟩ := faultAt_succ.1 h
      refine .inr ⟨hfirst 0 (Nat.succ_pos _), e', ⟨index, h', fun k hk e'' hk' => ?_⟩, rfl⟩
      exact hfirst (k + 1) (Nat.succ_lt_succ hk) _ (faultAt_succ.2 ⟨e'', hk', rfl⟩)
  · rintro (h | ⟨hzero, e', ⟨index, h, hfirst⟩, rfl⟩)
    · exact ⟨0, h, fun k hk => absurd hk (Nat.not_lt_zero k)⟩
    · refine ⟨index + 1, faultAt_succ.2 ⟨e', h, rfl⟩, fun k hk e'' hk' => ?_⟩
      cases k with
      | zero => exact hzero e'' hk'
      | succ k =>
        obtain ⟨e₁, h₁, _⟩ := faultAt_succ.1 hk'
        exact hfirst k (Nat.lt_of_succ_lt_succ hk) e₁ h₁

/-- The error of a list is that of its first fault, at whatever address it starts. -/
theorem encode_eq_error : encode asm target = .error e ↔ FirstFault asm e := by
  unfold encode
  induction asm generalizing target e with
  | nil =>
    refine iff_of_false (by simp [encodeFrom]) ?_
    rintro ⟨index, h, _⟩
    exact not_faultAt_nil h
  | cons i rest ih =>
    by_cases hdangling : DanglingAt (i :: rest) 0
    · rw [encodeFrom, if_pos (danglingAt_zero.1 hdangling)]
      simp [firstFault_cons, faultAt_zero, hdangling, eq_comm]
    · have hused : ¬(i.isCompare && !consumesCompare rest) = true := fun h => hdangling (danglingAt_zero.2 h)
      have hhead : ∀ e', FaultAt (i :: rest) 0 e' ↔ i.encode target = .error e' := by
        intro e'
        simp [faultAt_zero, hdangling, Insn.encode_eq_error]
      rw [firstFault_cons]
      simp only [hhead]
      cases hi : i.encode target with
      | error e₀ =>
        rw [encodeFrom, if_neg hused, hi]
        simp
      | ok code =>
        rw [encodeFrom_of_encode hused hi, map_eq_error, encodeFrom_add]
        have hrest : ∀ e, encodeFrom 0 (target + UInt64.ofNat code.length) rest = .error e ↔ FirstFault rest e :=
          fun e => ih
        simp only [← hrest]
        cases encodeFrom 0 (target + UInt64.ofNat code.length) rest <;> simp [Except.mapError]

/-- A list without faults is encoded at every address, and no other is. -/
theorem exists_encode_iff : (∃ code, encode asm target = .ok code) ↔ ∀ index e, ¬FaultAt asm index e := by
  constructor
  · rintro ⟨code, hcode⟩ index e h
    classical
    have hfault : ∃ index e, FaultAt asm index e := ⟨index, e, h⟩
    obtain ⟨e', h'⟩ := Nat.find_spec hfault
    have hfirst : FirstFault asm e' := ⟨Nat.find hfault, h', fun k hk e'' hk' => Nat.find_min hfault hk ⟨e'', hk'⟩⟩
    rw [encode_eq_error.2 hfirst] at hcode
    cases hcode
  · intro hsound
    cases hcode : encode asm target with
    | ok code => exact ⟨code, rfl⟩
    | error e =>
      obtain ⟨index, h, _⟩ := encode_eq_error.1 hcode
      exact absurd h (hsound index e)

/-- In a list that is encoded every instruction has a form and every comparison is used. -/
theorem sound_of_encode {code : List UInt8} (h : encode asm target = .ok code) :
    (∀ i ∈ asm, ∀ e, ¬i.Faulty e) ∧ ∀ index, ¬DanglingAt asm index := by
  have hsound := exists_encode_iff.1 ⟨code, h⟩
  have hused : ∀ index, ¬DanglingAt asm index := fun index hdangling => hsound index _ (.dangling hdangling)
  refine ⟨fun i hi e hfaulty => ?_, hused⟩
  obtain ⟨index, hindex⟩ := List.getElem?_of_mem hi
  exact hsound index e (.insn hindex (hused index) hfaulty)

/-- The code of a list is that of a front part followed by that of the rest at the address where the front part ends.
Where the rest has none, its error is that of the whole list, up to the position in it.  No address changes whether
there is code, or the error, which is that of the first instruction at fault. -/
theorem encode_in_parts (xs ys : Assembly) (target : UInt64) :
    (∀ front, encode xs target = .ok front →
      encode (xs ++ ys) target =
        ((encode ys (target + UInt64.ofNat front.length)).mapError (AsmError.shift xs.length)).map (front ++ ·)) ∧
      (∀ e, encode xs target = .error e ↔ FirstFault xs e) ∧
      (∀ target' e, encode xs target = .error e ↔ encode xs target' = .error e) ∧
      ∀ operand, encode xs target ≠ .error (.invalidCallTarget operand) := by
  refine ⟨fun front hfront => ?_, fun e => encode_eq_error, fun target' e => ?_, fun operand h => ?_⟩
  · unfold encode at hfront ⊢
    rw [encodeFrom_append hfront, encodeFrom_add]
  · rw [encode_eq_error, encode_eq_error]
  · obtain ⟨index, h, _⟩ := encode_eq_error.1 h
    cases h with
    | insn _ _ h => cases h

/-- A comparison whose result is used. -/
def usedCompare : Assembly :=
  [.push .r8, .alu .cmp (.reg .r8) (.reg .r9), .cmovl (.reg .rax) (.reg .rcx)]

/-- A call, and a comparison whose result is not used. -/
def unusedCompare : Assembly := [.call (.imm 0x1000), .alu .cmp (.reg .r8) (.imm 1), .ret]

/-- The second part starts beyond the end of the address space.  The position in its error moves by three. -/
theorem encode_in_parts_unusedCompare :
    ∃ front, encode usedCompare 0xFFFFFFFFFFFFFFFA = .ok front ∧
      0xFFFFFFFFFFFFFFFA + UInt64.ofNat front.length = 3 ∧ encode unusedCompare 3 = .error (.danglingCompare 1) ∧
      ∀ target, encode (usedCompare ++ unusedCompare) target = .error (.danglingCompare 4) := by
  obtain ⟨front, hfront, hlen⟩ : ∃ front, encode usedCompare 0xFFFFFFFFFFFFFFFA = .ok front ∧ front.length = 9 :=
    ⟨_, rfl, by decide +kernel⟩
  have hnext : 0xFFFFFFFFFFFFFFFA + UInt64.ofNat front.length = 3 := by
    rw [hlen]
    rfl
  have hback : encode unusedCompare 3 = .error (.danglingCompare 1) := by decide +kernel
  refine ⟨front, hfront, hnext, hback, fun target => ?_⟩
  obtain ⟨happend, _⟩ := encode_in_parts usedCompare unusedCompare 0xFFFFFFFFFFFFFFFA
  obtain ⟨_, _, hanywhere, _⟩ := encode_in_parts (usedCompare ++ unusedCompare) [] target
  rw [hanywhere 0xFFFFFFFFFFFFFFFA, happend _ hfront, hnext, hback]
  rfl

end Assembly

end StackMachine.X86
