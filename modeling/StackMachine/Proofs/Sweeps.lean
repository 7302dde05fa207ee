import Mathlib
import StackMachine.Bytecode.Sweep

/-!
# Streams and their instructions

Encoding and sweeping undo each other.  A stream made of encoded instructions is swept into those instructions.
Whatever a stream is, encoding what its sweep finds gives back the stream up to the position where the sweep stops.

* `Insn.decode_eq_ok`: an instruction is decoded at a position exactly if its words stand there.
* `Insn.decode_stops`: otherwise the word there is no opcode, or the stream ends before its operand.
* `Sweep.ofCodeFrom_append`: the sweep of encoded instructions after other words.
* `Sweep.ofCodeFrom_found`: what a sweep finds and where it stops.
-/

namespace StackMachine

/-! ### One instruction -/

namespace Opcode

theorem word_of_ofWord? {w : UInt64} {op : Opcode} (h : ofWord? w = some op) : op.word = w := by
  rw [word, index_of_ofIndex? h, UInt64.ofNat_toNat]

theorem ofWord?_eq_none {w : UInt64} : ofWord? w = none ↔ 18 ≤ w.toNat := by
  unfold ofWord?
  generalize w.toNat = n
  constructor
  · intro h
    by_contra hlt
    push Not at hlt
    interval_cases n <;> cases h
  · intro h
    unfold ofIndex?
    split <;> first | omega | rfl

end Opcode

namespace Insn

variable {code : Array UInt64} {pc : Nat} {i : Insn}

theorem ofOpcode_operand? (i : Insn) (w : UInt64) : ofOpcode i.opcode (i.operand?.getD w) = i := by
  cases i <;> simp [ofOpcode, operand?, opcode]

theorem isSome_operand? (i : Insn) : i.operand?.isSome = i.opcode.hasOperand := by
  cases i <;> rfl

theorem encode_ofOpcode (op : Opcode) (w : UInt64) :
    (ofOpcode op w).encode = op.word :: if op.hasOperand then [w] else [] := by
  cases op <;> simp [encode, ofOpcode, opcode, operand?, Opcode.hasOperand]

/-- The stream from a position on starts with the word there. -/
private theorem drop_eq_cons {w : UInt64} (h : code[pc]? = some w) :
    code.toList.drop pc = w :: code.toList.drop (pc + 1) := by
  obtain ⟨hlt, rfl⟩ := Array.getElem?_eq_some_iff.1 h
  rw [List.drop_eq_getElem_cons (by simpa using hlt), Array.getElem_toList]

private theorem getElem?_of_drop {w : UInt64} {rest : List UInt64} (h : code.toList.drop pc = w :: rest) :
    code[pc]? = some w ∧ code.toList.drop (pc + 1) = rest := by
  constructor
  · rw [← Array.getElem?_toList, ← List.head?_drop, h]
    rfl
  · rw [← List.drop_drop, h]
    rfl

/-- An instruction is decoded where its words stand, and nowhere else. -/
theorem decode_eq_ok : decode code pc = .ok i ↔ i.encode <+: code.toList.drop pc := by
  constructor
  · intro h
    unfold decode at h
    split at h
    · cases h
    rename_i w hw
    split at h
    · cases h
    rename_i op hop
    rw [drop_eq_cons hw, ← Opcode.word_of_ofWord? hop]
    split at h
    · rename_i hoperand
      split at h
      · rename_i operand hnext
        cases h
        rw [encode_ofOpcode, if_pos hoperand, drop_eq_cons hnext]
        exact ⟨_, rfl⟩
      · cases h
    · rename_i hoperand
      cases h
      rw [encode_ofOpcode, if_neg hoperand]
      exact ⟨_, rfl⟩
  · rintro ⟨rest, hrest⟩
    obtain ⟨hw, hdrop⟩ := getElem?_of_drop hrest.symm
    have hi := ofOpcode_operand? i 0
    have hsome := i.isSome_operand?
    unfold decode
    simp only [hw, Opcode.ofWord?_word]
    cases hoperand : i.operand? with
    | none =>
      rw [hoperand] at hi hsome
      rw [← hsome, if_neg (by simp)]
      exact congrArg Except.ok hi
    | some w =>
      rw [hoperand] at hi hsome hdrop
      obtain ⟨hnext, _⟩ := getElem?_of_drop hdrop
      rw [← hsome, if_pos (by simp)]
      simp only [hnext]
      exact congrArg Except.ok hi

/-- Why no instruction starts at a position of the stream. -/
theorem decode_stops {e : DecodeError} (hpc : pc < code.size) (h : decode code pc = .error e) :
    ∃ w, code[pc]? = some w ∧
      (18 ≤ w.toNat ∧ e = .unknownOpcode pc w ∨
        ∃ op, Opcode.ofWord? w = some op ∧ op.size = 2 ∧ pc + 1 = code.size ∧ e = .truncated pc (some op) 1) := by
  obtain ⟨w, hw⟩ : ∃ w, code[pc]? = some w := ⟨_, Array.getElem?_eq_getElem hpc⟩
  refine ⟨w, hw, ?_⟩
  simp only [decode, hw] at h
  split at h
  · rename_i hop
    cases h
    exact .inl ⟨Opcode.ofWord?_eq_none.1 hop, rfl⟩
  rename_i op hop
  split at h
  · rename_i hoperand
    split at h
    · cases h
    rename_i hnext
    cases h
    have hend : code.size ≤ pc + 1 := Array.getElem?_eq_none_iff.1 hnext
    exact .inr ⟨op, hop, if_pos hoperand, by omega, rfl⟩
  · cases h

end Insn

/-! ### Whole streams -/

namespace Sweep

open Insn (encode)

/-- The instructions one after the other, each with the number of words before it. -/
def located (insns : List Insn) : List (Nat × Insn) :=
  insns.mapIdx fun k i => (((insns.take k).flatMap encode).length, i)

/-- The words of the instructions that were found. -/
def words (s : Sweep) : List UInt64 := s.insns.flatMap fun x => x.2.encode

theorem located_cons (i : Insn) (insns : List Insn) :
    located (i :: insns) = (0, i) :: (located insns).map fun x => (i.size + x.1, x.2) := by
  refine List.ext_getElem? fun k => ?_
  cases k with
  | zero => simp [located]
  | succ k => simp [located, Insn.length_encode, Function.comp_def]

/-- Encoded instructions after other words are found where they stand. -/
theorem ofCodeFrom_append (before : List UInt64) (insns : List Insn) :
    ofCodeFrom (before ++ insns.flatMap encode).toArray before.length =
      ⟨(located insns).map fun x => (before.length + x.1, x.2), none⟩ := by
  induction insns generalizing before with
  | nil =>
    rw [ofCodeFrom, if_neg (by simp)]
    rfl
  | cons i insns ih =>
    have hpos := i.size_pos
    have hlen := i.length_encode
    have hdecode : Insn.decode (before ++ (i :: insns).flatMap encode).toArray before.length = .ok i := by
      rw [Insn.decode_eq_ok]
      simp
    have hrest := ih (before ++ i.encode)
    rw [ofCodeFrom, if_pos (by simp; omega)]
    simp only [hdecode]
    rw [List.flatMap_cons, ← List.append_assoc, ← hlen, ← List.length_append, hrest, located_cons]
    simp [hlen, Nat.add_assoc]

theorem ofCode_encode (insns : List Insn) : ofCode (insns.flatMap encode).toArray = ⟨located insns, none⟩ := by
  have h := ofCodeFrom_append [] insns
  simpa [ofCode] using h

/-- What a sweep from a position on has found: the instructions that stand there, up to the end of the stream or up to
where none can be decoded. -/
structure Found (code : Array UInt64) (pc : Nat) (s : Sweep) : Prop where
  located : s.insns = (located (s.insns.map Prod.snd)).map fun x => (pc + x.1, x.2)
  front : s.words <+: code.toList.drop pc
  whole : s.error = none → s.words = code.toList.drop pc
  stopped : ∀ e, s.error = some e →
    pc + s.words.length < code.size ∧ Insn.decode code (pc + s.words.length) = .error e

theorem ofCodeFrom_found (code : Array UInt64) (pc : Nat) : (ofCodeFrom code pc).Found code pc := by
  fun_induction ofCodeFrom code pc with
  | case1 pc hlt i hdecode rest ih =>
    obtain ⟨after, hafter⟩ := Insn.decode_eq_ok.1 hdecode
    have hdrop : code.toList.drop (pc + i.size) = after := by
      rw [← List.drop_drop, ← hafter, List.drop_left' i.length_encode]
    have hwords : words ⟨(pc, i) :: rest.insns, rest.error⟩ = i.encode ++ rest.words := rfl
    have hlen : pc + i.size + rest.words.length = pc + (i.encode ++ rest.words).length := by
      rw [List.length_append, i.length_encode, Nat.add_assoc]
    refine ⟨?_, ?_, ?_, ?_⟩
    · have hrest := ih.located
      simp only [List.map_cons, located_cons, List.map_map, Function.comp_def, ← Nat.add_assoc, Nat.add_zero]
      exact congrArg _ hrest
    · rw [hwords, ← hafter, List.prefix_append_right_inj, ← hdrop]
      exact ih.front
    · intro hnone
      rw [hwords, ← hafter, ← hdrop, ih.whole hnone]
    · intro e he
      rw [hwords, ← hlen]
      exact ih.stopped e he
  | case2 pc hlt e hdecode =>
    refine ⟨rfl, List.nil_prefix, by simp, ?_⟩
    intro e' he
    cases he
    exact ⟨hlt, hdecode⟩
  | case3 pc hge =>
    have hnil : code.toList.drop pc = [] := List.drop_eq_nil_of_le (by simpa using hge)
    refine ⟨rfl, List.nil_prefix, ?_, by simp⟩
    intro _
    rw [hnil]
    rfl

section

variable {code : Array UInt64} {s : Sweep}

theorem Found.error_eq_none (h : s.Found code 0) : s.error = none ↔ s.words = code.toList := by
  constructor
  · exact h.whole
  · intro heq
    by_contra hne
    obtain ⟨e, he⟩ := Option.ne_none_iff_exists'.1 hne
    have hlt := (h.stopped e he).1
    rw [heq, Array.length_toList] at hlt
    omega

/-- A sweep stops at a word that is no opcode, or at the last word if that needs an operand. -/
theorem Found.error_eq_some (h : s.Found code 0) {e : Insn.DecodeError} (he : s.error = some e) :
    ∃ w, code[s.words.length]? = some w ∧
      (e = .unknownOpcode s.words.length w ∨ e = .truncated s.words.length (Opcode.ofWord? w) 1) ∧
      ((∃ pc w', e = .unknownOpcode pc w') ↔ 18 ≤ w.toNat) ∧
      ((∃ pc op available, e = .truncated pc op available) ↔
        (∃ op, Opcode.ofWord? w = some op ∧ op.size = 2) ∧ s.words.length + 1 = code.size) := by
  obtain ⟨hlt, hdecode⟩ := h.stopped e he
  rw [Nat.zero_add] at hlt hdecode
  obtain ⟨w, hw, ⟨hunknown, rfl⟩ | ⟨op, hop, hsize, hend, rfl⟩⟩ := Insn.decode_stops hlt hdecode
  · refine ⟨w, hw, .inl rfl, iff_of_true ⟨_, _, rfl⟩ hunknown, iff_of_false ?_ ?_⟩
    · rintro ⟨_, _, _, h⟩
      cases h
    · rintro ⟨⟨op, hop, _⟩, _⟩
      rw [Opcode.ofWord?_eq_none.2 hunknown] at hop
      cases hop
  · have hknown : ¬18 ≤ w.toNat := by
      intro hge
      rw [Opcode.ofWord?_eq_none.2 hge] at hop
      cases hop
    refine ⟨w, hw, .inr (by rw [hop]), iff_of_false ?_ hknown, iff_of_true ⟨_, _, _, rfl⟩ ⟨⟨op, hop, hsize⟩, hend⟩⟩
    rintro ⟨_, _, h⟩
    cases h

end

/-- Sweeping encoded instructions finds them and nothing else, each after the words of those before it.  Encoding what
the sweep of a stream finds gives the beginning of the stream.  It is the whole stream exactly if there is no error;
otherwise the error is that of the word after it. -/
theorem ofCode_roundTrip :
    (∀ insns : List Insn, ofCode (insns.flatMap encode).toArray = ⟨located insns, none⟩) ∧
      ∀ code : Array UInt64,
        (ofCode code).insns = located ((ofCode code).insns.map Prod.snd) ∧
        (ofCode code).words <+: code.toList ∧
        ((ofCode code).error = none ↔ (ofCode code).words = code.toList) ∧
        ∀ e, (ofCode code).error = some e →
          ∃ w, code[(ofCode code).words.length]? = some w ∧
            (e = .unknownOpcode (ofCode code).words.length w ∨
              e = .truncated (ofCode code).words.length (Opcode.ofWord? w) 1) ∧
            ((∃ pc w', e = .unknownOpcode pc w') ↔ 18 ≤ w.toNat) ∧
            ((∃ pc op available, e = .truncated pc op available) ↔
              (∃ op, Opcode.ofWord? w = some op ∧ op.size = 2) ∧ (ofCode code).words.length + 1 = code.size) := by
  refine ⟨ofCode_encode, fun code => ?_⟩
  have hfound : (ofCode code).Found code 0 := ofCodeFrom_found code 0
  refine ⟨?_, hfound.front, hfound.error_eq_none, fun e he => hfound.error_eq_some he⟩
  simpa using hfound.located

/-- A stream whose last word is a `jump` without its offset. -/
def openStream : Array UInt64 := #[3, 5, 17, 14]

theorem ofCode_roundTrip_openStream :
    ∃ e, (ofCode openStream).error = some e ∧ (ofCode openStream).words = [3, 5, 17] ∧
      (ofCode openStream).words <+: openStream.toList ∧ ∃ pc op available, e = .truncated pc op available := by
  have hwords : (ofCode openStream).words = [3, 5, 17] := by decide +kernel
  have herror : (ofCode openStream).error = some (.truncated 3 (some .jump) 1) := by decide +kernel
  obtain ⟨_, hfront, _, hstops⟩ := ofCode_roundTrip.2 openStream
  obtain ⟨w, hw, _, _, htruncated⟩ := hstops _ herror
  rw [hwords] at hw htruncated
  cases hw
  exact ⟨_, herror, hwords, hfront, htruncated.2 ⟨⟨.jump, rfl, rfl⟩, rfl⟩⟩

end Sweep

end StackMachine
