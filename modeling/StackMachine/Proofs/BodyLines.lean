import Mathlib
import StackMachine.Program.Source
import StackMachine.Proofs.Results
import StackMachine.Proofs.Sweeps

/-!
# Lines of a method body and what they say

A line with words says a `Statement`: an instruction, or the call of a method by its name.  `Says` lists the ways to
write each of them.  Reading a body adds the statements of its lines to a draft, one after the other (`Draft.Spells`):
the stream is the encoding of their instructions, and the table has a call site for each call, in order.

* `parseLine_spells`: one line.
* `draft_spells`: the lines of a body.
* `parseLine_of_says`, `draft_of_says`: lines that say instructions are read, and give just these instructions.
-/

namespace StackMachine

/-! ### Lines -/

namespace Mnemonic

/-- What a line says: an instruction as it is, or the call of a method by its name. -/
inductive Statement where
  | plain (i : Insn)
  | call (callee : String) (argc : UInt64)
deriving DecidableEq, Repr

/-- How statements are written, word by word. -/
inductive Says : List String → Statement → Prop where
  | bare {i : Insn} (h : i.operand? = none) : Says [i.opcode.name] (.plain i)
  | getLocal {text idx} (h : Decimal.uint64? text.toList = some idx) : Says ["getlocal", text] (.plain (.getLocal idx))
  | setLocal {text idx} (h : Decimal.uint64? text.toList = some idx) : Says ["setlocal", text] (.plain (.setLocal idx))
  | putObject {text v} (h : Value.parse text = .ok v) : Says ["putobject", text] (.plain (.putObject v))
  | jump {text offset} (h : Decimal.int64? text.toList = some offset) : Says ["jump", text] (.plain (.jump offset))
  | branchIf {text offset} (h : Decimal.int64? text.toList = some offset) :
      Says ["branchif", text] (.plain (.branchIf offset))
  | send {mnemonic callee text argc} (hm : mnemonic = "send" ∨ mnemonic = "send_without_block")
      (h : Decimal.uint64? text.toList = some argc) : Says [mnemonic, callee, text] (.call callee argc)

theorem Says.ne_nil {words : List String} {statement : Statement} (h : Says words statement) : words ≠ [] := by
  rintro rfl
  cases h

/-- The words of the lines that have any. -/
def bodyWords (body : List String) : List (List String) := (body.map lineWords).filter fun words => !words.isEmpty

theorem bodyWords_cons_empty {line : String} (h : lineWords line = []) (rest : List String) :
    bodyWords (line :: rest) = bodyWords rest := by
  simp [bodyWords, h]

theorem bodyWords_cons {line : String} (h : lineWords line ≠ []) (rest : List String) :
    bodyWords (line :: rest) = lineWords line :: bodyWords rest := by
  simp [bodyWords, h]

namespace Statement

/-- The instructions of statements.  Calls are numbered in order, from `n` on. -/
def insns (n : Nat) : List Statement → List Insn
  | [] => []
  | .plain i :: rest => i :: insns n rest
  | .call _ _ :: rest => .send (UInt64.ofNat n) :: insns (n + 1) rest

/-- The calls among statements, with their argument counts. -/
def calls : List Statement → List (String × UInt64)
  | [] => []
  | .plain _ :: rest => calls rest
  | .call callee argc :: rest => (callee, argc) :: calls rest

theorem calls_append (xs ys : List Statement) : calls (xs ++ ys) = calls xs ++ calls ys := by
  induction xs with
  | nil => rfl
  | cons x xs ih => cases x <;> simp [calls, ih]

theorem insns_append (n : Nat) (xs ys : List Statement) :
    insns n (xs ++ ys) = insns n xs ++ insns (n + (calls xs).length) ys := by
  induction xs generalizing n with
  | nil => rfl
  | cons x xs ih =>
    cases x with
    | plain i => simp [insns, calls, ih]
    | call callee argc => simp [insns, calls, ih, Nat.add_assoc, Nat.add_comm 1]

end Statement

end Mnemonic

/-! ### Drafts -/

open Mnemonic (Statement Says)

namespace Draft

variable {resolve : String → Option Nat} {d d' : Draft} {statements : List Statement}

/-- The draft has the instructions of the statements, and a call site for each call. -/
structure Spells (resolve : String → Option Nat) (d : Draft) (statements : List Statement) : Prop where
  code : d.code.toList = (Statement.insns 0 statements).flatMap Insn.encode
  sites : List.Forall₂ (fun call site => resolve call.1 = some site.callee ∧ site.argc = call.2)
    (Statement.calls statements) d.sites.toList

namespace Spells

theorem empty : empty.Spells resolve [] := ⟨rfl, .nil⟩

theorem insn (h : d.Spells resolve statements) (i : Insn) : (d.insn i).Spells resolve (statements ++ [.plain i]) := by
  constructor
  · simp [Draft.insn, Statement.insns_append, Statement.insns, h.code]
  · rw [Statement.calls_append, Statement.calls, Statement.calls, List.append_nil]
    exact h.sites

/-- The new call site is the next one, which is what the instruction says. -/
theorem send (h : d.Spells resolve statements) {callee : String} {site : CallSite}
    (hr : resolve callee = some site.callee) :
    (d.send site).Spells resolve (statements ++ [.call callee site.argc]) := by
  have hlen : (Statement.calls statements).length = d.sites.size := by
    rw [h.sites.length_eq, Array.length_toList]
  constructor
  · simp [Draft.send, Draft.insn, Statement.insns_append, Statement.insns, h.code, hlen]
  · have hlast : List.Forall₂ (fun call site => resolve call.1 = some site.callee ∧ site.argc = call.2)
        (Statement.calls [.call callee site.argc]) [site] := .cons ⟨hr, rfl⟩ .nil
    have hsites : (d.send site).sites.toList = d.sites.toList ++ [site] := by simp [Draft.send, Draft.insn]
    rw [Statement.calls_append, hsites]
    exact List.rel_append h.sites hlast

end Spells

end Draft

/-! ### Reading lines -/

namespace Mnemonic

variable {resolve : String → Option Nat} {d d' : Draft} {statements : List Statement} {mnemonic : String} {op : Opcode}
  {operands : List String}

theorem opcode?_eq_some (h : opcode? mnemonic = some op) : mnemonic = op.name ∨ mnemonic = "send" ∧ op = .send := by
  unfold opcode? at h
  split at h
  · rename_i hsend
    cases h
    exact .inr ⟨hsend, rfl⟩
  · have hname := List.find?_some h
    exact .inl (beq_iff_eq.1 hname).symm

theorem index_eq_ok {text : String} {n : UInt64} (h : index mnemonic text = .ok n) :
    Decimal.uint64? text.toList = some n := by
  unfold index at h
  split at h
  · rename_i n' hn
    cases h
    exact hn
  · cases h

theorem number_eq_ok {text : String} {n : Int64} (h : number mnemonic text = .ok n) :
    Decimal.int64? text.toList = some n := by
  unfold number at h
  split at h
  · rename_i n' hn
    cases h
    exact hn
  · cases h

theorem literal_eq_ok {text : String} {v : Value} (h : literal text = .ok v) : Value.parse text = .ok v := by
  unfold literal at h
  split at h
  · rename_i v' hv
    cases h
    exact hv
  · cases h

/-- The operand is read in the way that its opcode asks for. -/
theorem says_of_operandWord {text : String} {w : UInt64} (hop : op ≠ .send) (hoperand : op.hasOperand = true)
    (h : operandWord mnemonic op text = .ok w) : Says [op.name, text] (.plain (.ofOpcode op w)) := by
  cases op with
  | getLocal => exact .getLocal (index_eq_ok h)
  | setLocal => exact .setLocal (index_eq_ok h)
  | putObject =>
    obtain ⟨v, hv, rfl⟩ := map_eq_ok h
    exact .putObject (literal_eq_ok hv)
  | jump =>
    obtain ⟨n, hn, rfl⟩ := map_eq_ok h
    rw [Insn.ofOpcode, Int64.toInt64_toUInt64]
    exact .jump (number_eq_ok hn)
  | branchIf =>
    obtain ⟨n, hn, rfl⟩ := map_eq_ok h
    rw [Insn.ofOpcode, Int64.toInt64_toUInt64]
    exact .branchIf (number_eq_ok hn)
  | send => exact absurd rfl hop
  | _ => cases hoperand

theorem arity_eq (hop : op ≠ .send) : arity op = op.size - 1 := by
  cases op with
  | send => exact absurd rfl hop
  | _ => rfl

theorem emit_operand (mnemonic : String) (op : Opcode) (text : String) :
    emit resolve d mnemonic op [text] = (operandWord mnemonic op text).map fun w => d.insn (.ofOpcode op w) := by
  cases op with
  | _ => rfl

theorem emit_bare (mnemonic : String) (op : Opcode) :
    emit resolve d mnemonic op [] = .ok (d.insn (.ofOpcode op 0)) := by
  cases op with
  | _ => rfl

/-- A line that is read says a statement, which is added to the draft. -/
theorem emit_spells (h : d.Spells resolve statements) (hop : opcode? mnemonic = some op)
    (harity : operands.length = arity op) (he : emit resolve d mnemonic op operands = .ok d') :
    ∃ statement, Says (mnemonic :: operands) statement ∧ d'.Spells resolve (statements ++ [statement]) := by
  by_cases hsend : op = .send
  · subst hsend
    obtain ⟨callee, text, rfl⟩ := List.length_eq_two.1 harity
    simp only [emit] at he
    split at he
    · cases he
    rename_i id hid
    obtain ⟨argc, hargc, rfl⟩ := map_eq_ok he
    have hm : mnemonic = "send" ∨ mnemonic = "send_without_block" :=
      (opcode?_eq_some hop).elim .inr fun h => .inl h.1
    exact ⟨.call callee argc, .send hm (index_eq_ok hargc), h.send hid⟩
  · obtain rfl : mnemonic = op.name := (opcode?_eq_some hop).resolve_right fun h => hsend h.2
    by_cases hoperand : op.hasOperand = true
    · rw [arity_eq hsend, Opcode.size, if_pos hoperand] at harity
      obtain ⟨text, rfl⟩ := List.length_eq_one_iff.1 harity
      rw [emit_operand] at he
      obtain ⟨w, hw, rfl⟩ := map_eq_ok he
      exact ⟨_, says_of_operandWord hsend hoperand hw, h.insn _⟩
    · rw [arity_eq hsend, Opcode.size, if_neg hoperand] at harity
      obtain rfl := List.length_eq_zero_iff.1 harity
      rw [emit_bare] at he
      cases he
      refine ⟨_, ?_, h.insn _⟩
      have hbare : (Insn.ofOpcode op 0).operand? = none := by
        rw [← Option.not_isSome_iff_eq_none, Insn.isSome_operand?, Insn.opcode_ofOpcode]
        exact hoperand
      have hsays := Says.bare hbare
      rwa [Insn.opcode_ofOpcode] at hsays

theorem parseLine_spells {line : String} (h : d.Spells resolve statements) (hp : parseLine resolve d line = .ok d') :
    lineWords line = [] ∧ d' = d ∨
      ∃ statement, Says (lineWords line) statement ∧ d'.Spells resolve (statements ++ [statement]) := by
  unfold parseLine at hp
  split at hp
  · rename_i hnil
    cases hp
    exact .inl ⟨hnil, rfl⟩
  rename_i mnemonic operands hwords
  split at hp
  · cases hp
  rename_i op hop
  split at hp
  · cases hp
  rename_i harity
  rw [hwords]
  exact .inr (emit_spells h hop (not_not.1 harity) hp)

theorem opcode?_name (op : Opcode) : opcode? op.name = some op := by
  cases op <;> rfl

theorem parseLine_operand (op : Opcode) {line text : String} {w : UInt64} (hop : op ≠ .send)
    (hoperand : op.hasOperand = true) (hwords : lineWords line = [op.name, text])
    (hread : operandWord op.name op text = .ok w) :
    parseLine resolve d line = .ok (d.insn (.ofOpcode op w)) := by
  have harity : [text].length = arity op := by
    rw [arity_eq hop, Opcode.size, if_pos hoperand]
    rfl
  simp only [parseLine, hwords, opcode?_name, if_neg (not_not.2 harity), emit_operand, hread]
  rfl

/-- A line that says an instruction is read as that instruction. -/
theorem parseLine_of_says {line : String} {i : Insn} (h : Says (lineWords line) (.plain i)) :
    parseLine resolve d line = .ok (d.insn i) := by
  generalize hwords : lineWords line = words at h
  cases h with
  | bare hnone =>
    unfold parseLine
    rw [hwords]
    cases i <;> first | rfl | cases hnone
  | getLocal hread =>
    refine parseLine_operand .getLocal (by decide) rfl hwords ?_
    simp only [operandWord, index, hread]
  | setLocal hread =>
    refine parseLine_operand .setLocal (by decide) rfl hwords ?_
    simp only [operandWord, index, hread]
  | @putObject text v hread =>
    have hoperand : operandWord "putobject" .putObject text = .ok v.raw := by
      simp only [operandWord, literal, hread]
      rfl
    exact parseLine_operand .putObject (by decide) rfl hwords hoperand
  | @jump text offset hread =>
    have hoperand : operandWord "jump" .jump text = .ok offset.toUInt64 := by
      simp only [operandWord, number, hread]
      rfl
    rw [parseLine_operand .jump (by decide) rfl hwords hoperand, Insn.ofOpcode, Int64.toInt64_toUInt64]
  | @branchIf text offset hread =>
    have hoperand : operandWord "branchif" .branchIf text = .ok offset.toUInt64 := by
      simp only [operandWord, number, hread]
      rfl
    rw [parseLine_operand .branchIf (by decide) rfl hwords hoperand, Insn.ofOpcode, Int64.toInt64_toUInt64]

end Mnemonic

namespace Source

open Mnemonic (bodyWords)

variable {resolve : String → Option Nat} {d d' : Draft} {statements : List Statement}

/-- Lines are read one after the other; those without words add nothing. -/
theorem draft_spells {m : MethodSource} {line : Nat} {lines : List String} (h : d.Spells resolve statements)
    (hd : draft resolve m line d lines = .ok d') :
    ∃ more, List.Forall₂ Says (bodyWords lines) more ∧ d'.Spells resolve (statements ++ more) := by
  induction lines generalizing d line statements with
  | nil =>
    cases hd
    exact ⟨[], .nil, by rwa [List.append_nil]⟩
  | cons text rest ih =>
    simp only [draft] at hd
    split at hd
    · cases hd
    rename_i d₁ hline
    rcases Mnemonic.parseLine_spells h hline with ⟨hwords, rfl⟩ | ⟨statement, hsays, h₁⟩
    · obtain ⟨more, hmore, hspells⟩ := ih h hd
      exact ⟨more, Mnemonic.bodyWords_cons_empty hwords rest ▸ hmore, hspells⟩
    · obtain ⟨more, hmore, hspells⟩ := ih h₁ hd
      refine ⟨statement :: more, Mnemonic.bodyWords_cons hsays.ne_nil rest ▸ .cons hsays hmore, ?_⟩
      rwa [List.append_assoc] at hspells

/-- Lines that say instructions are all read. -/
theorem draft_of_says {m : MethodSource} {line : Nat} {lines : List String} {insns : List Insn}
    (h : List.Forall₂ (fun words i => Says words (.plain i)) (bodyWords lines) insns) :
    draft resolve m line d lines = .ok (insns.foldl Draft.insn d) := by
  induction lines generalizing d line insns with
  | nil =>
    cases h
    rfl
  | cons text rest ih =>
    by_cases hwords : Mnemonic.lineWords text = []
    · have hline : Mnemonic.parseLine resolve d text = .ok d := by simp only [Mnemonic.parseLine, hwords]
      rw [Mnemonic.bodyWords_cons_empty hwords] at h
      simp only [draft, hline]
      exact ih h
    · rw [Mnemonic.bodyWords_cons hwords] at h
      cases h with
      | cons hsays hrest =>
        simp only [draft, Mnemonic.parseLine_of_says hsays]
        exact ih hrest

end Source

end StackMachine
