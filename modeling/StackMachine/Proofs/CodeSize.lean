import Mathlib
import StackMachine.Proofs.CallGraph
import StackMachine.Proofs.CompiledMethods
import StackMachine.Proofs.Emission
import StackMachine.Proofs.EncodingParts

/-!
# The size of code

How long the code of a method is depends neither on where it stands nor on where its callees are: every instruction but
a call has the same form everywhere, and a call to a callee below, in a block of at most 2 GiB, is near.

* `Assembly.Takes asm n`: the assembly can be encoded anywhere, in no less than `n` bytes, and in `n` bytes if its calls
  are near.  Fragments add up (`Takes.append`).
* `Method.insnSize` is the size of the code for one instruction, `Method.codeSize` that of a method.
* `Listed.takes`, `Listed.takes_of_encode`: so much the code takes that is generated for a method, in a program that is
  not too large and wherever it was encoded at all.
-/

namespace StackMachine

namespace X86

/-! ### The size of assemblies -/

/-- Wherever the instruction stands, it has one form of that many bytes. -/
def Insn.Fixed (i : Insn) (n : Nat) : Prop := ∀ here, ∃ f, i.forms here = .ok [f] ∧ f.bytes.length = n

/-- The distance to a target below. -/
private theorem distance_below {target : UInt64} {pos : Nat} (hle : target.toNat ≤ pos)
    (hnear : pos + 5 ≤ target.toNat + 2 ^ 31) :
    (target - (UInt64.ofNat pos + 5)).toInt64.toInt = (target.toNat : Int) - (pos + 5 : Nat) := by
  have hlt := target.toNat_lt
  have hnat : (target - (UInt64.ofNat pos + 5)).toNat = (2 ^ 64 - (pos + 5) % 2 ^ 64 + target.toNat) % 2 ^ 64 := by
    rw [UInt64.toNat_sub, UInt64.toNat_add, UInt64.toNat_ofNat']
    simp
  have hint : (target - (UInt64.ofNat pos + 5)).toInt64.toInt =
      Int.bmod ((target - (UInt64.ofNat pos + 5)).toNat : Int) (2 ^ 64) := BitVec.toInt_eq_toNat_bmod _
  rw [hint, hnat, Int.bmod_def]
  omega

/-- A call to a target below that is no more than 2 GiB away is near. -/
theorem Insn.callForms_near {target : UInt64} {pos : Nat} (hle : target.toNat ≤ pos)
    (hnear : pos + 5 ≤ target.toNat + 2 ^ 31) :
    ∃ offset, callForms (UInt64.ofNat pos) (.imm target.toInt64) = [.callRel offset] := by
  have hdistance := distance_below hle hnear
  have hfits : (Word.int32? (target - (UInt64.ofNat pos + 5)).toInt64.toInt).isSome := by
    rw [int32?_isSome, hdistance]
    omega
  obtain ⟨offset, hoffset⟩ := Option.isSome_iff_exists.1 hfits
  have hsize : UInt64.ofNat callRelSize = 5 := rfl
  refine ⟨offset, ?_⟩
  simp only [callForms, UInt64.toUInt64_toInt64, hsize, hoffset]

theorem Form.length_bytes_callRel (offset : Int32) : (Form.callRel offset).bytes.length = 5 := by
  simp [Form.bytes, LittleEndian.ofInt32, LittleEndian.length_bytes]

/-- A far call is longer than a near one. -/
theorem Insn.length_callForms (here : UInt64) (addr : Int64) :
    5 ≤ ((callForms here (.imm addr)).flatMap Form.bytes).length := by
  simp only [callForms]
  split
  · simp [Form.length_bytes_callRel]
  · simp only [Form.bytes, LittleEndian.ofInt64, List.flatMap_cons, List.length_append, List.length_cons,
      LittleEndian.length_bytes]
    omega

namespace Assembly

variable {a b rest : Assembly} {i i' : Insn} {n k : Nat}

/-- The calls lead to addresses from `lo` to `top`. -/
def CallsWithin (lo top : Nat) (asm : Assembly) : Prop :=
  ∀ operand, Insn.call operand ∈ asm →
    ∃ target : UInt64, operand = .imm target.toInt64 ∧ lo ≤ target.toNat ∧ target.toNat ≤ top

/-- The assembly can be encoded anywhere, in no less than `n` bytes.  It takes exactly `n` bytes if its calls lead to
lower addresses that are near. -/
def Takes (asm : Assembly) (n : Nat) : Prop :=
  ∀ index pos, ∃ code, asm.encodeFrom index (UInt64.ofNat pos) = .ok code ∧ n ≤ code.length ∧
    ∀ lo, asm.CallsWithin lo pos → pos + n ≤ lo + 2 ^ 31 → code.length = n

namespace Takes

theorem nil : Takes [] 0 := fun _ _ => ⟨[], rfl, Nat.le_refl _, fun _ _ _ => rfl⟩

theorem cast (h : Takes a n) (hn : n = k) : Takes a k := hn ▸ h

theorem append (ha : Takes a n) (hb : Takes b k) : Takes (a ++ b) (n + k) := by
  intro index pos
  obtain ⟨front, hfront, hlefront, hexact⟩ := ha index pos
  obtain ⟨back, hback, hleback, hexact'⟩ := hb (index + a.length) (pos + front.length)
  rw [UInt64.ofNat_add] at hback
  have hcode : encodeFrom index (UInt64.ofNat pos) (a ++ b) = .ok (front ++ back) := by
    rw [encodeFrom_append hfront, hback]
    rfl
  refine ⟨front ++ back, hcode, ?_, fun lo hcalls hpos => ?_⟩
  · rw [List.length_append]
    omega
  · have hlen : front.length = n :=
      hexact lo (fun operand hmem => hcalls operand (List.mem_append_left b hmem)) (by omega)
    have hcalls' : CallsWithin lo (pos + front.length) b := by
      intro operand hmem
      obtain ⟨target, heq, hlo, hle⟩ := hcalls operand (List.mem_append_right a hmem)
      exact ⟨target, heq, hlo, by omega⟩
    rw [List.length_append, hlen, hexact' lo hcalls' (by omega)]

theorem cons (hi : Takes [i] n) (hrest : Takes rest k) : Takes (i :: rest) (n + k) := hi.append hrest

theorem fixed (h : i.Fixed n) (hi : i.isCompare = false) : Takes [i] n := by
  intro index pos
  obtain ⟨f, hf, hlen⟩ := h (UInt64.ofNat pos)
  have hcode : encodeFrom index (UInt64.ofNat pos) [i] = .ok f.bytes := by
    simp [encodeFrom, hi, Insn.encode, hf, Except.map]
  exact ⟨f.bytes, hcode, hlen.ge, fun _ _ _ => hlen⟩

/-- A comparison and the conditional move that uses it. -/
theorem compare (h : i.Fixed n) (h' : i'.Fixed k) (hi' : i'.isCMov = true) (hc : i'.isCompare = false) :
    Takes [i, i'] (n + k) := by
  intro index pos
  obtain ⟨f, hf, hlen⟩ := h (UInt64.ofNat pos)
  obtain ⟨f', hf', hlen'⟩ := h' (UInt64.ofNat pos + UInt64.ofNat f.bytes.length)
  have hcode : encodeFrom index (UInt64.ofNat pos) [i, i'] = .ok (f.bytes ++ f'.bytes) := by
    simp [encodeFrom, consumesCompare, hi', hc, Insn.encode, hf, hf', Except.map]
  have htotal : (f.bytes ++ f'.bytes).length = n + k := by rw [List.length_append, hlen, hlen']
  exact ⟨_, hcode, htotal.ge, fun _ _ _ => htotal⟩

theorem call (addr : Int64) : Takes [.call (.imm addr)] 5 := by
  intro index pos
  have hcode : encodeFrom index (UInt64.ofNat pos) [.call (.imm addr)] =
      .ok ((Insn.callForms (UInt64.ofNat pos) (.imm addr)).flatMap Form.bytes) := by
    simp [encodeFrom, Insn.isCompare, Insn.encode, Insn.forms, Except.map]
  refine ⟨_, hcode, Insn.length_callForms _ _, fun lo hcalls hpos => ?_⟩
  obtain ⟨target, heq, hlo, hle⟩ := hcalls (.imm addr) List.mem_cons_self
  cases heq
  obtain ⟨offset, hforms⟩ := Insn.callForms_near hle (show pos + 5 ≤ target.toNat + 2 ^ 31 by omega)
  rw [hforms]
  simp [Form.length_bytes_callRel]

end Takes

end Assembly

end X86

/-! ### The size of methods -/

namespace Method

/-- The number of arguments at a call site. -/
def argc (m : Method) (idx : UInt64) : Nat := ((m.site? idx).map fun site => site.argc.toNat).getD 0

/-- Bytes of the code for an instruction. -/
def insnSize (m : Method) : Insn → Nat
  | .nop | .pop => 0
  | .getLocal idx => if idx.toNat ≤ 16 then 8 else 11
  | .putSelf => 4
  | .putNil | .putZero | .putOne => 7
  | .putObject v => if (Word.int32? v.raw.toInt64.toInt).isSome then 7 else 10
  | .dup => 3
  | .plus | .minus => 7
  | .less => 24
  | .leave => 12
  | .send idx => if m.argc idx = 0 then 70 else 74 + 4 * m.argc idx
  | .setLocal _ | .mult | .jump _ | .branchIf _ => 0

def codeSize (m : Method) : Nat := (m.sweep.insns.map fun (_, i) => m.insnSize i).sum

end Method

namespace Native

open X86 (Reg Operand Assembly)
open X86.Assembly (Takes)
open Template

namespace Template

/-! ### The size of templates -/

private theorem fixed_literal (dst : Reg) (v : Value) :
    (X86.Insn.mov (.reg dst) (word v)).Fixed (if (Word.int32? v.raw.toInt64.toInt).isSome then 7 else 10) := by
  intro here
  cases hv : Word.int32? v.raw.toInt64.toInt with
  | some n =>
    refine ⟨.movRI32 dst n, ?_, rfl⟩
    simp only [X86.Insn.forms, X86.Insn.movForm, word, hv, Except.map]
  | none =>
    refine ⟨.movRI64 dst v.raw.toInt64, ?_, rfl⟩
    simp only [X86.Insn.forms, X86.Insn.movForm, word, hv, Except.map]

/-- Sixteen locals are in the reach of a displacement of one byte. -/
private theorem fixed_loadLocal {m : Method} {idx : UInt64} {disp : Int32} (hd : localDisp? m idx = some disp)
    (dst : Reg) : (X86.Insn.mov (.reg dst) (.mem scratch disp)).Fixed (if idx.toNat ≤ 16 then 4 else 7) := by
  intro here
  obtain ⟨⟨hpos, _, hle⟩, rfl⟩ := localDisp?_eq_some.1 hd
  simp only [Layout.wordSize] at hle ⊢
  have hint : (Int32.ofInt (-(idx.toNat * (8 : Nat) : Int))).toInt = -(idx.toNat * (8 : Nat) : Int) :=
    Int32.toInt_ofInt_of_le (by omega) (by omega)
  generalize Int32.ofInt (-(idx.toNat * (8 : Nat) : Int)) = disp at hint
  have hne : ¬(disp = 0 ∧ scratch.code ≠ 5) := by
    rintro ⟨rfl, _⟩
    have hzero : (0 : Int32).toInt = 0 := rfl
    omega
  refine ⟨.movRM dst scratch disp, rfl, ?_⟩
  by_cases hsmall : idx.toNat ≤ 16
  · have hbyte : X86.fitsByte disp = true := by
      simp only [X86.fitsByte, Bool.and_eq_true, decide_eq_true_eq]
      omega
    have hsel : X86.DispSize.select scratch disp = .byte := by rw [X86.DispSize.select, if_neg hne, if_pos hbyte]
    simp only [X86.Form.bytes, X86.modrm, hsel, if_pos hsmall]
    rfl
  · have hdword : ¬X86.fitsByte disp = true := by
      simp only [X86.fitsByte, Bool.and_eq_true, decide_eq_true_eq]
      omega
    have hsel : X86.DispSize.select scratch disp = .dword := by rw [X86.DispSize.select, if_neg hne, if_neg hdword]
    simp only [X86.Form.bytes, X86.modrm, hsel, if_neg hsmall]
    rfl

private theorem takes_copy (dst src : Reg) : Takes [.mov (.reg dst) (.reg src)] 3 :=
  .fixed (fun _ => ⟨_, rfl, rfl⟩) rfl

private theorem takes_cfp : Takes [.mov (.mem context (Int32.ofNat Layout.cfp)) (.reg frame)] 4 :=
  .fixed (fun _ => ⟨_, rfl, rfl⟩) rfl

/-- The template of an instruction that is not a call has the size of the instruction. -/
theorem Emits.takes {m : Method} {height : Nat} {i : Insn} {e : Emitted} (h : Emits m height i e) :
    Takes e.code (m.insnSize i) := by
  cases h with
  | nop | pop => exact .nil
  | @getLocal idx disp dst hd hs =>
    have hep : Takes [.mov (.reg scratch) (frameField Layout.ep)] 4 := .fixed (fun _ => ⟨_, rfl, rfl⟩) rfl
    refine (hep.cons (.fixed (fixed_loadLocal hd dst) rfl)).cast ?_
    simp only [Method.insnSize]
    split
    · rfl
    · rfl
  | putSelf => exact .fixed (fun _ => ⟨_, rfl, rfl⟩) rfl
  | @literal i v dst hi hs =>
    have hliteral : Takes [.mov (.reg dst) (word v)] _ := .fixed (fixed_literal dst v) rfl
    cases i with
    | putNil | putObject | putZero | putOne =>
      cases hi
      exact hliteral
    | _ => cases hi
  | dup => exact takes_copy _ _
  | @combine i code left right hi hl hr =>
    cases i with
    | plus =>
      cases hi
      have hadd : Takes [.alu .add (.reg left) (.reg right)] 3 := .fixed (fun _ => ⟨_, rfl, rfl⟩) rfl
      have hsub : Takes [.alu .sub (.reg left) (imm 1)] 4 := .fixed (fun _ => ⟨_, rfl, rfl⟩) rfl
      exact hadd.cons hsub
    | minus =>
      cases hi
      have hsub : Takes [.alu .sub (.reg left) (.reg right)] 3 := .fixed (fun _ => ⟨_, rfl, rfl⟩) rfl
      have hadd : Takes [.alu .add (.reg left) (imm 1)] 4 := .fixed (fun _ => ⟨_, rfl, rfl⟩) rfl
      exact hsub.cons hadd
    | less =>
      cases hi
      have hfalse : Takes [.mov (.reg result) (word .false)] 7 := .fixed (fixed_literal result .false) rfl
      have htrue : Takes [.mov (.reg scratch) (word .true)] 7 := .fixed (fixed_literal scratch .true) rfl
      have hcompare : Takes [.alu .cmp (.reg left) (.reg right), .cmovl (.reg result) (.reg scratch)] 7 :=
        .compare (n := 3) (k := 4) (fun _ => ⟨_, rfl, rfl⟩) (fun _ => ⟨_, rfl, rfl⟩) rfl rfl
      exact hfalse.cons (htrue.cons (hcompare.append (takes_copy left result)))
    | _ => cases hi
  | @leave top hp =>
    have hadd : Takes [.alu .add (.reg frame) (imm Layout.frameSize)] 4 := .fixed (fun _ => ⟨_, rfl, rfl⟩) rfl
    have hret : Takes [.ret] 1 := .fixed (fun _ => ⟨_, rfl, rfl⟩) rfl
    exact hadd.cons (takes_cfp.cons ((takes_copy result top).cons hret))

/-! ### The size of call sites -/

namespace Call

variable {p : Program} {m : Method} {pc height : Nat} {idx : UInt64} {c : Call}

/-- A call site that is planned on an operand stack finds as many registers as it has arguments. -/
theorem length_args (hp : plan p m pc height idx = .ok c) (hh : height ≤ slots.length) :
    c.args.length = m.argc idx ∧ m.argc idx + 1 ≤ height := by
  obtain ⟨site, callee, receiver, hsite, _, _, _, hreceiver, rfl⟩ := plan_eq_ok.1 hp
  have hargc : m.argc idx = site.argc.toNat := by simp [Method.argc, hsite]
  have hneeds : site.argc.toNat + 1 ≤ height := (exists_peek hh).1 ⟨receiver, hreceiver⟩
  have hfound : ∀ depth ∈ (List.range site.argc.toNat).reverse, (peek? height depth).isSome := by
    intro depth hmem
    rw [List.mem_reverse, List.mem_range] at hmem
    exact Option.isSome_iff_exists.2 ((exists_peek hh).2 (by omega))
  rw [hargc]
  refine ⟨?_, hneeds⟩
  rw [List.filterMap_length_eq_length.2 hfound, List.length_reverse, List.length_range]

/-- The first argument needs no displacement. -/
private theorem storeArgs_takes {args : List Reg} (h : args.length ≤ 3) :
    Takes (storeArgs args) (if args.length = 0 then 0 else 4 * args.length - 1) := by
  have hfirst : ∀ r, Takes [.mov (.mem scratch (Int32.ofNat (0 * Layout.wordSize))) (.reg r)] 3 :=
    fun r => .fixed (fun _ => ⟨_, rfl, rfl⟩) rfl
  have hsecond : ∀ r, Takes [.mov (.mem scratch (Int32.ofNat (1 * Layout.wordSize))) (.reg r)] 4 :=
    fun r => .fixed (fun _ => ⟨_, rfl, rfl⟩) rfl
  have hthird : ∀ r, Takes [.mov (.mem scratch (Int32.ofNat (2 * Layout.wordSize))) (.reg r)] 4 :=
    fun r => .fixed (fun _ => ⟨_, rfl, rfl⟩) rfl
  rcases args with _ | ⟨a, _ | ⟨b, _ | ⟨c, _ | ⟨d, rest⟩⟩⟩⟩
  · exact .nil
  · exact hfirst a
  · exact (hfirst a).cons (hsecond b)
  · exact (hfirst a).cons ((hsecond b).cons (hthird c))
  · simp only [List.length_cons] at h
    omega

/-- The header, with a displacement if there are arguments before it. -/
private theorem header_takes {n : Nat} (h : n ≤ 3) :
    Takes [.mov (.mem scratch (Int32.ofNat (n * Layout.wordSize))) (word envHeader)] (if n = 0 then 7 else 8) := by
  refine .fixed (fun _ => ?_) rfl
  rcases n with _ | _ | _ | _ | n
  · exact ⟨_, rfl, rfl⟩
  · exact ⟨_, rfl, rfl⟩
  · exact ⟨_, rfl, rfl⟩
  · exact ⟨_, rfl, rfl⟩
  · omega

private theorem skipArgs_takes {n : Nat} (h : n ≤ 3) :
    Takes (skipArgs (n * Layout.wordSize)) (if n = 0 then 0 else 4) := by
  have hadd : ∀ k ≤ 3, Takes [.alu .add (.reg scratch') (imm ((k * Layout.wordSize : Nat) : Int))] 4 := by
    intro k hk
    refine .fixed (fun _ => ?_) rfl
    rcases k with _ | _ | _ | _ | k
    · exact ⟨_, rfl, rfl⟩
    · exact ⟨_, rfl, rfl⟩
    · exact ⟨_, rfl, rfl⟩
    · exact ⟨_, rfl, rfl⟩
    · omega
  rcases n with _ | n
  · exact .nil
  · exact hadd (n + 1) h

/-- The number of the callee can be stored as an immediate of 32 bits. -/
def Storable (c : Call) : Prop := ∀ e, ¬(X86.Insn.mov (frameField Layout.method) (imm c.callee)).Faulty e

private theorem method_takes (h : c.Storable) : Takes [.mov (frameField Layout.method) (imm c.callee)] 8 := by
  refine .fixed (fun here => ?_) rfl
  obtain ⟨n, hn⟩ := Option.isSome_iff_exists.1 ((X86.int32?_isSome _).2 (X86.Insn.narrow_of_not_faulty h rfl))
  refine ⟨.movMI32 frame (Int32.ofNat Layout.method) n, ?_, rfl⟩
  simp only [X86.Insn.forms, X86.Insn.movForm, frameField, imm, X86.imm32, hn, Except.map]

theorem storable_of_lt (c : Call) (h : c.callee < 2 ^ 31) : c.Storable := by
  intro e hfaulty
  have hint : (Int64.ofInt c.callee).toInt = c.callee := Int64.toInt_ofInt_of_le (by omega) (by omega)
  cases hfaulty with
  | operands _ hlegal => cases hlegal
  | immediate _ hv hwide =>
    cases hv
    rw [hint] at hwide
    omega

private theorem enter_takes (c : Call) (hargs : c.args.length ≤ 3) (hcallee : c.Storable) :
    Takes c.enter (if c.args.length = 0 then 46 else 50 + 4 * c.args.length) := by
  have hsp : Takes [.mov (.reg scratch) (frameField Layout.sp)] 4 := .fixed (fun _ => ⟨_, rfl, rfl⟩) rfl
  have hframe : Takes [.alu .sub (.reg frame) (imm Layout.frameSize)] 4 := .fixed (fun _ => ⟨_, rfl, rfl⟩) rfl
  have hself : Takes [.mov (frameField Layout.self) (.reg c.receiver)] 4 := .fixed (fun _ => ⟨_, rfl, rfl⟩) rfl
  have hep : Takes [.mov (frameField Layout.ep) (.reg scratch')] 4 := .fixed (fun _ => ⟨_, rfl, rfl⟩) rfl
  have hword : Takes [.alu .add (.reg scratch') (imm Layout.wordSize)] 4 := .fixed (fun _ => ⟨_, rfl, rfl⟩) rfl
  have hsp' : Takes [.mov (frameField Layout.sp) (.reg scratch')] 4 := .fixed (fun _ => ⟨_, rfl, rfl⟩) rfl
  have hfront := ((hsp.append (storeArgs_takes hargs)).append
    ((header_takes hargs).cons (takes_copy scratch' scratch))).append (skipArgs_takes hargs)
  have hback := hframe.cons (hself.cons (hep.cons (hword.cons (hsp'.cons ((method_takes hcallee).cons takes_cfp)))))
  refine (hfront.append hback).cast ?_
  split
  · rfl
  · omega

/-- Saving or restoring the stack registers takes two bytes for each. -/
private theorem slots_takes {f : Reg → X86.Insn} (hf : ∀ r, r.extended = true → Takes [f r] 2) {regs : List Reg}
    (hregs : ∀ r ∈ regs, r.extended = true) : Takes (regs.map f) (2 * regs.length) := by
  induction regs with
  | nil => exact .nil
  | cons r rest ih =>
    obtain ⟨hr, hrest⟩ := List.forall_mem_cons.1 hregs
    refine ((hf r hr).cons (ih hrest)).cast ?_
    rw [List.length_cons]
    omega

/-- A call site has the size that its arguments give it. -/
theorem takes (c : Call) (entry : CodePtr) (hargs : c.args.length ≤ 3) (hcallee : c.Storable) :
    Takes (c.code entry) (if c.args.length = 0 then 70 else 74 + 4 * c.args.length) := by
  have hpush : Takes (slots.map .push) 8 := by
    refine slots_takes (fun r hr => .fixed (fun _ => ⟨_, rfl, ?_⟩) rfl) (by decide)
    simp [X86.Form.bytes, X86.rexB?, hr]
  have hpop : Takes (slots.reverse.map .pop) 8 := by
    refine slots_takes (fun r hr => .fixed (fun _ => ⟨_, rfl, ?_⟩) rfl) (by decide)
    simp [X86.Form.bytes, X86.rexB?, hr]
  have hcall : Takes [.call (.imm entry.addr.toInt64)] 5 := .call _
  refine (((((enter_takes c hargs hcallee).append hpush).append hcall).append hpop).append
    (takes_copy c.receiver result)).cast ?_
  split
  · rfl
  · omega

end Call

end Template

section

variable {p : Program} {method : Method} {target : Nat → CodePtr → Prop} {insns : List (Nat × Insn)} {height : Nat}
  {code : Assembly}

/-- Generated code has the size of the instructions that it is generated for, if the numbers of its callees can be
stored. -/
private theorem Listed.takes_of_storable (h : Listed p method target insns height code) (hh : height ≤ slots.length)
    (hstorable : ∀ pc height idx c entry, Call.plan p method pc height idx = .ok c → c.code entry ⊆ code → c.Storable) :
    Takes code (insns.map fun (_, i) => method.insnSize i).sum := by
  induction h with
  | nil => exact .nil
  | plain he _ ih =>
    have hemits := emit_eq_ok.1 he
    refine hemits.takes.append (ih (hemits.height_le hh) fun pc height idx c entry hplan hsub => ?_)
    exact hstorable pc height idx c entry hplan (List.Subset.trans hsub (List.subset_append_right _ _))
  | @send pc idx rest height c entry code hplan _ _ ih =>
    obtain ⟨hargs, hneeds⟩ := Call.length_args hplan hh
    have hslots : slots.length = 4 := rfl
    have hsite := c.takes entry (by omega) (hstorable _ _ _ _ entry hplan (List.subset_append_left _ _))
    rw [hargs] at hsite
    refine hsite.append (ih ((Nat.sub_le _ _).trans hh) fun pc height idx c entry hplan hsub => ?_)
    exact hstorable pc height idx c entry hplan (List.Subset.trans hsub (List.subset_append_right _ _))

/-- In a program of at most 2 ^ 31 methods all numbers can be stored. -/
theorem Listed.takes (h : Listed p method target insns height code) (hp : p.size ≤ 2 ^ 31)
    (hh : height ≤ slots.length) : Takes code (insns.map fun (_, i) => method.insnSize i).sum := by
  refine h.takes_of_storable hh fun pc height idx c entry hplan _ => c.storable_of_lt ?_
  obtain ⟨site, callee, _, _, hcallee, _, _, _, hc⟩ := Call.plan_eq_ok.1 hplan
  have hlt : c.callee < p.size := by
    rw [hc]
    exact (Array.getElem?_eq_some_iff.1 hcallee).1
  omega

/-- In code that was encoded all numbers were stored. -/
theorem Listed.takes_of_encode (h : Listed p method target insns height code) (hh : height ≤ slots.length)
    {addr : UInt64} {bytes : List UInt8} (hencode : code.encode addr = .ok bytes) :
    Takes code (insns.map fun (_, i) => method.insnSize i).sum := by
  refine h.takes_of_storable hh fun pc height idx c entry hplan hsub => ?_
  have hmem : .mov (frameField Layout.method) (imm c.callee) ∈ c.code entry := by simp [Call.code, Call.enter]
  exact (X86.Assembly.sound_of_encode hencode).1 _ (hsub hmem)

end

end Native

end StackMachine
