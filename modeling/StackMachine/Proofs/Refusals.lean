import Mathlib
import StackMachine.Proofs.Emission
import StackMachine.Proofs.Settling

/-!
# Why a request is refused

`Refused p root` has the errors that a request to compile the method `root` can end with.  Each comes with what lies
behind it: a method that calls lead to, and the instruction of it that cannot be compiled on an operand stack of at most
four values, or the block or the limits, which no program can be blamed for.

* `FailsOnly`: the errors of a step are all of a kind.  Steps in sequence have the errors of both.
* `compile_refused`: the errors of a request, by induction on how many methods may join the chain.
-/

namespace StackMachine.Native

open X86 (Assembly)
open Template (Call Emitted emit slots)

/-- Errors of placing code.  One of the assembler is that of the code at some address. -/
inductive Error.OfPlacement (code : Assembly) : Error → Prop where
  | memory {e} : OfPlacement code (.memory e)
  | assembly {target e} (h : code.encode target = .error e) : OfPlacement code (.assembly e)
  | bufferFull {needed available} : OfPlacement code (.bufferFull needed available)
  | foreignEntry {name} : OfPlacement code (.foreignEntry name)

/-- An assembler that is given too little room finds the block full. -/
private theorem Error.OfPlacement.ofAssembly {code : Assembly} {target : UInt64} {e : X86.AsmError}
    (h : code.encode target = .error e) : OfPlacement code (.ofAssembly e) := by
  cases e with
  | bufferTooSmall needed available => exact .bufferFull
  | _ => exact .assembly h

private theorem CodeBlock.fill_error {m : Memory} {start : Nat} {target : UInt64} {asm : Assembly} {e : Error}
    (h : (fill m start target asm).1 = .error e) : e.OfPlacement asm := by
  unfold fill at h
  split at h
  · cases h
    exact .memory
  split at h
  · rename_i cause hassemble
    cases h
    unfold Assembly.assemble at hassemble
    split at hassemble
    · rename_i hencode
      cases hassemble
      exact .ofAssembly hencode
    split at hassemble
    · cases hassemble
    · cases hassemble
      exact .bufferFull
  split at h
  · cases h
    exact .memory
  · cases h

theorem CodeBlock.place_error {b : CodeBlock} {asm : Assembly} {e : Error} (h : (b.place asm).1 = .error e) :
    e.OfPlacement asm := by
  simp only [place] at h
  split at h
  · cases h
    exact .memory
  split at h
  · cases h
    exact .memory
  split at h
  · rename_i hfill
    cases h
    exact fill_error hfill
  split at h
  · cases h
  · cases h
    exact .bufferFull

/-! ### Errors of templates -/

namespace Template

variable {p : Program} {m callee : Method} {pc height : Nat} {e : Error}

private theorem pushed_error {code : X86.Reg → Assembly} (h : pushed m pc height code = .error e) :
    e = .stackOverflow m.name pc slots.length := by
  unfold pushed at h
  split at h
  · cases h
  · cases h
    rfl

private theorem combined_error {op : Opcode} {code : X86.Reg → X86.Reg → Assembly}
    (h : combined m pc height op code = .error e) : e = .stackUnderflow m.name pc op := by
  unfold combined at h
  split at h
  · cases h
  · cases h
    rfl

theorem emit_error {i : Insn} (h : emit m pc height i = .error e) :
    e = .stackOverflow m.name pc slots.length ∨ e = .stackUnderflow m.name pc i.opcode ∨
      (∃ idx, e = .badLocal m.name pc idx m.locals) ∨ e = .unsupported m.name pc i.opcode := by
  cases i with
  | nop => cases h
  | getLocal idx =>
    simp only [emit] at h
    split at h
    · cases h
      exact .inr (.inr (.inl ⟨idx, rfl⟩))
    · exact .inl (pushed_error h)
  | putNil | putSelf | putObject v | putZero | putOne => exact .inl (pushed_error h)
  | dup =>
    simp only [emit] at h
    split at h
    · cases h
      exact .inr (.inl rfl)
    · exact .inl (pushed_error h)
  | pop =>
    simp only [emit] at h
    split at h
    · cases h
      exact .inr (.inl rfl)
    · cases h
  | plus | minus | less => exact .inr (.inl (combined_error h))
  | leave =>
    simp only [emit] at h
    split at h
    · cases h
      exact .inr (.inl rfl)
    · cases h
  | setLocal idx | mult | jump offset | branchIf offset | send idx =>
    cases h
    exact .inr (.inr (.inr rfl))

/-- Why a call site is refused. -/
inductive Call.Unplanned (p : Program) (m : Method) (pc height : Nat) (idx : UInt64) : Error → Prop where
  | badCallSite (hsite : m.site? idx = none) : Unplanned p m pc height idx (.badCallSite m.name idx)
  | unknownMethod {site} (hsite : m.site? idx = some site) (hcallee : p.method? site.callee = none) :
      Unplanned p m pc height idx (.unknownMethod site.callee)
  | arity {site callee} (hsite : m.site? idx = some site) (hcallee : p.method? site.callee = some callee)
      (hargc : site.argc.toNat ≠ callee.locals) :
      Unplanned p m pc height idx (.arity callee.name callee.locals site.argc.toNat)
  | overflow {site callee} (hsite : m.site? idx = some site) (hcallee : p.method? site.callee = some callee)
      (hargc : site.argc.toNat = callee.locals) (hlast : site.argc.toNat + 1 = UInt64.size) :
      Unplanned p m pc height idx (.overflow .addition)
  | underflow {site callee} (hsite : m.site? idx = some site) (hcallee : p.method? site.callee = some callee)
      (hargc : site.argc.toNat = callee.locals) (hlast : site.argc.toNat + 1 ≠ UInt64.size)
      (hpeek : peek? height site.argc.toNat = none) :
      Unplanned p m pc height idx (.stackUnderflow m.name pc .send)

theorem Call.plan_eq_error {idx : UInt64} : plan p m pc height idx = .error e ↔ Unplanned p m pc height idx e := by
  constructor
  · intro h
    unfold plan at h
    split at h
    · rename_i hsite
      cases h
      exact .badCallSite hsite
    rename_i site hsite
    split at h
    · rename_i hcallee
      cases h
      exact .unknownMethod hsite hcallee
    rename_i callee hcallee
    simp only at h
    split at h
    · rename_i hargc
      cases h
      exact .arity hsite hcallee hargc
    rename_i hargc
    rw [not_not] at hargc
    split at h
    · rename_i hlast
      cases h
      exact .overflow hsite hcallee hargc hlast
    rename_i hlast
    split at h
    · rename_i hpeek
      cases h
      exact .underflow hsite hcallee hargc hlast hpeek
    · cases h
  · intro h
    cases h with
    | badCallSite hsite => simp only [plan, hsite]
    | unknownMethod hsite hcallee => simp only [plan, hsite, hcallee]
    | arity hsite hcallee hargc => simp only [plan, hsite, hcallee, if_pos hargc]
    | overflow hsite hcallee hargc hlast =>
      simp only [plan, hsite, hcallee, if_neg (not_not.2 hargc), if_pos hlast]
    | underflow hsite hcallee hargc hlast hpeek =>
      simp only [plan, hsite, hcallee, if_neg (not_not.2 hargc), if_neg hlast, hpeek]

end Template

namespace Compiler

variable {α β : Type} {kind : Error → Prop} {p : Program} {method : Method} {id root : Nat}
  {resolve : Nat → Step CodePtr}

/-! ### Errors of a kind -/

/-- A sequence fails in its first part or in what follows. -/
theorem andThen_eq_error {x : Step α} {f : α → Step β} {s : State} {e : Error} (h : (andThen x f s).1 = .error e) :
    (x s).1 = .error e ∨ ∃ a, (x s).1 = .ok a ∧ (f a (x s).2).1 = .error e := by
  cases hx : (x s).1 with
  | error e' =>
    rw [andThen_error (Prod.ext hx rfl)] at h
    cases h
    exact .inl rfl
  | ok a =>
    rw [andThen_ok (Prod.ext hx rfl)] at h
    exact .inr ⟨a, rfl, h⟩

/-- Both parts of a sequence that succeeds have succeeded. -/
theorem andThen_eq_ok {x : Step α} {f : α → Step β} {s : State} {b : β} (h : (andThen x f s).1 = .ok b) :
    ∃ a, (x s).1 = .ok a ∧ (f a (x s).2).1 = .ok b := by
  cases hx : (x s).1 with
  | error e =>
    rw [andThen_error (Prod.ext hx rfl)] at h
    cases h
  | ok a =>
    rw [andThen_ok (Prod.ext hx rfl)] at h
    exact ⟨a, rfl, h⟩

/-- The step fails only with errors of a kind. -/
def FailsOnly (kind : Error → Prop) (step : Step α) : Prop := ∀ s e, (step s).1 = .error e → kind e

namespace FailsOnly

theorem mono {kind' : Error → Prop} {step : Step α} (h : FailsOnly kind step) (hkind : ∀ e, kind e → kind' e) :
    FailsOnly kind' step :=
  fun s e he => hkind e (h s e he)

theorem const {r : Except Error α} (h : ∀ e, r = .error e → kind e) : FailsOnly kind fun s => (r, s) :=
  fun _ e he => h e he

theorem ok (a : α) : FailsOnly kind fun s => (.ok a, s) := by
  intro s e he
  cases he

theorem andThen {x : Step α} {f : α → Step β} (hx : FailsOnly kind x)
    (hf : ∀ a, (∃ s, (x s).1 = .ok a) → FailsOnly kind (f a)) : FailsOnly kind (andThen x f) := by
  intro s e he
  rcases andThen_eq_error he with he | ⟨a, ha, he⟩
  · exact hx s e he
  · exact hf a ⟨s, ha⟩ _ e he

end FailsOnly

/-! ### What lies behind an error -/

/-- What a request for the method `root` can fail with. -/
inductive Refused (p : Program) (root : Nat) : Error → Prop where
  | unknownMethod (hm : p.method? root = none) : Refused p root (.unknownMethod root)
  | recursiveCall {caller callee} : Refused p root (.recursiveCall caller callee)
  | depthExceeded {limit} : Refused p root (.depthExceeded limit)
  | foreignEntry {name} : Refused p root (.foreignEntry name)
  | placement {resolve m s code e} (hg : (generate resolve p m s).1 = .ok code) (he : e.OfPlacement code) :
      Refused p root e
  | insn {id m pc i height e} (hr : p.Reaches root id) (hm : p.method? id = some m) (hi : (pc, i) ∈ m.sweep.insns)
      (hs : ∀ idx, i ≠ .send idx) (hh : height ≤ slots.length) (he : emit m pc height i = .error e) : Refused p root e
  | send {id m pc idx height e} (hr : p.Reaches root id) (hm : p.method? id = some m)
      (hi : (pc, .send idx) ∈ m.sweep.insns) (hh : height ≤ slots.length)
      (he : Call.plan p m pc height idx = .error e) : Refused p root e
  | decode {id m e} (hr : p.Reaches root id) (hm : p.method? id = some m) (he : m.sweep.error = some e) :
      Refused p root (.decode m.name e)
  | missingReturn {id m} (hr : p.Reaches root id) (hm : p.method? id = some m) :
      Refused p root (.missingReturn m.name)

/-- Callees that exist are resolved, or refused for reasons of `root`. -/
def ResolvesFor (p : Program) (root id : Nat) (resolve : Nat → Step CodePtr) : Prop :=
  ∀ callee, p.Calls id callee → (∃ method, p.method? callee = some method) → FailsOnly (Refused p root) (resolve callee)

theorem generateInsn_plain {pc height : Nat} {i : Insn} (hi : ∀ idx, i ≠ .send idx) :
    generateInsn resolve p method pc height i = fun s => (emit method pc height i, s) := by
  cases i with
  | send idx => exact absurd rfl (hi idx)
  | _ => rfl

/-- Code for an instruction is missing because of its template, its call site or its callee. -/
theorem generateInsn_error {pc height : Nat} {i : Insn} {s : State} {e : Error}
    (h : (generateInsn resolve p method pc height i s).1 = .error e) :
    (∀ idx, i ≠ .send idx) ∧ emit method pc height i = .error e ∨
      ∃ idx, i = .send idx ∧
        (Call.plan p method pc height idx = .error e ∨
          ∃ call, Call.plan p method pc height idx = .ok call ∧ (resolve call.callee s).1 = .error e) := by
  by_cases hsend : ∃ idx, i = .send idx
  · obtain ⟨idx, rfl⟩ := hsend
    refine .inr ⟨idx, rfl, ?_⟩
    cases hplan : Call.plan p method pc height idx with
    | error e' =>
      simp only [generateInsn, hplan] at h
      cases h
      exact .inl rfl
    | ok call =>
      rw [generateInsn_send hplan] at h
      rcases andThen_eq_error h with h | ⟨entry, _, h⟩
      · exact .inr ⟨call, rfl, h⟩
      · cases h
  · have hplain : ∀ idx, i ≠ .send idx := fun idx heq => hsend ⟨idx, heq⟩
    rw [generateInsn_plain hplain] at h
    exact .inl ⟨hplain, h⟩

private theorem generateInsn_failsOnly (hr : p.Reaches root id) (hm : p.method? id = some method)
    (hres : ResolvesFor p root id resolve) {pc height : Nat} {i : Insn} (hi : (pc, i) ∈ method.sweep.insns)
    (hh : height ≤ slots.length) : FailsOnly (Refused p root) (generateInsn resolve p method pc height i) := by
  intro s e he
  rcases generateInsn_error he with ⟨hplain, he⟩ | ⟨idx, rfl, hplan | ⟨call, hplan, he⟩⟩
  · exact .insn hr hm hi hplain hh he
  · exact .send hr hm hi hh hplan
  · obtain ⟨site, callee, _, _, hcallee, _, _, _, rfl⟩ := Call.plan_eq_ok.1 hplan
    exact hres _ (Call.calls_of_plan hm hi hplan) ⟨callee, hcallee⟩ s e he

/-- The code of an instruction is its template, or that of its call site with the entry of the callee. -/
theorem generateInsn_eq_ok {pc height : Nat} {i : Insn} {s : State} {emitted : Emitted}
    (h : (generateInsn resolve p method pc height i s).1 = .ok emitted) :
    emit method pc height i = .ok emitted ∨
      ∃ idx call entry, i = .send idx ∧ Call.plan p method pc height idx = .ok call ∧
        emitted = ⟨call.code entry, height - call.args.length⟩ := by
  by_cases hsend : ∃ idx, i = .send idx
  · obtain ⟨idx, rfl⟩ := hsend
    cases hplan : Call.plan p method pc height idx with
    | error e =>
      simp only [generateInsn, hplan] at h
      cases h
    | ok call =>
      rw [generateInsn_send hplan] at h
      obtain ⟨entry, _, h⟩ := andThen_eq_ok h
      cases h
      exact .inr ⟨idx, call, entry, rfl, hplan, rfl⟩
  · rw [generateInsn_plain fun idx heq => hsend ⟨idx, heq⟩] at h
    exact .inl h

/-- Four registers are enough for the operand stack after an instruction that was generated. -/
theorem height_generateInsn {pc height : Nat} {i : Insn} (hh : height ≤ slots.length) {s : State}
    {emitted : Emitted} (h : (generateInsn resolve p method pc height i s).1 = .ok emitted) :
    emitted.height ≤ slots.length := by
  rcases generateInsn_eq_ok h with hemit | ⟨_, call, _, _, _, rfl⟩
  · exact (Template.emit_eq_ok.1 hemit).height_le hh
  · exact (Nat.sub_le _ _).trans hh

private theorem generateInsns_failsOnly (hr : p.Reaches root id) (hm : p.method? id = some method)
    (hres : ResolvesFor p root id resolve) {insns : List (Nat × Insn)} (hsub : insns ⊆ method.sweep.insns)
    {height : Nat} (hh : height ≤ slots.length) :
    FailsOnly (Refused p root) (generateInsns resolve p method insns height) := by
  induction insns generalizing height with
  | nil => exact .ok []
  | cons head rest ih =>
    obtain ⟨pc, i⟩ := head
    rw [List.cons_subset] at hsub
    rw [generateInsns_cons]
    refine (generateInsn_failsOnly hr hm hres hsub.1 hh).andThen fun emitted ⟨s, hs⟩ => ?_
    exact (ih hsub.2 (height_generateInsn hh hs)).andThen fun more _ => .ok _

theorem judged_error {code : Assembly} {e : Error} (h : judged method code = .error e) :
    (∃ cause, method.sweep.error = some cause ∧ e = .decode method.name cause) ∨ e = .missingReturn method.name := by
  unfold judged at h
  split at h
  · rename_i cause hcause
    cases h
    exact .inl ⟨cause, hcause, rfl⟩
  split at h
  · cases h
  · cases h
    exact .inr rfl

private theorem generate_failsOnly (hr : p.Reaches root id) (hm : p.method? id = some method)
    (hres : ResolvesFor p root id resolve) : FailsOnly (Refused p root) (generate resolve p method) := by
  rw [generate_eq]
  refine (generateInsns_failsOnly hr hm hres (List.Subset.refl _) (Nat.zero_le _)).andThen fun code _ => ?_
  refine .const fun e he => ?_
  rcases judged_error he with ⟨cause, hcause, rfl⟩ | rfl
  · exact .decode hr hm hcause
  · exact .missingReturn hr hm

theorem owned_error {b : CodeBlock} {entry : CodePtr} {e : Error} (h : owned b method entry = .error e) :
    e = .foreignEntry method.name := by
  unfold owned at h
  split at h
  · cases h
  · cases h
    rfl

theorem finish_failsOnly (id : Nat) (method : Method) (code : Assembly) :
    FailsOnly (Error.OfPlacement code) (finish id method code) := by
  intro s e he
  simp only [finish] at he
  split at he
  · rename_i e' block hplace
    cases he
    exact CodeBlock.place_error (congrArg Prod.fst hplace)
  · rw [owned_error he]
    exact .foreignEntry

private theorem cached_failsOnly {fresh : Nat → Step CodePtr} (hm : p.method? id = some method)
    (hf : FailsOnly (Refused p root) (fresh id)) : FailsOnly (Refused p root) (cached fresh p id) := by
  intro s e he
  simp only [cached, hm] at he
  split at he
  · rw [owned_error he]
    exact .foreignEntry
  · exact hf s e he

private theorem fresh_failsOnly (maxDepth left : Nat) (active : List Nat) (hr : p.Reaches root id)
    (hm : p.method? id = some method) : FailsOnly (Refused p root) (fresh p maxDepth left active id) := by
  induction left generalizing active id method with
  | zero =>
    intro s e he
    simp only [fresh, hm] at he
    split at he
    · cases he
      exact .recursiveCall
    · cases he
      exact .depthExceeded
  | succ left ih =>
    by_cases ha : id ∈ active
    · intro s e he
      simp only [fresh, hm, if_pos ha] at he
      cases he
      exact .recursiveCall
    · have hres : ResolvesFor p root id (cached (fresh p maxDepth left (id :: active)) p) := by
        rintro callee hcall ⟨method', hm'⟩
        exact cached_failsOnly hm' (ih (id :: active) (hr.tail hcall) hm')
      rw [fresh_eq hm ha]
      refine (generate_failsOnly hr hm hres).andThen ?_
      rintro code ⟨s, hs⟩
      exact (finish_failsOnly id method code).mono fun _ => .placement hs

theorem compile_refused (maxDepth : Nat) {s : State} {e : Error} (h : (compile p maxDepth root s).1 = .error e) :
    Refused p root e := by
  cases hm : p.method? root with
  | none =>
    simp only [compile, cached, hm] at h
    cases h
    exact .unknownMethod hm
  | some method => exact cached_failsOnly hm (fresh_failsOnly maxDepth maxDepth [] .refl hm) s e h

end Compiler

end StackMachine.Native
