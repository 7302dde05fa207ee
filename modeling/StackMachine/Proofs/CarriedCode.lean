import Mathlib
import StackMachine.Proofs.Emission
import StackMachine.Proofs.Settling

/-!
# Code at an entry

What can be read at the entry of a method that was installed, and what follows for the call graph.

* `Carries`: the bytes at the entry are those of the code that is generated for the method, and the callees have their
  entries below it.  It follows from how the method was installed (`Stands.carries`).
* `Entries.Standing`: the methods of a table with an entry in a block stand there.  Calls lead to lower addresses
  (`Standing.below`), so no such method can be called from itself (`Standing.acyclic`).
-/

namespace StackMachine.Native

open X86 (Assembly)
open Template (Call)

/-! ### What is read at an entry -/

/-- The machine call is the only one in the code of a call site. -/
theorem Template.Call.call_mem_code {c : Call} {entry : CodePtr} {target : X86.Operand}
    (h : X86.Insn.call target ∈ c.code entry) : target = .imm entry.addr.toInt64 := by
  have hskip : X86.Insn.call target ∉ skipArgs (c.args.length * Layout.wordSize) := by
    unfold skipArgs
    split
    · simp
    · simp
  simpa [Call.code, Call.enter, Call.storeArgs, List.mem_mapIdx, Template.slots, hskip] using h

namespace Listed

variable {p : Program} {method : Method} {target : Nat → CodePtr → Prop} {insns : List (Nat × Insn)} {height : Nat}
  {code : Assembly}

/-- Every `send` of the stream has its callee resolved. -/
theorem exists_target (h : Listed p method target insns height code) {pc : Nat} {idx : UInt64}
    (hmem : (pc, Insn.send idx) ∈ insns) :
    ∃ height c entry, Call.plan p method pc height idx = .ok c ∧ target c.callee entry := by
  induction h with
  | nil => cases hmem
  | plain he _ ih =>
    rcases List.mem_cons.1 hmem with heq | hmem
    · cases heq
      cases he
    · exact ih hmem
  | send hp ht _ ih =>
    rcases List.mem_cons.1 hmem with heq | hmem
    · cases heq
      exact ⟨_, _, _, hp, ht⟩
    · exact ih hmem

/-- Every machine call leads to the entry of a callee. -/
theorem call_mem (h : Listed p method target insns height code) {operand : X86.Operand}
    (hmem : X86.Insn.call operand ∈ code) :
    ∃ pc idx height c entry, (pc, Insn.send idx) ∈ insns ∧ Call.plan p method pc height idx = .ok c ∧
      target c.callee entry ∧ operand = .imm entry.addr.toInt64 := by
  induction h with
  | nil => cases hmem
  | plain he _ ih =>
    rcases List.mem_append.1 hmem with hmem | hmem
    · exact absurd hmem ((Template.emit_eq_ok.1 he).call_not_mem operand)
    · obtain ⟨pc, idx, height, c, entry, hin, hrest⟩ := ih hmem
      exact ⟨pc, idx, height, c, entry, List.mem_cons_of_mem _ hin, hrest⟩
  | send hp ht _ ih =>
    rcases List.mem_append.1 hmem with hmem | hmem
    · exact ⟨_, _, _, _, _, List.mem_cons_self, hp, ht, Call.call_mem_code hmem⟩
    · obtain ⟨pc, idx, height, c, entry, hin, hrest⟩ := ih hmem
      exact ⟨pc, idx, height, c, entry, List.mem_cons_of_mem _ hin, hrest⟩

/-- When all callees are resolved, code is generated without changing the state. -/
theorem generateInsns_eq {s : Compiler.State} (h : Listed p method s.Resolved insns height code) (hs : s.Good p)
    (fresh : Nat → Compiler.Step CodePtr) :
    Compiler.generateInsns (Compiler.cached fresh p) p method insns height s = (.ok code, s) := by
  induction h with
  | nil => rfl
  | @plain pc i rest height e code he _ ih =>
    have hinsn : Compiler.generateInsn (Compiler.cached fresh p) p method pc height i s = (.ok e, s) := by
      cases i with
      | send => cases he
      | _ => exact Prod.ext he rfl
    rw [Compiler.generateInsns_cons, Compiler.andThen_ok hinsn, Compiler.andThen_ok ih]
  | @send pc idx rest height c entry code hp ht _ ih =>
    obtain ⟨site, callee, _, _, hcallee, _, _, _, hc⟩ := Call.plan_eq_ok.1 hp
    have hm : p.method? c.callee = some callee := by rw [hc, hcallee]
    have hinsn : Compiler.generateInsn (Compiler.cached fresh p) p method pc height (.send idx) s =
        (.ok ⟨c.code entry, height - c.args.length⟩, s) := by
      simp only [Compiler.generateInsn, hp, Compiler.cached_of_resolved hs hm ht]
    rw [Compiler.generateInsns_cons, Compiler.andThen_ok hinsn, Compiler.andThen_ok ih]

end Listed

theorem Generated.generate_eq {p : Program} {method : Method} {s : Compiler.State} {code : Assembly}
    (h : Generated p method s.Resolved code) (hs : s.Good p) (fresh : Nat → Compiler.Step CodePtr) :
    Compiler.generate (Compiler.cached fresh p) p method s = (.ok code, s) := by
  obtain ⟨pc, hlast⟩ := h.returns
  rw [Compiler.generate_eq, Compiler.andThen_ok (h.listed.generateInsns_eq hs fresh)]
  simp only [Compiler.judged, h.decodes, hlast]

/-- At a method's entry are the bytes of the code that is generated for it, and all its callees have entries at lower
addresses of the block. -/
structure Carries (p : Program) (b : CodeBlock) (es : Entries) (id : Nat) (q : Placement) : Prop where
  contains : b.contains q.entry = true
  encodes : q.code.encode q.entry.addr = .ok q.bytes
  bytesAt : b.bytesAt? q.entry q.bytes.length = some q.bytes
  generates : ∃ method, p.method? id = some method ∧ ∀ fresh notices,
    Compiler.generate (Compiler.cached fresh p) p method ⟨b, es, notices⟩ = (.ok q.code, ⟨b, es, notices⟩)
  callees : ∀ callee, p.Calls id callee →
    ∃ e, es.get? callee = some e ∧ b.contains e = true ∧ e.addr.toNat < q.entry.addr.toNat
  targets : ∀ operand, X86.Insn.call operand ∈ q.code →
    ∃ callee e, p.Calls id callee ∧ es.get? callee = some e ∧ operand = .imm e.addr.toInt64

namespace Stands

variable {p : Program} {b : CodeBlock} {es : Entries} {id callee : Nat} {q : Placement}

/-- A method that stands has its callees below it. -/
theorem callee_below (h : Stands p b es id q) (hc : p.Calls id callee) :
    ∃ e, es.get? callee = some e ∧ b.contains e = true ∧ e.addr.toNat < q.entry.addr.toNat := by
  obtain ⟨method, hm, hg⟩ := h.generated
  obtain ⟨method', pc, idx, site, hm', hmem, hsite, rfl⟩ := hc
  rw [hm] at hm'
  cases hm'
  obtain ⟨height, c, entry, hp, ht⟩ := hg.listed.exists_target hmem
  obtain ⟨site', _, _, hsite', _, _, _, _, rfl⟩ := Call.plan_eq_ok.1 hp
  rw [hsite] at hsite'
  cases hsite'
  exact ⟨entry, ht⟩

theorem carries (h : Stands p b es id q) (hb : b.Tidy) (hgood : Compiler.State.Good p ⟨b, es, []⟩) :
    Carries p b es id q := by
  obtain ⟨method, hm, hg⟩ := h.generated
  obtain ⟨hencodes, hbytes⟩ := hb.bytesAt?_placed h.placed
  have hresolved : ∀ notices, Generated p method (Compiler.State.Resolved ⟨b, es, notices⟩) q.code := fun _ =>
    hg.mono fun _ _ he => ⟨he.1, hgood.sound.covers_of_contains he.2.1⟩
  refine ⟨h.contains, hencodes, hbytes, ⟨method, hm, fun fresh notices => ?_⟩, fun _ => h.callee_below, ?_⟩
  · exact (hresolved notices).generate_eq (hgood.withNotices notices) fresh
  · intro operand hmem
    obtain ⟨pc, idx, height, c, entry, hin, hp, ht, rfl⟩ := hg.listed.call_mem hmem
    exact ⟨c.callee, entry, Call.calls_of_plan hm hin hp, ht.1, rfl⟩

end Stands

/-! ### Tables -/

namespace Entries

/-- The methods with an entry in the block stand there. -/
def Standing (p : Program) (b : CodeBlock) (es : Entries) : Prop :=
  ∀ id entry, es.get? id = some entry → b.contains entry = true → ∃ q, q.entry = entry ∧ Stands p b es id q

namespace Standing

variable {p : Program} {b : CodeBlock} {es : Entries} {id callee : Nat} {entry : CodePtr}

theorem callee_below (h : es.Standing p b) (he : es.get? id = some entry) (hc : b.contains entry = true)
    (hcall : p.Calls id callee) :
    ∃ e, es.get? callee = some e ∧ b.contains e = true ∧ e.addr.toNat < entry.addr.toNat := by
  obtain ⟨q, rfl, hst⟩ := h id entry he hc
  exact hst.callee_below hcall

/-- Calls lead to lower addresses of the block. -/
theorem below (h : es.Standing p b) (he : es.get? id = some entry) (hc : b.contains entry = true)
    (hr : Relation.TransGen p.Calls id callee) :
    ∃ e, es.get? callee = some e ∧ b.contains e = true ∧ e.addr.toNat < entry.addr.toNat := by
  induction hr with
  | single hcall => exact h.callee_below he hc hcall
  | tail _ hcall ih =>
    obtain ⟨e, he, hc, hlt⟩ := ih
    obtain ⟨e', he', hc', hlt'⟩ := h.callee_below he hc hcall
    exact ⟨e', he', hc', hlt'.trans hlt⟩

theorem reaches (h : es.Standing p b) (he : es.get? id = some entry) (hc : b.contains entry = true)
    (hr : p.Reaches id callee) : ∃ e, es.get? callee = some e ∧ b.contains e = true := by
  rcases Relation.reflTransGen_iff_eq_or_transGen.1 hr with rfl | hr
  · exact ⟨entry, he, hc⟩
  · obtain ⟨e, he', hc', _⟩ := h.below he hc hr
    exact ⟨e, he', hc'⟩

/-- No chain of calls from a method that stands leads back to it. -/
theorem acyclic (h : es.Standing p b) (he : es.get? id = some entry) (hc : b.contains entry = true) :
    ¬Relation.TransGen p.Calls id id := by
  intro hcycle
  obtain ⟨e, he', _, hlt⟩ := h.below he hc hcycle
  rw [he] at he'
  cases he'
  exact lt_irrefl _ hlt

end Standing

end Entries

end StackMachine.Native
