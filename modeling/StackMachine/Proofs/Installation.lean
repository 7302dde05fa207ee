import Mathlib
import StackMachine.Proofs.CallGraph
import StackMachine.Proofs.Compilation
import StackMachine.Proofs.PlacementRuns

/-!
# Installing methods

Whether it succeeds or not, all that a request to compile does is to place and install one method after the other, each
after its callees.  A placement that fails leaves all code and all entries.

* `Regular` states are good and have a tidy block.
* `Installs p s ids t`: installing the methods `ids`, the last one first in the list, leads from `s` to `t`.
* `Stands`: a method's code is placed and its callees have their entries below.  Methods that are installed stand
  (`Installs.stands`).
-/

namespace StackMachine.Native

open X86 (Assembly)

/-- A method's code is placed in the block, and its callees have entries at lower addresses of the block. -/
structure Stands (p : Program) (b : CodeBlock) (es : Entries) (id : Nat) (q : Placement) : Prop where
  placed : q ∈ b.placed
  contains : b.contains q.entry = true
  generated : ∃ method, p.method? id = some method ∧ Generated p method
    (fun callee e => es.get? callee = some e ∧ b.contains e = true ∧ e.addr.toNat < q.entry.addr.toNat) q.code

theorem Listed.mono {p : Program} {method : Method} {target target' : Nat → CodePtr → Prop}
    {insns : List (Nat × Insn)} {height : Nat} {code : Assembly} (h : Listed p method target insns height code)
    (ht : ∀ callee entry, target callee entry → target' callee entry) :
    Listed p method target' insns height code := by
  induction h with
  | nil => exact .nil
  | plain he _ ih => exact .plain he ih
  | send hp hc _ ih => exact .send hp (ht _ _ hc) ih

theorem Generated.mono {p : Program} {method : Method} {target target' : Nat → CodePtr → Prop} {code : Assembly}
    (h : Generated p method target code) (ht : ∀ callee entry, target callee entry → target' callee entry) :
    Generated p method target' code := ⟨h.decodes, h.returns, h.listed.mono ht⟩

/-- Methods stand as long as entries stay and bytes are only added. -/
theorem Stands.mono {p : Program} {b b' : CodeBlock} {es es' : Entries} {id : Nat} {q : Placement}
    (h : Stands p b es id q) (hb : b.Appends b')
    (hes : ∀ id entry, es.get? id = some entry → es'.get? id = some entry) : Stands p b' es' id q := by
  obtain ⟨hplaced, hc, method, hm, hg⟩ := h
  refine ⟨hb.placed hplaced, hb.contains hc, method, hm, hg.mono ?_⟩
  rintro callee e ⟨he, hce, hlt⟩
  exact ⟨hes callee e he, hb.contains hce, hlt⟩

namespace Compiler

variable {p : Program} {s t u : State} {ids ids' : List Nat} {a id : Nat} {entry : CodePtr}

/-- A good state whose block is tidy. -/
structure State.Regular (p : Program) (s : State) : Prop where
  good : s.Good p
  tidy : s.block.Tidy

/-- A resolved method has its entry in the used part of the block. -/
theorem State.Good.contains (h : s.Good p) (hr : s.Resolved id entry) : s.block.contains entry = true := by
  obtain ⟨_, _, _, hfind⟩ := (h.backed id entry hr.1 hr.2).exists_placed
  obtain ⟨q, hq, haddr⟩ := CodeBlock.mem_of_find? hfind
  rw [CodeBlock.contains_iff, ← haddr]
  exact ⟨haddr ▸ hr.2.1, h.sound.placed_lt q hq⟩

/-! ### One method -/

/-- A method without entry is installed where its code was placed, unless its code is not placed. -/
theorem finish_cases (hs : s.Regular p) (hnone : s.entries.get? id = none) {method : Method} {code : Assembly}
    (hg : Generated p method s.Resolved code) :
    (∃ bytes, s.block.Adds code bytes (finish id method code s).2.block ∧
      (finish id method code s).1 = .ok s.block.next ∧
      (finish id method code s).2.entries = ⟨(id, s.block.next) :: s.entries.installed⟩) ∨
      ∃ e b, s.block.place code = (.error e, b) ∧ s.block.Retains b ∧
        finish id method code s = (.error e, { s with block := b }) := by
  rcases s.block.place_cases code with ⟨bytes, b, hp, hadds⟩ | ⟨e, b, hp, hretains⟩
  · have hpos : 0 < bytes.length := List.length_pos_iff.2 (X86.Assembly.encode_ne_nil hg.ne_nil hadds.encode_eq)
    have howned : b.contains s.block.next = true := by
      rw [CodeBlock.contains_iff, CodeBlock.toNat_next hs.tidy.fits hadds.used_lt, hadds.base_eq, hadds.used_eq]
      omega
    have hinst : s.entries.install id s.block.next = (s.block.next, ⟨(id, s.block.next) :: s.entries.installed⟩) := by
      simp only [Entries.install, hnone]
    refine .inl ⟨bytes, ?_⟩
    simp only [finish, hp, hinst]
    exact ⟨hadds, if_pos howned, rfl⟩
  · exact .inr ⟨e, b, hp, hretains, by simp only [finish, hp]⟩

theorem finish_ok (hs : s.Regular p) {method : Method} (hm : p.method? id = some method)
    (hnone : s.entries.get? id = none) {code : Assembly} (hg : Generated p method s.Resolved code)
    (hf : finish id method code s = (.ok entry, t)) :
    t.Regular p ∧ s.Extends t ∧ entry = s.block.next ∧
      ∃ bytes, s.block.Adds code bytes t.block ∧ t.entries = ⟨(id, entry) :: s.entries.installed⟩ := by
  obtain ⟨hdev, _⟩ := finish_develops hm hs.good.toFair hg
  rcases finish_cases hs hnone hg with ⟨bytes, hadds, hres, hentries⟩ | ⟨e, b, _, _, herr⟩
  · rw [hf] at hdev hres hadds hentries
    cases hres
    exact ⟨⟨hdev.good hs.good, hs.tidy.adds hadds⟩, hdev.extension, rfl, bytes, hadds, hentries⟩
  · rw [hf] at herr
    cases herr

/-- The method stands where its code was placed. -/
theorem finish_stands (hs : s.Regular p) {method : Method} (hm : p.method? id = some method)
    (hnone : s.entries.get? id = none) {code : Assembly} (hg : Generated p method s.Resolved code)
    (hf : finish id method code s = (.ok entry, t)) {bytes : List UInt8} (hadds : s.block.Adds code bytes t.block) :
    Stands p t.block t.entries id ⟨entry, code, bytes⟩ := by
  obtain ⟨hreg, hext, hentry, _, _, hentries⟩ := finish_ok hs hm hnone hg hf
  have hlt := hadds.used_lt
  have hnext := CodeBlock.toNat_next hs.tidy.fits hlt
  have hget : t.entries.get? id = some entry := by
    rw [hentries, Entries.get?_cons, if_pos rfl]
  refine ⟨?_, ?_, method, hm, hg.mono ?_⟩
  · rw [hadds.placed_eq, hentry]
    exact List.mem_cons_self
  · have hcovers : t.block.Covers entry := by
      rw [hext.grows.covers, hentry]
      exact ⟨by omega, by omega⟩
    exact hreg.good.contains ⟨hget, hcovers⟩
  · intro callee e hr
    have hc := hs.good.contains hr
    refine ⟨hext.kept callee e hr.1, hadds.appends.contains hc, ?_⟩
    rw [hentry, hnext]
    exact ((CodeBlock.contains_iff _ _).1 hc).2

/-- A placement that fails leaves a regular state. -/
theorem State.Regular.retains (hs : s.Regular p) {b : CodeBlock} (hb : s.block.Retains b) :
    State.Regular p { s with block := b } ∧ s.Extends { s with block := b } :=
  ⟨⟨⟨⟨hs.good.sound.retains hb, hs.good.valid⟩, hs.good.backed.grows hb.grows⟩, hs.tidy.retains hb⟩,
    ⟨hb.grows, fun _ _ h => h, fun _ _ h => .inl h, Nat.le_refl _⟩⟩

/-! ### Many methods -/

/-- One method after the other is installed, each after its callees; the list has the last one first. -/
inductive Installs (p : Program) (s : State) : List Nat → State → Prop where
  | refl : Installs p s [] s
  | retain {ids t b} (prior : Installs p s ids t) (hb : t.block.Retains b) : Installs p s ids { t with block := b }
  | step {ids id method code entry t u} (prior : Installs p s ids t) (hm : p.method? id = some method)
      (hnone : t.entries.get? id = none) (hg : Generated p method t.Resolved code)
      (hf : finish id method code t = (.ok entry, u)) : Installs p s (id :: ids) u

namespace Installs

theorem trans (h : Installs p s ids t) (h' : Installs p t ids' u) : Installs p s (ids' ++ ids) u := by
  induction h' with
  | refl => exact h
  | retain _ hb ih => exact .retain ih hb
  | step _ hm hnone hg hf ih => exact .step ih hm hnone hg hf

theorem regular (h : Installs p s ids t) (hs : s.Regular p) :
    t.Regular p ∧ s.Extends t ∧ s.block.Appends t.block := by
  induction h with
  | refl => exact ⟨hs, .refl s, .refl s.block⟩
  | retain _ hb ih =>
    obtain ⟨hreg, hext, happ⟩ := ih
    obtain ⟨hreg', hext'⟩ := hreg.retains hb
    exact ⟨hreg', hext.trans hext', happ.trans hb.appends⟩
  | step _ hm hnone hg hf ih =>
    obtain ⟨hreg, hext, happ⟩ := ih
    obtain ⟨hreg', hext', _, bytes, hadds, _⟩ := finish_ok hreg hm hnone hg hf
    exact ⟨hreg', hext.trans hext', happ.trans hadds.appends⟩

/-- Other methods keep their entries, or have none. -/
theorem get?_of_not_mem (h : Installs p s ids t) (hs : s.Regular p) (ha : a ∉ ids) :
    t.entries.get? a = s.entries.get? a := by
  induction h with
  | refl => rfl
  | retain _ _ ih => exact ih ha
  | step prior hm hnone hg hf ih =>
    rw [List.mem_cons, not_or] at ha
    obtain ⟨_, _, _, _, _, hentries⟩ := finish_ok (prior.regular hs).1 hm hnone hg hf
    rw [hentries, Entries.get?_cons, if_neg ha.1]
    exact ih ha.2

/-- A method that is installed had no entry and stands in the new part of the block. -/
theorem stands (h : Installs p s ids t) (hs : s.Regular p) (ha : a ∈ ids) :
    s.entries.get? a = none ∧ ∃ q, t.entries.get? a = some q.entry ∧ s.block.contains q.entry = false ∧
      Stands p t.block t.entries a q := by
  induction h with
  | refl => cases ha
  | retain _ hb ih =>
    obtain ⟨hold, q, hget, hfree, hst⟩ := ih ha
    exact ⟨hold, q, hget, hfree, hst.mono hb.appends fun _ _ he => he⟩
  | @step ids id method code entry t u prior hm hnone hg hf ih =>
    obtain ⟨hreg, hext, happ⟩ := prior.regular hs
    obtain ⟨hreg', hext', hentry, bytes, hadds, hentries⟩ := finish_ok hreg hm hnone hg hf
    rcases List.mem_cons.1 ha with rfl | ha
    · have hget : u.entries.get? a = some entry := by
        rw [hentries, Entries.get?_cons, if_pos rfl]
      refine ⟨hext.get?_eq_none hnone, ⟨entry, code, bytes⟩, hget, ?_, finish_stands hreg hm hnone hg hf hadds⟩
      have hused := happ.used_le
      rw [Bool.eq_false_iff, ne_eq, CodeBlock.contains_iff, hentry, CodeBlock.toNat_next hreg.tidy.fits hadds.used_lt,
        happ.base_eq]
      omega
    · obtain ⟨hold, q, hget, hfree, hst⟩ := ih ha
      exact ⟨hold, q, hext'.kept a q.entry hget, hfree, hst.mono hadds.appends hext'.kept⟩

end Installs

end Compiler

end StackMachine.Native
