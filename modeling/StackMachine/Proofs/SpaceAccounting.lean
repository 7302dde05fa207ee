import Mathlib
import StackMachine.Proofs.CarriedCode
import StackMachine.Proofs.CodeSize

/-!
# How much space code takes

In a block of at most 2 GiB each method that is installed takes its code size, so what is used up by a request is known
beforehand.

* `Generated.length_encode`, `Stands.length_bytes`: generated code has the size of its method.
* `Installs.used_eq`: the space that installing methods takes.
* `Program.pending` are the methods that a method needs and that are not installed.  Their size and the space that is
  left shrink by the same amount (`Installs.pending_eq`), so enough space stays enough (`Spacious.installs`).
-/

namespace StackMachine

open Native (Entries)

namespace Program

/-- Bytes of a method's code. -/
def codeSize (p : Program) (id : Nat) : Nat := ((p.method? id).map Method.codeSize).getD 0

open Classical in
/-- The methods that calls lead to and that have no entry. -/
noncomputable def pending (p : Program) (id : Nat) (es : Entries) : Finset Nat :=
  (Finset.range p.size).filter fun a => p.Reaches id a ∧ es.get? a = none

theorem mem_pending {p : Program} {id a : Nat} {es : Entries} :
    a ∈ p.pending id es ↔ a < p.size ∧ p.Reaches id a ∧ es.get? a = none := by
  simp [pending]

theorem codeSize_eq {p : Program} {id : Nat} {method : Method} (hm : p.method? id = some method) :
    p.codeSize id = method.codeSize := by
  simp [codeSize, hm]

theorem lt_size {p : Program} {id : Nat} {method : Method} (hm : p.method? id = some method) : id < p.size :=
  (Array.getElem?_eq_some_iff.1 hm).1

end Program

namespace Native

open X86 (Assembly)

variable {p : Program} {method : Method} {id : Nat}

/-! ### Code of a method -/

/-- Code whose callees lie below, from `lo` on, can be placed at `pos` and takes its size there. -/
theorem Generated.length_encode {target : Nat → CodePtr → Prop} {code : Assembly} (h : Generated p method target code)
    (htakes : code.Takes method.codeSize) {lo pos : Nat}
    (ht : ∀ callee e, target callee e → lo ≤ e.addr.toNat ∧ e.addr.toNat ≤ pos) :
    ∃ bytes, code.encode (UInt64.ofNat pos) = .ok bytes ∧ method.codeSize ≤ bytes.length ∧
      (pos + method.codeSize ≤ lo + 2 ^ 31 → bytes.length = method.codeSize) := by
  obtain ⟨bytes, hbytes, hle, hexact⟩ := htakes 0 pos
  refine ⟨bytes, hbytes, hle, hexact lo fun operand hmem => ?_⟩
  obtain ⟨_, _, _, c, entry, _, _, hc, rfl⟩ := h.listed.call_mem hmem
  exact ⟨entry.addr, rfl, ht c.callee entry hc⟩

theorem Stands.length_bytes {b : CodeBlock} {es : Entries} {q : Placement} (h : Stands p b es id q) (hb : b.Tidy)
    (hcap : b.capacity ≤ 2 ^ 31) : q.bytes.length = p.codeSize id := by
  obtain ⟨method, hm, hg⟩ := h.generated
  obtain ⟨hencode, hat⟩ := hb.bytesAt?_placed h.placed
  obtain ⟨hbase, hend⟩ := (hb.bytesAt?_isSome _ _).1 (Option.isSome_of_mem hat)
  have htargets : ∀ callee e, es.get? callee = some e ∧ b.contains e = true ∧ e.addr.toNat < q.entry.addr.toNat →
      b.base.toNat ≤ e.addr.toNat ∧ e.addr.toNat ≤ q.entry.addr.toNat := by
    rintro callee e ⟨_, hc, hlt⟩
    exact ⟨((CodeBlock.contains_iff _ _).1 hc).1, hlt.le⟩
  have htakes : q.code.Takes method.codeSize := hg.listed.takes_of_encode (Nat.zero_le _) hencode
  obtain ⟨bytes, hbytes, hle, hexact⟩ := hg.length_encode htakes htargets
  rw [UInt64.ofNat_toNat, hencode] at hbytes
  cases hbytes
  have hused := hb.used_le
  rw [Program.codeSize_eq hm]
  exact hexact (by omega)

namespace Compiler

variable {s t : State} {ids : List Nat} {root : Nat}

/-- The code of a method takes its size at the next address, if there is so much space. -/
theorem State.Regular.length_encode {code : Assembly} (hs : s.Regular p) (hg : Generated p method s.Resolved code)
    (hp : p.size ≤ 2 ^ 31) (hcap : s.block.capacity ≤ 2 ^ 31) :
    ∃ bytes, code.encode s.block.next.addr = .ok bytes ∧ method.codeSize ≤ bytes.length ∧
      (s.block.used + method.codeSize ≤ s.block.capacity → bytes.length = method.codeSize) := by
  have htargets : ∀ callee e, s.Resolved callee e →
      s.block.base.toNat ≤ e.addr.toNat ∧ e.addr.toNat ≤ s.block.base.toNat + s.block.used := by
    intro callee e hr
    obtain ⟨hlo, hlt⟩ := (CodeBlock.contains_iff _ _).1 (hs.good.contains hr)
    exact ⟨hlo, hlt.le⟩
  obtain ⟨bytes, hbytes, hle, hexact⟩ := hg.length_encode (hg.listed.takes hp (Nat.zero_le _)) htargets
  have hnext : UInt64.ofNat (s.block.base.toNat + s.block.used) = s.block.next.addr := by
    rw [UInt64.ofNat_add, UInt64.ofNat_toNat]
    rfl
  rw [hnext] at hbytes
  exact ⟨bytes, hbytes, hle, fun hfit => hexact (by omega)⟩

/-! ### Many methods -/

namespace Installs

theorem nodup (h : Installs p s ids t) (hs : s.Regular p) : ids.Nodup ∧ ∀ a ∈ ids, a < p.size := by
  induction h with
  | refl => exact ⟨List.nodup_nil, nofun⟩
  | retain _ _ ih => exact ih
  | @step ids id method code entry t u prior hm hnone hg hf ih =>
    refine ⟨List.nodup_cons.2 ⟨fun hmem => ?_, ih.1⟩, List.forall_mem_cons.2 ⟨Program.lt_size hm, ih.2⟩⟩
    obtain ⟨_, q, hq, _⟩ := prior.stands hs hmem
    rw [hq] at hnone
    cases hnone

/-- Installing methods takes the sum of their sizes. -/
theorem used_eq (h : Installs p s ids t) (hs : s.Regular p) (hp : p.size ≤ 2 ^ 31)
    (hcap : s.block.capacity ≤ 2 ^ 31) : t.block.used = s.block.used + (ids.map p.codeSize).sum := by
  induction h with
  | refl => rfl
  | retain _ hb ih => exact hb.used_eq.trans ih
  | @step ids id method code entry t u prior hm hnone hg hf ih =>
    obtain ⟨hreg, _, happ⟩ := prior.regular hs
    obtain ⟨_, _, rfl, bytes, hadds, _⟩ := finish_ok hreg hm hnone hg hf
    obtain ⟨bytes', hencode', hle, hexact⟩ := hreg.length_encode hg hp (happ.capacity_eq ▸ hcap)
    rw [hadds.encode_eq] at hencode'
    cases hencode'
    have hsize : bytes.length = method.codeSize := hexact (hreg.tidy.le_remaining_iff.1 (hle.trans hadds.length_le))
    rw [hadds.used_eq, List.map_cons, List.sum_cons, Program.codeSize_eq hm]
    omega

/-- What is installed is no longer pending. -/
theorem pending_eq (h : Installs p s ids t) (hs : s.Regular p) (hin : ∀ a ∈ ids, p.Reaches root a) :
    ∑ a ∈ p.pending root s.entries, p.codeSize a =
      (ids.map p.codeSize).sum + ∑ a ∈ p.pending root t.entries, p.codeSize a := by
  obtain ⟨hnodup, hlt⟩ := h.nodup hs
  have hset : p.pending root s.entries = ids.toFinset ∪ p.pending root t.entries := by
    ext a
    rw [Finset.mem_union, List.mem_toFinset, Program.mem_pending, Program.mem_pending]
    by_cases ha : a ∈ ids
    · obtain ⟨hnone, _⟩ := h.stands hs ha
      simp [ha, hlt a ha, hin a ha, hnone]
    · simp [ha, h.get?_of_not_mem hs ha]
  have hdisjoint : Disjoint ids.toFinset (p.pending root t.entries) := by
    rw [Finset.disjoint_left]
    intro a ha hpending
    obtain ⟨_, q, hq, _⟩ := h.stands hs (List.mem_toFinset.1 ha)
    rw [(Program.mem_pending.1 hpending).2.2] at hq
    cases hq
  rw [hset, Finset.sum_union hdisjoint, List.sum_toFinset _ hnodup]

end Installs

/-- The host refuses nothing, all entries are in the block, and there is space for the methods that are pending. -/
structure Spacious (p : Program) (root : Nat) (s : State) : Prop where
  regular : s.Regular p
  granted : s.block.Granted
  own : ∀ id entry, s.entries.get? id = some entry → s.block.contains entry = true
  capacity_le : s.block.capacity ≤ 2 ^ 31
  enough : ∑ a ∈ p.pending root s.entries, p.codeSize a ≤ s.block.remaining

theorem Spacious.installs (h : Spacious p root s) (hp : p.size ≤ 2 ^ 31) (hi : Installs p s ids t)
    (hin : ∀ a ∈ ids, p.Reaches root a) (hgranted : t.block.Granted) : Spacious p root t := by
  obtain ⟨hreg, hext, happ⟩ := hi.regular h.regular
  have hused := hi.used_eq h.regular hp h.capacity_le
  have hpending := hi.pending_eq h.regular hin
  have henough := h.regular.tidy.le_remaining_iff.1 h.enough
  refine ⟨hreg, hgranted, fun id entry he => ?_, happ.capacity_eq ▸ h.capacity_le, ?_⟩
  · by_cases hid : id ∈ ids
    · obtain ⟨_, q, hq, _, hst⟩ := hi.stands h.regular hid
      rw [hq] at he
      cases he
      exact hst.contains
    · rw [hi.get?_of_not_mem h.regular hid] at he
      exact happ.contains (h.own id entry he)
  · rw [hreg.tidy.le_remaining_iff, happ.capacity_eq]
    omega

end Compiler

end Native

end StackMachine
