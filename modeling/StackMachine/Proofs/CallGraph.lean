import Mathlib
import StackMachine.Native.Template

/-!
# The call graph

One method calls another when a `send` names it, wherever in the stream the `send` stands: code is generated for the
whole stream, so what comes after a `leave` counts too.

`Template.Call.plan_eq_ok` is what a call site must satisfy for code to be generated for it.
-/

namespace StackMachine

namespace Program

/-- A `send` in the stream of the one method names the other. -/
def Calls (p : Program) (caller callee : Nat) : Prop :=
  ∃ m pc idx site, p.method? caller = some m ∧ (pc, Insn.send idx) ∈ m.sweep.insns ∧ m.site? idx = some site ∧
    site.callee = callee

/-- Calls lead from the one method to the other, or they are the same. -/
abbrev Reaches (p : Program) : Nat → Nat → Prop := Relation.ReflTransGen p.Calls

end Program

namespace Native.Template.Call

/-- The conditions under which a call site is planned, and the plan. -/
theorem plan_eq_ok {p : Program} {m : Method} {pc height : Nat} {idx : UInt64} {c : Call} :
    plan p m pc height idx = .ok c ↔
      ∃ site callee receiver, m.site? idx = some site ∧ p.method? site.callee = some callee ∧
        site.argc.toNat = callee.locals ∧ site.argc.toNat + 1 ≠ UInt64.size ∧
        peek? height site.argc.toNat = some receiver ∧
        c = ⟨site.callee, receiver, (List.range site.argc.toNat).reverse.filterMap (peek? height)⟩ := by
  constructor
  · intro h
    unfold plan at h
    split at h
    · cases h
    rename_i site hsite
    split at h
    · cases h
    rename_i callee hcallee
    simp only at h
    split at h
    · cases h
    rename_i harity
    split at h
    · cases h
    rename_i hcount
    split at h
    · cases h
    rename_i receiver hreceiver
    cases h
    exact ⟨site, callee, receiver, hsite, hcallee, not_not.1 harity, hcount, hreceiver, rfl⟩
  · rintro ⟨site, callee, receiver, hsite, hcallee, harity, hcount, hreceiver, rfl⟩
    unfold plan
    simp only [hsite, hcallee]
    rw [if_neg (not_not.2 harity), if_neg hcount]
    simp only [hreceiver]

/-- A call site that is planned is an edge of the call graph. -/
theorem calls_of_plan {p : Program} {id : Nat} {m : Method} {pc height : Nat} {idx : UInt64} {c : Call}
    (hm : p.method? id = some m) (hmem : (pc, Insn.send idx) ∈ m.sweep.insns) (hp : plan p m pc height idx = .ok c) :
    p.Calls id c.callee := by
  obtain ⟨site, _, _, hsite, _, _, _, _, rfl⟩ := plan_eq_ok.1 hp
  exact ⟨m, pc, idx, site, hm, hmem, hsite, rfl⟩

end Native.Template.Call

end StackMachine
