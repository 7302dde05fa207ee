import Mathlib
import StackMachine.Proofs.InstalledEntries

/-!
# Repeated requests

A compiler that is asked for the same method twice in a row gives the same answer twice, down to the details of an
error, and the second time nothing changes.  A request that fails leaves behind the callees that it has installed on its
way, and their code is complete.

* `compile_settled`: a request that changes neither block nor table of the compiler's state is reported as such.
* `compile_again`: the second request.
* `compile_added`: what a request adds to the table.
* `Reachable.compile_repeats` puts this together for every workspace that is reached.
-/

namespace StackMachine.Native

namespace Jit

variable {j : Jit} {p : Program} {es : Entries} {id a : Nat} {entry : CodePtr}

/-- Without new bytes there is nothing to report. -/
theorem compile_settled {result : Except Error CodePtr}
    (h : Compiler.compile p j.settings.maxDepth id ⟨j.block, es, []⟩ = (result, ⟨j.block, es, []⟩)) :
    j.compile p es id = ⟨result, j, es, []⟩ := by
  have hstep : j.runStep es (Compiler.compile p j.settings.maxDepth id) = ⟨result, j, es, []⟩ := by
    simp only [runStep, h]
  simp only [compile, hstep, Nat.sub_self, bne_self_eq_false, Bool.and_false, Bool.false_eq_true, if_false]
  cases result with
  | ok entry => rfl
  | error e => rfl

/-- A request changes the block of the compiler and nothing else of it. -/
theorem settings_compile (j : Jit) (p : Program) (es : Entries) (id : Nat) :
    (j.compile p es id).jit.settings = j.settings := by
  unfold compile
  simp only
  split
  · split
    · rfl
    · rfl
  · rfl

theorem compile_again (h : Compiler.State.Regular p ⟨j.block, es, []⟩) (hgranted : j.block.Granted) (id : Nat) :
    (j.compile p es id).jit.compile p (j.compile p es id).entries id =
      ⟨(j.compile p es id).result, (j.compile p es id).jit, (j.compile p es id).entries, []⟩ := by
  obtain ⟨hresult, hblock, hentries⟩ := j.compile_eq p es id
  obtain ⟨⟨ids, hi, _⟩, _, hok, herror⟩ := Compiler.compile_settles p j.settings.maxDepth id h
  replace herror := herror hgranted
  obtain ⟨hreg, _, _⟩ := hi.regular h
  apply compile_settled
  rw [settings_compile, hresult, hblock, hentries]
  -- the state that the second request starts from is the first one's last, without its notices
  generalize Compiler.compile p j.settings.maxDepth id ⟨j.block, es, []⟩ = done at hok herror hreg
  obtain ⟨result, s⟩ := done
  cases result with
  | ok entry => exact hok entry rfl _ (hreg.good.withNotices []) (.withNotices (.refl s) [])
  | error e => exact herror e rfl []

/-- New entries are those of methods that the request needs, and their code is placed in the new part of the block. -/
theorem compile_added (h : Compiler.State.Regular p ⟨j.block, es, []⟩) (hnone : es.get? a = none)
    (ha : (j.compile p es id).entries.get? a = some entry) :
    p.Reaches id a ∧ j.block.contains entry = false ∧
      ∃ q, q.entry = entry ∧ Stands p (j.compile p es id).jit.block (j.compile p es id).entries a q := by
  obtain ⟨_, hblock, hentries⟩ := j.compile_eq p es id
  obtain ⟨⟨ids, hi, hin⟩, _, _⟩ := Compiler.compile_settles p j.settings.maxDepth id h
  rw [hblock, hentries]
  rw [hentries] at ha
  by_cases hmem : a ∈ ids
  · obtain ⟨_, q, hq, hfree, hst⟩ := hi.stands h hmem
    rw [hq] at ha
    cases ha
    exact ⟨hin a hmem, hfree, q, rfl, hst⟩
  · rw [hi.get?_of_not_mem h hmem, hnone] at ha
    cases ha

/-- A request that fails does not install the method that it was for. -/
theorem compile_error_entry (h : Compiler.State.Regular p ⟨j.block, es, []⟩) (hgranted : j.block.Granted) {e : Error}
    (he : (j.compile p es id).result = .error e) : (j.compile p es id).entries.get? id = es.get? id := by
  have hkept := (serve_develops h.good.toFair (.compile id)).extension.kept
  cases hold : es.get? id with
  | some entry => exact hkept id entry hold
  | none =>
    cases hnew : (j.compile p es id).entries.get? id with
    | none => rfl
    | some entry =>
      -- the entry would be found by the second request, which fails like the first
      obtain ⟨_, _, q, rfl, hst⟩ := compile_added h hold hnew
      obtain ⟨method, hm, _⟩ := hst.generated
      have hagain := congrArg Done.result (compile_again h hgranted id)
      rw [he, ((j.compile p es id).jit.compile_eq p (j.compile p es id).entries id).1] at hagain
      simp only [Compiler.compile, Compiler.cached, hm, hnew, Compiler.owned, if_pos hst.contains] at hagain
      cases hagain

end Jit

/-- As long as the host refuses no change of protection, asking again gives the same answer and changes nothing.
Entries and bytes stay; new entries are those of methods whose code is completely placed, and if the request fails, its
own method is none of them. -/
theorem Workspace.Reachable.compile_repeats {w : Workspace} (hw : w.Reachable) {j : Jit} (hj : j ∈ w.jits)
    (hgranted : j.block.Granted) {p : Program} {es : Entries} (ht : (p, es) ∈ w.tables) (id : Nat) :
    let done := j.compile p es id
    done.jit.compile p done.entries id = ⟨done.result, done.jit, done.entries, []⟩ ∧
      (∀ a entry, es.get? a = some entry → done.entries.get? a = some entry) ∧
      (∀ ptr n bytes, j.block.bytesAt? ptr n = some bytes → done.jit.block.bytesAt? ptr n = some bytes) ∧
      done.jit.block.memory.isExecutable = true ∧ done.jit.block.memory.isWritable = false ∧
      (∀ a entry, es.get? a = none → done.entries.get? a = some entry → p.Reaches id a ∧
        j.block.contains entry = false ∧ ∃ q, q.entry = entry ∧ Carries p done.jit.block done.entries a q) ∧
      ∀ e, done.result = .error e → done.entries.get? id = es.get? id ∧
        ∀ a entry, es.get? a = none → done.entries.get? a = some entry → Relation.TransGen p.Calls id a := by
  have hreg := hw.standing.regular hw.sound hj ht
  have hdev := Jit.serve_develops hreg.good.toFair (.compile id)
  have hgranted' := hdev.granted hgranted
  obtain ⟨htidy, happ, _⟩ := Jit.serve_stands hreg (.compile id)
  intro done
  refine ⟨Jit.compile_again hreg hgranted id, hdev.extension.kept, fun ptr n bytes => happ.bytesAt? hreg.tidy htidy,
    hgranted'.isExecutable, hgranted'.isWritable, ?_, ?_⟩
  · intro a entry hnone hnew
    obtain ⟨hr, hfree, q, hq, hst⟩ := Jit.compile_added hreg hnone hnew
    exact ⟨hr, hfree, q, hq, hst.carries htidy (hdev.good hreg.good)⟩
  · intro e he
    have hown := Jit.compile_error_entry hreg hgranted he
    refine ⟨hown, fun a entry hnone hnew => ?_⟩
    obtain ⟨hr, _, _⟩ := Jit.compile_added hreg hnone hnew
    rcases Relation.reflTransGen_iff_eq_or_transGen.1 hr with rfl | hr
    · rw [hown, hnone] at hnew
      cases hnew
    · exact hr

/-- Method 1 calls method 0 and does not return. -/
def openProgram : Program :=
  ⟨#[((Draft.empty.insn .putNil).insn .leave).method "empty" 0,
    ((Draft.empty.insn .putSelf).send ⟨0, 0⟩).method "open" 0]⟩

private theorem openProgram_history :
    ∃ j, Workspace.Reachable ⟨[j], [(openProgram, .empty)]⟩ ∧ j.block.Granted ∧
      (j.compile openProgram .empty 1).result = .error (.missingReturn "open") ∧
      (j.compile openProgram .empty 1).entries.get? 0 = some ⟨65553⟩ := by
  have hw := Workspace.reachable_new (show Jit.new (.lending 0x10000 0x1000000) .default = .ok (_, _) from rfl)
    (by decide +kernel) openProgram
  exact ⟨_, hw, ⟨by decide +kernel, by decide +kernel⟩, by decide +kernel, by decide +kernel⟩

/-- The callee of a method that cannot be compiled stays installed; the second attempt ends in the same error. -/
theorem Workspace.Reachable.compile_repeats_openProgram :
    ∃ j, Reachable ⟨[j], [(openProgram, .empty)]⟩ ∧ j.block.Granted ∧
      let done := j.compile openProgram .empty 1
      done.result = .error (.missingReturn "open") ∧ done.entries.get? 0 = some ⟨65553⟩ ∧
        Relation.TransGen openProgram.Calls 1 0 ∧ done.entries.get? 1 = none ∧
        done.jit.compile openProgram done.entries 1 = ⟨.error (.missingReturn "open"), done.jit, done.entries, []⟩ := by
  obtain ⟨j, hw, hgranted, hresult, hcallee⟩ := openProgram_history
  obtain ⟨hagain, _, _, _, _, _, herror⟩ := hw.compile_repeats List.mem_cons_self hgranted List.mem_cons_self 1
  obtain ⟨hown, hnew⟩ := herror _ hresult
  rw [hresult] at hagain
  exact ⟨j, hw, hgranted, hresult, hcallee, hnew 0 _ rfl hcallee, hown, hagain⟩

end StackMachine.Native
