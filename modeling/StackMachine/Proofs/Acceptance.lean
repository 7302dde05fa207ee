import Mathlib
import StackMachine.Proofs.InstalledEntries
import StackMachine.Proofs.SpaceAccounting
import StackMachine.Proofs.WellFormed

/-!
# The programs that are accepted

A compiler that is alone accepts a method exactly if all methods that calls lead to are well-formed, none of them can be
called from itself, and there is space for those that are not installed yet.

* `generate_succeeds`: code is generated for a well-formed method if its callees can be resolved.
* `fresh_succeeds`: methods are compiled, by induction on how many may still join the chain.  The chain has no method
  twice since calls lead from each method of the chain to the next, so it is never longer than the program.
* `Reachable.compile_ok_iff` is the equivalence.
-/

namespace StackMachine.Native

open X86 (Assembly)
open Template (Call emit)

namespace Compiler

variable {p : Program} {method : Method} {s : State} {id root : Nat} {resolve : Nat → Step CodePtr}

/-! ### Generating code -/

/-- Callees are resolved, and only methods that `root` reaches are installed on the way. -/
def Resolves (p : Program) (root id : Nat) (resolve : Nat → Step CodePtr) : Prop :=
  ∀ callee, p.Calls id callee → ∀ s, Spacious p root s →
    (∃ entry, (resolve callee s).1 = .ok entry) ∧ Settles p (p.Reaches root) (resolve callee) s

/-- An instruction that finds what it needs. -/
private theorem generateInsn_succeeds (hp : p.size ≤ 2 ^ 31) (hm : p.method? id = some method)
    (hr : Resolves p root id resolve) {pc height : Nat} {i : Insn} (hmem : (pc, i) ∈ method.sweep.insns)
    (hadmits : p.Admits method i) (hh : height ≤ 4) (hneeds : method.needs i ≤ height)
    (hafter : method.heightAfter height i ≤ 4) (hs : Spacious p root s) :
    ∃ emitted t, generateInsn resolve p method pc height i s = (.ok emitted, t) ∧
      emitted.height = method.heightAfter height i ∧ Spacious p root t := by
  by_cases hsend : ∃ idx, i = .send idx
  · obtain ⟨idx, rfl⟩ := hsend
    obtain ⟨c, hplan⟩ := Call.exists_plan hadmits pc hh hneeds
    obtain ⟨_, _, hheight⟩ := Call.admits_of_plan hplan hh
    obtain ⟨⟨entry, hentry⟩, hsettles⟩ := hr c.callee (Call.calls_of_plan hm hmem hplan) s hs
    obtain ⟨ids, hi, hin⟩ := hsettles.installs
    refine ⟨⟨c.code entry, height - c.args.length⟩, (resolve c.callee s).2, ?_, hheight,
      hs.installs hp hi hin (hsettles.granted hs.granted)⟩
    have hresolve : resolve c.callee s = (.ok entry, (resolve c.callee s).2) := Prod.ext hentry rfl
    simp only [generateInsn, hplan]
    rw [hresolve]
  · have hplain : ∀ idx, i ≠ .send idx := fun idx heq => hsend ⟨idx, heq⟩
    obtain ⟨e, hemits⟩ := Template.exists_emits hadmits hplain hh hneeds hafter
    refine ⟨e, s, ?_, (hemits.admits (p := p) hh).2.2, hs⟩
    have hemit : emit method pc height i = .ok e := Template.emit_eq_ok.2 hemits
    cases i with
    | send idx => exact absurd rfl (hplain idx)
    | _ => exact Prod.ext hemit rfl

private theorem generateInsns_succeeds (hp : p.size ≤ 2 ^ 31) (hm : p.method? id = some method)
    (hr : Resolves p root id resolve) (hadmitted : ∀ pc i, (pc, i) ∈ method.sweep.insns → p.Admits method i)
    {insns : List (Nat × Insn)} (hsub : insns ⊆ method.sweep.insns) {height : Nat} (hh : height ≤ 4)
    (hbalanced : method.Balanced insns height) (hs : Spacious p root s) :
    ∃ code, (generateInsns resolve p method insns height s).1 = .ok code := by
  induction insns generalizing height s with
  | nil => exact ⟨[], rfl⟩
  | cons head rest ih =>
    obtain ⟨pc, i⟩ := head
    rw [List.cons_subset] at hsub
    obtain ⟨hneeds, hafter, hrest⟩ := hbalanced
    obtain ⟨emitted, t, hinsn, hheight, ht⟩ :=
      generateInsn_succeeds hp hm hr hsub.1 (hadmitted pc i hsub.1) hh hneeds hafter hs
    obtain ⟨more, hmore⟩ := ih hsub.2 hafter hrest ht
    rw [generateInsns_cons, andThen_ok hinsn, hheight, andThen_ok (Prod.ext hmore rfl)]
    exact ⟨_, rfl⟩

theorem generate_succeeds (hp : p.size ≤ 2 ^ 31) (hm : p.method? id = some method) (hr : Resolves p root id resolve)
    (hwell : method.WellFormed p) (hs : Spacious p root s) : ∃ code, (generate resolve p method s).1 = .ok code := by
  obtain ⟨code, hcode⟩ := generateInsns_succeeds hp hm hr hwell.admitted (List.Subset.refl _) (Nat.zero_le _)
    hwell.balanced hs
  obtain ⟨pc, hlast⟩ := hwell.returns
  rw [generate_eq, andThen_ok (Prod.ext hcode rfl)]
  simp only [judged, hwell.decodes, hlast]
  exact ⟨code, rfl⟩

/-! ### Placing code -/

/-- There is space for a method that is pending. -/
theorem finish_succeeds (hp : p.size ≤ 2 ^ 31) (hs : Spacious p root s) (hm : p.method? id = some method)
    (hr : p.Reaches root id) (hnone : s.entries.get? id = none) {code : Assembly}
    (hg : Generated p method s.Resolved code) : ∃ entry, (finish id method code s).1 = .ok entry := by
  rcases finish_cases hs.regular hnone hg with ⟨bytes, _, hres, _⟩ | ⟨e, _, hplace, _, _⟩
  · exact ⟨_, hres⟩
  · exfalso
    obtain ⟨bytes, hencode, hle, hexact⟩ := hs.regular.length_encode hg hp hs.capacity_le
    have hmem : id ∈ p.pending root s.entries := Program.mem_pending.2 ⟨Program.lt_size hm, hr, hnone⟩
    have hsize : method.codeSize ≤ s.block.remaining := by
      rw [← Program.codeSize_eq hm]
      exact (Finset.single_le_sum (fun a _ => Nat.zero_le (p.codeSize a)) hmem).trans hs.enough
    have hfit := hs.regular.tidy.le_remaining_iff.1 hsize
    have hlen : bytes.length = method.codeSize := hexact hfit
    have hpos : 0 < bytes.length := List.length_pos_iff.2 (X86.Assembly.encode_ne_nil hg.ne_nil hencode)
    have hlt : s.block.used < s.block.capacity := by omega
    obtain ⟨q, hq⟩ := (hs.granted.place_ok_iff code).2 ⟨bytes, hencode, hlen ▸ hsize, hlt⟩
    rw [hplace] at hq
    cases hq

/-! ### Requests for a method -/

theorem cached_succeeds {fresh : Nat → Step CodePtr} (hs : Spacious p root s) (hm : p.method? id = some method)
    (hf : s.entries.get? id = none → ∃ entry, (fresh id s).1 = .ok entry) :
    ∃ entry, (cached fresh p id s).1 = .ok entry := by
  cases hget : s.entries.get? id with
  | none =>
    simp only [cached, hm, hget]
    exact hf hget
  | some entry =>
    refine ⟨entry, ?_⟩
    simp only [cached, hm, hget, owned, if_pos (hs.own id entry hget)]

/-- All methods that calls lead to are well-formed, and no chain of calls leads from one of them back to it. -/
structure Acceptable (p : Program) (root : Nat) : Prop where
  wellFormed : ∀ a, p.Reaches root a → ∃ method, p.method? a = some method ∧ method.WellFormed p
  acyclic : ∀ a, p.Reaches root a → ¬Relation.TransGen p.Calls a a

/-- Calls lead from each method of the chain to the next, so the chain has no method twice and room for one more. -/
private structure Chain (p : Program) (active : List Nat) (id : Nat) : Prop where
  calls : ∀ a ∈ active, Relation.TransGen p.Calls a id
  nodup : active.Nodup
  known : ∀ a ∈ active, a < p.size

private theorem Chain.not_mem {active : List Nat} (h : Chain p active id) (hid : ¬Relation.TransGen p.Calls id id) :
    id ∉ active := fun hmem => hid (h.calls id hmem)

private theorem Chain.length_lt {active : List Nat} (h : Chain p active id) (hid : id ∉ active) (hlt : id < p.size) :
    active.length < p.size := by
  have hnodup : (id :: active).Nodup := List.nodup_cons.2 ⟨hid, h.nodup⟩
  have hsub : id :: active ⊆ List.range p.size := by
    intro a ha
    rcases List.mem_cons.1 ha with rfl | ha
    · exact List.mem_range.2 hlt
    · exact List.mem_range.2 (h.known a ha)
  have hle := (hnodup.subperm hsub).length_le
  rw [List.length_cons, List.length_range] at hle
  exact hle

private theorem Chain.cons {active : List Nat} (h : Chain p active id) (hid : id ∉ active) (hlt : id < p.size)
    {callee : Nat} (hcall : p.Calls id callee) : Chain p (id :: active) callee := by
  refine ⟨fun a ha => ?_, List.nodup_cons.2 ⟨hid, h.nodup⟩, List.forall_mem_cons.2 ⟨hlt, h.known⟩⟩
  rcases List.mem_cons.1 ha with rfl | ha
  · exact .single hcall
  · exact (h.calls a ha).tail hcall

private theorem fresh_succeeds (hp : p.size ≤ 2 ^ 31) (hroot : Acceptable p root) (maxDepth left : Nat)
    {active : List Nat} (hchain : Chain p active id) (hleft : p.size ≤ active.length + left) (hr : p.Reaches root id)
    (hs : Spacious p root s) (hnone : s.entries.get? id = none) :
    ∃ entry, (fresh p maxDepth left active id s).1 = .ok entry := by
  induction left generalizing active id s with
  | zero =>
    obtain ⟨method, hm, _⟩ := hroot.wellFormed id hr
    have := hchain.length_lt (hchain.not_mem (hroot.acyclic id hr)) (Program.lt_size hm)
    omega
  | succ left ih =>
    obtain ⟨method, hm, hwell⟩ := hroot.wellFormed id hr
    have hid := hchain.not_mem (hroot.acyclic id hr)
    have hresp := fresh_respects p maxDepth left (id :: active)
    have hresolves : Resolves p root id (cached (fresh p maxDepth left (id :: active)) p) := by
      intro callee hcall t ht
      have hr' : p.Reaches root callee := hr.tail hcall
      obtain ⟨method', hm', _⟩ := hroot.wellFormed callee hr'
      refine ⟨cached_succeeds ht hm' ?_, ?_⟩
      · exact ih (hchain.cons hid (Program.lt_size hm) hcall) (by rw [List.length_cons]; omega) hr' ht
      · have hsettles := cached_settles hresp
          (fun hn => fresh_settles p maxDepth left (id :: active) callee ht.regular hn) ht.regular
        exact hsettles.mono fun a ha => hr'.trans ha.2
    obtain ⟨code, hcode⟩ := generate_succeeds hp hm hresolves hwell hs
    obtain ⟨_, hgenerated⟩ := generate_respects (cached_respects hresp) method s hs.regular.good.toFair
    obtain ⟨⟨ids, hi, hin⟩, hgranted, _⟩ := generate_cached_settles active hs.regular hm hresp fun callee t ht hn =>
      fresh_settles p maxDepth left (id :: active) callee ht hn
    have hs' := hs.installs hp hi (fun a ha => hr.trans (hin a ha).2) (hgranted hs.granted)
    have hnone' := (hi.get?_of_not_mem hs.regular fun hmem => (hin id hmem).1 List.mem_cons_self).trans hnone
    rw [fresh_eq hm hid, andThen_ok (Prod.ext hcode rfl)]
    exact finish_succeeds hp hs' hm hr hnone' (hgenerated code hcode)

theorem compile_succeeds (hp : p.size ≤ 2 ^ 31) (hid : Acceptable p id) {maxDepth : Nat} (hdepth : p.size ≤ maxDepth)
    (hs : Spacious p id s) : ∃ entry, (compile p maxDepth id s).1 = .ok entry := by
  obtain ⟨method, hm, _⟩ := hid.wellFormed id .refl
  refine cached_succeeds hs hm fun hnone => ?_
  exact fresh_succeeds hp hid maxDepth maxDepth ⟨nofun, List.nodup_nil, nofun⟩ (by simpa using hdepth) .refl hs hnone

end Compiler

/-! ### What is accepted -/

namespace Workspace.Reachable

variable {w : Workspace} {j : Jit} {p : Program} {es : Entries} {id : Nat} {entry : CodePtr}

/-- After a request that succeeds, every method that calls lead to stands in the block. -/
private theorem exists_stands_of_compile (hw : w.Reachable) (hj : j ∈ w.jits) (ht : (p, es) ∈ w.tables)
    (hok : (j.compile p es id).result = .ok entry) {a : Nat} (ha : p.Reaches id a) :
    ∃ q, (j.compile p es id).entries.get? a = some q.entry ∧
      Stands p (j.compile p es id).jit.block (j.compile p es id).entries a q ∧ ¬Relation.TransGen p.Calls a a := by
  obtain ⟨hresult, hblock, hentries⟩ := j.compile_eq p es id
  have hgood := hw.sound.good hj ht
  obtain ⟨hdev, hpost⟩ := Compiler.compile_respects p j.settings.maxDepth id _ hgood.toFair
  have hresolved := hpost entry (hresult ▸ hok)
  have hstanding : (j.compile p es id).entries.Standing p (j.compile p es id).jit.block :=
    hw.serve_standing hj ht (.compile id)
  have hentry : (j.compile p es id).entries.get? id = some entry := hentries ▸ hresolved.1
  have hcontains : (j.compile p es id).jit.block.contains entry = true := hblock ▸ (hdev.good hgood).contains hresolved
  obtain ⟨e, he, hc⟩ := hstanding.reaches hentry hcontains ha
  obtain ⟨q, rfl, hst⟩ := hstanding a e he hc
  exact ⟨q, he, hst, hstanding.acyclic he hc⟩

/-- A request that succeeds has used the space of the methods that were pending. -/
private theorem pending_le_of_compile (hw : w.Reachable) (hj : j ∈ w.jits) (ht : (p, es) ∈ w.tables)
    (hp : p.size ≤ 2 ^ 31) (hcap : j.block.capacity ≤ 2 ^ 31) (hok : (j.compile p es id).result = .ok entry) :
    ∑ a ∈ p.pending id es, p.codeSize a ≤ j.block.remaining := by
  have hreg := hw.standing.regular hw.sound hj ht
  obtain ⟨ids, hi, hin⟩ := (Compiler.compile_settles p j.settings.maxDepth id hreg).installs
  obtain ⟨hreg', _, happ⟩ := hi.regular hreg
  have hused := hi.used_eq hreg hp hcap
  have hpending := hi.pending_eq hreg hin
  have hnone : p.pending id (Compiler.compile p j.settings.maxDepth id ⟨j.block, es, []⟩).2.entries = ∅ := by
    refine Finset.eq_empty_of_forall_notMem fun a ha => ?_
    obtain ⟨_, hr, hget⟩ := Program.mem_pending.1 ha
    obtain ⟨q, hq, _⟩ := hw.exists_stands_of_compile hj ht hok hr
    rw [(j.compile_eq p es id).2.2, hget] at hq
    cases hq
  rw [hnone, Finset.sum_empty] at hpending
  have hle := hreg'.tidy.used_le
  rw [happ.capacity_eq] at hle
  refine hreg.tidy.le_remaining_iff.2 ?_
  simp only at hused hpending hle ⊢
  omega

/-- The only compiler has all entries in its block. -/
theorem contains_of_single {tables : List (Program × Entries)} (hw : Reachable ⟨[j], tables⟩)
    (ht : (p, es) ∈ tables) (he : es.get? id = some entry) : j.block.contains entry = true := by
  obtain ⟨j', hj', hcovers⟩ := hw.sound.owned _ ht id entry he
  rw [List.mem_singleton.1 hj'] at hcovers
  exact (hw.sound.good List.mem_cons_self ht).contains ⟨he, hcovers⟩

/-- A compiler that is alone, on a host that refuses no change of protection, compiles a method exactly if the method
exists, no method that calls lead to can be called from itself, those that are not installed fit in the space that is
left, and all are well-formed.  The sizes are those of the code that is placed. -/
theorem compile_ok_iff {tables : List (Program × Entries)} (hw : Reachable ⟨[j], tables⟩) (hgranted : j.block.Granted)
    (ht : (p, es) ∈ tables) (hsize : p.size < 2 ^ 31) (hcap : j.block.capacity ≤ 2 ^ 31)
    (hdepth : p.size ≤ j.settings.maxDepth) (id : Nat) :
    ((∃ entry, (j.compile p es id).result = .ok entry) ↔
      id < p.size ∧ (∀ a, p.Reaches id a → ¬Relation.TransGen p.Calls a a) ∧
        ∑ a ∈ p.pending id es, p.codeSize a ≤ j.block.remaining ∧
        ∀ a, p.Reaches id a → ∃ method, p.method? a = some method ∧ method.WellFormed p) ∧
      ∀ a entry, es.get? a = none → (j.compile p es id).entries.get? a = some entry →
        ∃ q ∈ (j.compile p es id).jit.block.placed, q.entry = entry ∧ q.bytes.length = p.codeSize a := by
  have hreg := hw.standing.regular hw.sound List.mem_cons_self ht
  refine ⟨⟨?_, ?_⟩, ?_⟩
  · rintro ⟨entry, hok⟩
    have hstands := fun {a} => hw.exists_stands_of_compile List.mem_cons_self ht hok (a := a)
    have hwell : ∀ a, p.Reaches id a → ∃ method, p.method? a = some method ∧ method.WellFormed p := by
      intro a ha
      obtain ⟨q, _, hst, _⟩ := hstands ha
      obtain ⟨method, hm, hg⟩ := hst.generated
      exact ⟨method, hm, hg.wellFormed⟩
    have hacyclic : ∀ a, p.Reaches id a → ¬Relation.TransGen p.Calls a a := by
      intro a ha
      obtain ⟨_, _, _, hacyclic⟩ := hstands ha
      exact hacyclic
    obtain ⟨method, hm, _⟩ := hwell id .refl
    exact ⟨Program.lt_size hm, hacyclic, hw.pending_le_of_compile List.mem_cons_self ht hsize.le hcap hok, hwell⟩
  · rintro ⟨_, hacyclic, henough, hwell⟩
    have hspacious : Compiler.Spacious p id ⟨j.block, es, []⟩ :=
      ⟨hreg, hgranted, fun id entry he => hw.contains_of_single ht he, hcap, henough⟩
    obtain ⟨entry, hentry⟩ := Compiler.compile_succeeds hsize.le ⟨hwell, hacyclic⟩ hdepth hspacious
    exact ⟨entry, (j.compile_eq p es id).1.trans hentry⟩
  · intro a entry hnone hnew
    obtain ⟨htidy, happ, hadded⟩ := Jit.serve_stands hreg (.compile id)
    rcases hadded a entry hnew with hold | ⟨_, _, q, hq, hst⟩
    · rw [hnone] at hold
      cases hold
    · exact ⟨q, hst.placed, hq, hst.length_bytes htidy (happ.capacity_eq ▸ hcap)⟩

/-- Method 0 is compiled, and with it method 1 is accepted. -/
private theorem sumProgram_accepted :
    ∃ j es entry, Reachable ⟨[j], [(sumProgram, es)]⟩ ∧ j.block.Granted ∧ j.block.capacity ≤ 2 ^ 31 ∧
      sumProgram.size ≤ j.settings.maxDepth ∧ es.get? 1 = none ∧
      (j.compile sumProgram es 1).result = .ok entry ∧ (j.compile sumProgram es 1).entries.get? 1 = some entry := by
  have hnew := reachable_new (show Jit.new (.lending 0x10000 0x1000000) .default = .ok (_, _) from rfl)
    (by decide +kernel) sumProgram
  have hw := hnew.request (show _ = some _ from List.getElem?_cons_zero) List.getElem?_cons_zero (.compile 0)
  exact ⟨_, _, ⟨65588⟩, hw, ⟨by decide +kernel, by decide +kernel⟩, by decide +kernel, by decide +kernel,
    by decide +kernel, by decide +kernel, by decide +kernel⟩

/-- Method 1 is accepted, so both methods are well-formed; its code takes 113 bytes. -/
theorem compile_ok_iff_sumProgram :
    ∃ j es entry, Reachable ⟨[j], [(sumProgram, es)]⟩ ∧ j.block.Granted ∧ sumProgram.size < 2 ^ 31 ∧
      j.block.capacity ≤ 2 ^ 31 ∧ sumProgram.size ≤ j.settings.maxDepth ∧
      (j.compile sumProgram es 1).result = .ok entry ∧
      ∑ a ∈ sumProgram.pending 1 es, sumProgram.codeSize a ≤ j.block.remaining ∧
      (∀ a, sumProgram.Reaches 1 a → ∃ method, sumProgram.method? a = some method ∧ method.WellFormed sumProgram) ∧
      ∃ q ∈ (j.compile sumProgram es 1).jit.block.placed, q.entry = entry ∧ q.bytes.length = 113 := by
  obtain ⟨j, es, entry, hw, hgranted, hcap, hdepth, hnone, hok, hentry⟩ := sumProgram_accepted
  have hsize : sumProgram.size < 2 ^ 31 := by decide +kernel
  obtain ⟨hiff, hlength⟩ := hw.compile_ok_iff hgranted List.mem_cons_self hsize hcap hdepth 1
  obtain ⟨_, _, henough, hwell⟩ := hiff.1 ⟨entry, hok⟩
  obtain ⟨q, hmem, hq, hlen⟩ := hlength 1 entry hnone hentry
  exact ⟨j, es, entry, hw, hgranted, hsize, hcap, hdepth, hok, henough, hwell, q, hmem, hq,
    hlen.trans (by decide +kernel)⟩

end Workspace.Reachable

end StackMachine.Native
