import Mathlib
import StackMachine.Native.Compile
import StackMachine.Proofs.CodePlacement
import StackMachine.Proofs.CompiledMethods

/-!
# What compilation keeps

Every step of compilation extends the state, whether it succeeds or not (`Respects`).  In a good state each entry of the
program's table that lies in the block leads to a compiled method, and a step keeps it so.  No chain of calls is longer
than the table: a callee's entry is there before the caller's is installed.

* `State.Develops` is what every step does to a state.
* `fresh_respects`, `compile_respects`, `recompile_respects`: after a step that succeeds, the entry it returns is the
  one in the table.
* `Good.compiled`: what an entry in the table leads to.
-/

namespace StackMachine.Native

open X86 (Assembly)
open Template
open Machine (Placed)

/-! ### Compiled methods stay compiled -/

theorem Listed.ne_nil {p : Program} {method : Method} {target : Nat → CodePtr → Prop}
    {insns : List (Nat × Insn)} {height : Nat} {code : Assembly} (h : Listed p method target insns height code)
    (hl : ∃ pc, (pc, Insn.leave) ∈ insns) : code ≠ [] := by
  induction h with
  | nil => simp at hl
  | @plain pc i rest height e code he _ ih =>
    by_cases hi : i = .leave
    · subst hi
      simp only [emit] at he
      split at he
      · cases he
      cases he
      simp [leave]
    · have := ih (by simpa [Ne.symm hi] using hl)
      simp [this]
  | send _ _ _ ih =>
    have := ih (by simpa using hl)
    simp [this]

/-- The code that is generated for a method: its stream decodes to the end, ends with `leave` and is listed from an
empty operand stack on. -/
structure Generated (p : Program) (method : Method) (target : Nat → CodePtr → Prop) (code : Assembly) : Prop where
  decodes : method.sweep.error = none
  returns : ∃ pc, method.sweep.insns.getLast? = some (pc, .leave)
  listed : Listed p method target method.sweep.insns 0 code

namespace Generated

variable {p : Program} {method : Method} {target : Nat → CodePtr → Prop} {code : Assembly}

theorem leave_mem (h : Generated p method target code) : ∃ pc, (pc, Insn.leave) ∈ method.sweep.insns :=
  h.returns.imp fun _ => List.mem_of_getLast?

theorem ne_nil (h : Generated p method target code) : code ≠ [] := h.listed.ne_nil h.leave_mem

end Generated

namespace Compiled

variable {p : Program} {placed : List Placement} {n id : Nat} {entry : CodePtr}

theorem mono (h : Compiled p placed n id entry) {n' : Nat} (hn : n ≤ n') : Compiled p placed n' id entry := by
  induction h generalizing n' with
  | mk hm hp hl hr hc ih =>
    obtain ⟨k, rfl⟩ : ∃ k, n' = k + 1 := ⟨n' - 1, by omega⟩
    exact .mk hm hp hl hr fun callee entry ht => ih callee entry ht (by omega)

theorem exists_placed (h : Compiled p placed n id entry) : ∃ code older, Placed placed entry.addr code older := by
  obtain ⟨_, hp, _, _, _⟩ := h
  exact ⟨_, _, hp⟩

theorem grows {b b' : CodeBlock} (h : Compiled p b.placed n id entry) (hg : b.Grows b') :
    Compiled p b'.placed n id entry := by
  obtain ⟨hm, hp, hl, hr, hc⟩ := h
  exact .mk hm (hg.placed _ _ _ hp) hl hr hc

end Compiled

/-! ### Tables -/

namespace Entries

/-- The table has each method once, and only methods of the program. -/
structure Valid (p : Program) (es : Entries) : Prop where
  nodup : (es.installed.map Prod.fst).Nodup
  known : ∀ id ∈ es.installed.map Prod.fst, id < p.size

/-- Each entry in the block leads to a compiled method. -/
def Backed (p : Program) (b : CodeBlock) (es : Entries) : Prop :=
  ∀ id entry, es.get? id = some entry → b.Covers entry → Compiled p b.placed es.installed.length id entry

/-- The first entry installed stays. -/
theorem install_cases (es : Entries) (id : Nat) (entry : CodePtr) :
    (∃ first, es.get? id = some first ∧ es.install id entry = (first, es)) ∨
      (es.get? id = none ∧ es.install id entry = (entry, ⟨(id, entry) :: es.installed⟩)) := by
  unfold install
  cases h : es.get? id with
  | none => exact .inr ⟨rfl, rfl⟩
  | some first => exact .inl ⟨first, rfl, rfl⟩

theorem get?_cons (installed : List (Nat × CodePtr)) (id id' : Nat) (entry : CodePtr) :
    get? ⟨(id, entry) :: installed⟩ id' = if id' = id then some entry else get? ⟨installed⟩ id' := by
  rw [get?, List.lookup_cons]
  by_cases h : id' = id
  · simp [h]
  · rw [if_neg h, beq_false_of_ne h]
    rfl

theorem Valid.install {p : Program} {es : Entries} (h : es.Valid p) {id : Nat} (hid : id < p.size)
    (hnone : es.get? id = none) (entry : CodePtr) : Valid p ⟨(id, entry) :: es.installed⟩ := by
  constructor
  · rw [List.map_cons, List.nodup_cons]
    refine ⟨fun hmem => ?_, h.nodup⟩
    obtain ⟨pair, hpair, hfst⟩ := List.mem_map.1 hmem
    have hne := List.lookup_eq_none_iff.1 hnone pair hpair
    simp [hfst] at hne
  · intro id' hid'
    rcases List.mem_cons.1 hid' with rfl | hid'
    · exact hid
    · exact h.known id' hid'

theorem valid_empty (p : Program) : empty.Valid p := ⟨List.nodup_nil, nofun⟩

theorem backed_empty (p : Program) (b : CodeBlock) : empty.Backed p b := nofun

theorem Backed.grows {p : Program} {b b' : CodeBlock} {es : Entries} (h : es.Backed p b) (hg : b.Grows b') :
    es.Backed p b' := fun id entry he hc => (h id entry he (hg.covers.1 hc)).grows hg

/-- There are no more entries than methods. -/
theorem Valid.length_le {p : Program} {es : Entries} (h : es.Valid p) : es.installed.length ≤ p.size := by
  have hsub : es.installed.map Prod.fst ⊆ List.range p.size := fun id hid => List.mem_range.2 (h.known id hid)
  have := (h.nodup.subperm hsub).length_le
  simpa using this

end Entries

namespace Compiler

variable {p : Program} {s s' s'' : State} {id : Nat}

/-- The block and the table are well-formed, each by itself. -/
structure State.Fair (p : Program) (s : State) : Prop where
  sound : s.block.Sound
  valid : s.entries.Valid p

/-- Entries in the block lead to compiled methods. -/
structure State.Good (p : Program) (s : State) : Prop extends State.Fair p s where
  backed : s.entries.Backed p s.block

/-- The entry is in the table and lies in the block. -/
def State.Resolved (s : State) (id : Nat) (entry : CodePtr) : Prop :=
  s.entries.get? id = some entry ∧ s.block.Covers entry

/-- Code and entries are only added, and what is added to the table lies in the block. -/
structure State.Extends (s s' : State) : Prop where
  grows : s.block.Grows s'.block
  kept : ∀ id entry, s.entries.get? id = some entry → s'.entries.get? id = some entry
  added : ∀ id entry, s'.entries.get? id = some entry → s.entries.get? id = some entry ∨ s.block.Covers entry
  length_le : s.entries.installed.length ≤ s'.entries.installed.length

namespace State.Extends

theorem refl (s : State) : Extends s s := ⟨.refl _, fun _ _ h => h, fun _ _ h => .inl h, Nat.le_refl _⟩

theorem trans (h : Extends s s') (h' : Extends s' s'') : Extends s s'' := by
  refine ⟨h.grows.trans h'.grows, fun id entry he => h'.kept id entry (h.kept id entry he), ?_,
    h.length_le.trans h'.length_le⟩
  intro id entry he
  rcases h'.added id entry he with he | hc
  · exact h.added id entry he
  · exact .inr (h.grows.covers.1 hc)

/-- A method without entry had none before. -/
theorem get?_eq_none (h : Extends s s') (hnone : s'.entries.get? id = none) : s.entries.get? id = none := by
  cases hold : s.entries.get? id with
  | none => rfl
  | some entry =>
    rw [h.kept id entry hold] at hnone
    cases hnone

theorem resolved (h : Extends s s') {entry : CodePtr} (hr : s.Resolved id entry) : s'.Resolved id entry :=
  ⟨h.kept id entry hr.1, h.grows.covers.2 hr.2⟩

end State.Extends

/-- A method's entry leads to compiled code, with calls nested no deeper than the program has methods. -/
theorem State.Good.compiled (h : s.Good p) {entry : CodePtr} (hr : s.Resolved id entry) :
    Compiled p s.block.placed p.size id entry := (h.backed id entry hr.1 hr.2).mono h.valid.length_le

/-- What a step does to a state: it adds code and entries and leaves the rest well-formed. -/
structure State.Develops (p : Program) (s s' : State) : Prop where
  fair : s'.Fair p
  extension : s.Extends s'
  backed : s.entries.Backed p s.block → s'.entries.Backed p s'.block
  granted : s.block.Granted → s'.block.Granted

namespace State.Develops

theorem refl (hs : s.Fair p) : Develops p s s := ⟨hs, .refl s, fun h => h, fun h => h⟩

theorem trans (h : Develops p s s') (h' : Develops p s' s'') : Develops p s s'' :=
  ⟨h'.fair, h.extension.trans h'.extension, fun hb => h'.backed (h.backed hb), fun hb => h'.granted (h.granted hb)⟩

theorem good (h : Develops p s s') (hs : s.Good p) : s'.Good p := ⟨h.fair, h.backed hs.backed⟩

end State.Develops

/-- What the step returns satisfies `post`. -/
def Respects {α : Type} (p : Program) (step : Step α) (post : α → State → Prop) : Prop :=
  ∀ s, s.Fair p → s.Develops p (step s).2 ∧ ∀ a, (step s).1 = .ok a → post a (step s).2

/-! ### Generating code -/

section

variable {resolve : Nat → Step CodePtr} {method : Method}

/-- The code of one instruction goes before the code of what follows. -/
private theorem generateInsn_respects (hr : ∀ id, Respects p (resolve id) fun entry s => s.Resolved id entry)
    (pc height : Nat) (i : Insn) :
    Respects p (generateInsn resolve p method pc height i) fun e s =>
      ∀ target, (∀ id entry, s.Resolved id entry → target id entry) → ∀ rest code,
        Listed p method target rest e.height code →
          Listed p method target ((pc, i) :: rest) height (e.code ++ code) := by
  intro s hs
  cases i with
  | send idx =>
    simp only [generateInsn]
    split
    · exact ⟨.refl hs, nofun⟩
    · rename_i call hcall
      obtain ⟨hdev, hpost⟩ := hr call.callee s hs
      split
      · rename_i e s' he
        rw [he] at hdev
        exact ⟨hdev, nofun⟩
      · rename_i entry s' he
        rw [he] at hdev hpost
        refine ⟨hdev, fun e heq target ht rest code hl => ?_⟩
        cases heq
        exact .send hcall (ht _ _ (hpost entry rfl)) hl
  | _ => exact ⟨.refl hs, fun e he _ _ rest code hl => .plain he hl⟩

private theorem generateInsns_respects (hr : ∀ id, Respects p (resolve id) fun entry s => s.Resolved id entry)
    (method : Method) (insns : List (Nat × Insn)) (height : Nat) :
    Respects p (generateInsns resolve p method insns height) fun code s =>
      Listed p method s.Resolved insns height code := by
  induction insns generalizing height with
  | nil =>
    intro s hs
    refine ⟨.refl hs, fun code h => ?_⟩
    cases h
    exact .nil
  | cons head rest ih =>
    obtain ⟨pc, i⟩ := head
    intro s hs
    obtain ⟨hdev₁, hpost₁⟩ := generateInsn_respects hr pc height i s hs
    simp only [generateInsns]
    split
    · rename_i e s₁ he
      rw [he] at hdev₁
      exact ⟨hdev₁, nofun⟩
    · rename_i emitted s₁ he
      rw [he] at hdev₁ hpost₁
      obtain ⟨hdev₂, hpost₂⟩ := ih emitted.height s₁ hdev₁.fair
      split
      · rename_i e s₂ he₂
        rw [he₂] at hdev₂
        exact ⟨hdev₁.trans hdev₂, nofun⟩
      · rename_i more s₂ he₂
        rw [he₂] at hdev₂ hpost₂
        refine ⟨hdev₁.trans hdev₂, fun code h => ?_⟩
        cases h
        exact hpost₁ emitted rfl _ (fun _ _ => hdev₂.extension.resolved) rest more (hpost₂ more rfl)

theorem generate_respects (hr : ∀ id, Respects p (resolve id) fun entry s => s.Resolved id entry) (method : Method) :
    Respects p (generate resolve p method) fun code s => Generated p method s.Resolved code := by
  intro s hs
  obtain ⟨hdev, hpost⟩ := generateInsns_respects hr method method.sweep.insns 0 s hs
  simp only [generate]
  split
  · rename_i e s' he
    rw [he] at hdev
    exact ⟨hdev, nofun⟩
  · rename_i code s' he
    rw [he] at hdev hpost
    split
    · exact ⟨hdev, nofun⟩
    · rename_i hdecodes
      split
      · rename_i pc hlast
        refine ⟨hdev, fun code' h => ?_⟩
        cases h
        exact ⟨hdecodes, ⟨pc, hlast⟩, hpost code rfl⟩
      · exact ⟨hdev, nofun⟩

end

/-! ### Placing code -/

/-- The block may change as long as it grows. -/
private theorem State.Develops.withBlock (hs : s.Fair p) {b : CodeBlock} (hb : b.Sound) (hgrows : s.block.Grows b)
    (hgranted : s.block.Granted → b.Granted) (notices : List Notice) : Develops p s ⟨b, s.entries, notices⟩ :=
  ⟨⟨hb, hs.valid⟩, ⟨hgrows, fun _ _ h => h, fun _ _ h => .inl h, Nat.le_refl _⟩, fun h => h.grows hgrows, hgranted⟩

theorem owned_eq_ok {b : CodeBlock} {method : Method} {entry entry' : CodePtr} (hb : b.Sound)
    (h : owned b method entry = .ok entry') : entry' = entry ∧ b.Covers entry := by
  unfold owned at h
  split at h
  · rename_i hc
    cases h
    exact ⟨rfl, hb.covers_of_contains hc⟩
  · cases h

theorem finish_develops (hm : p.method? id = some method) {code : Assembly} (hs : s.Fair p)
    (hg : Generated p method s.Resolved code) :
    s.Develops p (finish id method code s).2 ∧
      ∀ entry, (finish id method code s).1 = .ok entry → (finish id method code s).2.Resolved id entry := by
  obtain ⟨hsound, hgrows⟩ := CodeBlock.place_sound hs.sound hg.ne_nil
  have hgranted : s.block.Granted → (s.block.place code).2.Granted := fun h => h.place code
  have hok : ∀ q, (s.block.place code).1 = .ok q → s.block.Covers q.entry ∧
      Placed (s.block.place code).2.placed q.entry.addr code s.block.placed := fun q => CodeBlock.place_ok hs.sound
  simp only [finish]
  split
  · rename_i e b he
    rw [he] at hsound hgrows hgranted
    exact ⟨.withBlock hs hsound hgrows hgranted _, nofun⟩
  · rename_i q b hq
    rw [hq] at hsound hgrows hgranted hok
    obtain ⟨hcovers, hplaced⟩ := hok q rfl
    rcases s.entries.install_cases id q.entry with ⟨first, hfirst, hinst⟩ | ⟨hnone, hinst⟩
    · -- the method had an entry, which stays and may lie in another block
      simp only [hinst]
      refine ⟨.withBlock hs hsound hgrows hgranted _, fun entry h => ?_⟩
      obtain ⟨rfl, hc⟩ := owned_eq_ok hsound h
      exact ⟨hfirst, hc⟩
    · simp only [hinst]
      have hid : id < p.size := (Array.getElem?_eq_some_iff.1 hm).1
      refine ⟨⟨⟨hsound, hs.valid.install hid hnone q.entry⟩, ⟨hgrows, ?_, ?_, Nat.le_succ _⟩, ?_, hgranted⟩,
        fun entry h => ?_⟩
      · intro id' entry he
        refine (Entries.get?_cons s.entries.installed id id' q.entry).trans ?_
        rw [if_neg (by rintro rfl; rw [hnone] at he; cases he)]
        exact he
      · intro id' entry he
        replace he := (Entries.get?_cons s.entries.installed id id' q.entry).symm.trans he
        split at he
        · cases he
          exact .inr hcovers
        · exact .inl he
      · intro hbacked id' entry he hc
        replace he := (Entries.get?_cons s.entries.installed id id' q.entry).symm.trans he
        split at he
        · rename_i heq
          cases he
          rw [heq]
          -- its callees were resolved before the code was placed, so they are compiled one entry less deep
          exact .mk hm hplaced hg.listed hg.leave_mem fun callee entry ht => hbacked callee entry ht.1 ht.2
        · exact ((hbacked id' entry he (hgrows.covers.1 hc)).grows hgrows).mono (Nat.le_succ _)
      · obtain ⟨rfl, hc⟩ := owned_eq_ok hsound h
        exact ⟨(Entries.get?_cons s.entries.installed id id q.entry).trans (if_pos rfl), hc⟩

theorem cached_respects {fresh : Nat → Step CodePtr}
    (hf : ∀ id, Respects p (fresh id) fun entry s => s.Resolved id entry) (id : Nat) :
    Respects p (cached fresh p id) fun entry s => s.Resolved id entry := by
  intro s hs
  simp only [cached]
  split
  · refine ⟨.refl hs, fun entry h => ?_⟩
    cases h
  · split
    · rename_i entry hentry
      refine ⟨.refl hs, fun entry' h => ?_⟩
      obtain ⟨rfl, hc⟩ := owned_eq_ok hs.sound h
      exact ⟨hentry, hc⟩
    · exact hf id s hs

/-- Induction on how many methods may still join the chain. -/
theorem fresh_respects (p : Program) (maxDepth left : Nat) (active : List Nat) (id : Nat) :
    Respects p (fresh p maxDepth left active id) fun entry s => s.Resolved id entry := by
  induction left generalizing active id with
  | zero =>
    intro s hs
    unfold fresh
    split
    · exact ⟨.refl hs, nofun⟩
    · split
      · exact ⟨.refl hs, nofun⟩
      · exact ⟨.refl hs, nofun⟩
  | succ left ih =>
    intro s hs
    unfold fresh
    split
    · exact ⟨.refl hs, nofun⟩
    rename_i method hm
    split
    · exact ⟨.refl hs, nofun⟩
    obtain ⟨hdev, hpost⟩ := generate_respects (cached_respects (ih (id :: active))) method s hs
    simp only
    split
    · rename_i e s' he
      rw [he] at hdev
      exact ⟨hdev, nofun⟩
    · rename_i code s' he
      rw [he] at hdev hpost
      obtain ⟨hdev', hpost'⟩ := finish_develops hm hdev.fair (hpost code rfl)
      exact ⟨hdev.trans hdev', hpost'⟩

theorem compile_respects (p : Program) (maxDepth id : Nat) :
    Respects p (compile p maxDepth id) fun entry s => s.Resolved id entry :=
  cached_respects (fresh_respects p maxDepth maxDepth []) id

theorem recompile_respects (p : Program) (maxDepth id : Nat) :
    Respects p (recompile p maxDepth id) fun entry s => s.Resolved id entry :=
  fresh_respects p maxDepth maxDepth [] id

end Compiler

end StackMachine.Native
