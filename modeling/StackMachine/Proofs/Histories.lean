import Mathlib
import StackMachine.Native.Jit
import StackMachine.Proofs.Compilation

/-!
# Histories of requests

A workspace holds the compilers that are alive and the programs that are loaded, each with its table of entries.  Any
compiler may be asked to compile, recompile or execute any method of any program, in any order; only these requests
change a table.  Mappings that exist at the same time have no address in common.

* `Reachable`: histories in which every compiler stays alive.
* `History`: histories in which compilers are also dropped.  The entries of a compiler that was dropped stay in the
  tables, and a new mapping may lie where its mapping was.  Such entries are stale.
* `History.consistent`: in every workspace that a history leads to, each compiler finds compiled methods at the entries
  that lie in its block, in every table that has no stale entry there.
* `Reachable.sound`: if every compiler stays alive, that is all tables.
-/

namespace StackMachine.Native

open Compiler (State)

inductive Request where
  | compile (id : Nat)
  | recompile (id : Nat)
  | execute (id : Nat) (self : Value) (args : List Value)

/-- The compiler and the table after a request. -/
def Jit.serve (j : Jit) (p : Program) (es : Entries) : Request → Jit × Entries
  | .compile id => ((j.compile p es id).jit, (j.compile p es id).entries)
  | .recompile id => ((j.recompile p es id).jit, (j.recompile p es id).entries)
  | .execute id self args => ((j.execute p es id self args).jit, (j.execute p es id self args).entries)

/-- The two mappings have no address in common. -/
def CodeBlock.Apart (b b' : CodeBlock) : Prop :=
  b.base.toNat + b.capacity ≤ b'.base.toNat ∨ b'.base.toNat + b'.capacity ≤ b.base.toNat

structure Workspace where
  jits : List Jit
  tables : List (Program × Entries)

namespace Workspace

/-- Compilers by number, from the oldest on. -/
def jit? (w : Workspace) (i : Nat) : Option Jit := w.jits.reverse[i]?

/-- Programs by number, from the one loaded first on, each with its table. -/
def table? (w : Workspace) (k : Nat) : Option (Program × Entries) := w.tables.reverse[k]?

/-- Every compiler stays alive. -/
inductive Reachable : Workspace → Prop where
  | empty : Reachable ⟨[], []⟩
  | load {w} (h : Reachable w) (p : Program) : Reachable ⟨w.jits, (p, .empty) :: w.tables⟩
  | map {w host settings j notices} (h : Reachable w) (hj : Jit.new host settings = .ok (j, notices))
      (hfits : j.block.base.toNat + j.block.capacity ≤ UInt64.size) (hapart : ∀ j' ∈ w.jits, j.block.Apart j'.block) :
      Reachable ⟨j :: w.jits, w.tables⟩
  | request {w i k j p es} (h : Reachable w) (hj : w.jits[i]? = some j) (ht : w.tables[k]? = some (p, es))
      (r : Request) : Reachable ⟨w.jits.set i (j.serve p es r).1, w.tables.set k (p, (j.serve p es r).2)⟩

/-- Compilers may be dropped.  `stale k` are the entries that they have left in the table with number `k`. -/
inductive History : Workspace → (Nat → CodePtr → Prop) → Prop where
  | empty : History ⟨[], []⟩ fun _ _ => False
  | load {w stale} (h : History w stale) (p : Program) : History ⟨w.jits, (p, .empty) :: w.tables⟩ stale
  | map {w stale host settings j notices} (h : History w stale) (hj : Jit.new host settings = .ok (j, notices))
      (hfits : j.block.base.toNat + j.block.capacity ≤ UInt64.size) (hapart : ∀ j' ∈ w.jits, j.block.Apart j'.block) :
      History ⟨j :: w.jits, w.tables⟩ stale
  | request {w stale i k j p es} (h : History w stale) (hj : w.jits[i]? = some j) (ht : w.tables[k]? = some (p, es))
      (r : Request) : History ⟨w.jits.set i (j.serve p es r).1, w.tables.set k (p, (j.serve p es r).2)⟩ stale
  | drop {w stale i j} (h : History w stale) (hj : w.jits[i]? = some j) :
      History ⟨w.jits.eraseIdx i, w.tables⟩ fun k entry =>
        stale k entry ∨ j.block.Covers entry ∧ ∃ p es id, w.table? k = some (p, es) ∧ es.get? id = some entry

theorem Reachable.history {w : Workspace} (h : w.Reachable) : w.History fun _ _ => False := by
  induction h with
  | empty => exact .empty
  | load _ p ih => exact ih.load p
  | map _ hj hfits hapart ih => exact ih.map hj hfits hapart
  | request _ hj ht r ih => exact ih.request hj ht r

end Workspace

/-! ### Requests -/

namespace Jit

variable {j : Jit} {p : Program} {es : Entries}

theorem compile_eq (j : Jit) (p : Program) (es : Entries) (id : Nat) :
    (j.compile p es id).result = (Compiler.compile p j.settings.maxDepth id ⟨j.block, es, []⟩).1 ∧
      (j.compile p es id).jit.block = (Compiler.compile p j.settings.maxDepth id ⟨j.block, es, []⟩).2.block ∧
      (j.compile p es id).entries = (Compiler.compile p j.settings.maxDepth id ⟨j.block, es, []⟩).2.entries := by
  unfold compile
  simp only
  split
  · rename_i entry he
    split
    · exact ⟨rfl, rfl, rfl⟩
    · exact ⟨rfl, rfl, rfl⟩
  · exact ⟨rfl, rfl, rfl⟩

theorem execute_eq (j : Jit) (p : Program) (es : Entries) (id : Nat) (self : Value) (args : List Value) :
    ((j.execute p es id self args).jit = j ∧ (j.execute p es id self args).entries = es) ∨
      ((j.execute p es id self args).jit = (j.compile p es id).jit ∧
        (j.execute p es id self args).entries = (j.compile p es id).entries) := by
  unfold execute
  split
  · exact .inl ⟨rfl, rfl⟩
  split
  · exact .inl ⟨rfl, rfl⟩
  simp only
  split
  · exact .inr ⟨rfl, rfl⟩
  split
  · exact .inr ⟨rfl, rfl⟩
  · exact .inr ⟨rfl, rfl⟩

/-- What a step does to a state does not depend on the notices. -/
private theorem develops_of_step {step : Compiler.Step CodePtr} {post : CodePtr → State → Prop}
    (hs : Compiler.Respects p step post) (h : State.Fair p ⟨j.block, es, []⟩) {b : CodeBlock} {es' : Entries}
    (hb : b = (step ⟨j.block, es, []⟩).2.block) (he : es' = (step ⟨j.block, es, []⟩).2.entries) :
    State.Develops p ⟨j.block, es, []⟩ ⟨b, es', []⟩ := by
  obtain ⟨⟨hfair, hext, hbacked, hgranted⟩, _⟩ := hs _ h
  subst hb he
  exact ⟨⟨hfair.sound, hfair.valid⟩, ⟨hext.grows, hext.kept, hext.added, hext.length_le⟩, hbacked, hgranted⟩

/-- A request is a step of the compiler or none. -/
theorem serve_develops (h : State.Fair p ⟨j.block, es, []⟩) (r : Request) :
    State.Develops p ⟨j.block, es, []⟩ ⟨(j.serve p es r).1.block, (j.serve p es r).2, []⟩ := by
  have hcompile := fun id => develops_of_step (Compiler.compile_respects p j.settings.maxDepth id) h
    (j.compile_eq p es id).2.1 (j.compile_eq p es id).2.2
  cases r with
  | compile id => exact hcompile id
  | recompile id => exact develops_of_step (Compiler.recompile_respects p j.settings.maxDepth id) h rfl rfl
  | execute id self args =>
    simp only [serve]
    rcases j.execute_eq p es id self args with ⟨hj, he⟩ | ⟨hj, he⟩
    · rw [hj, he]
      exact .refl h
    · rw [hj, he]
      exact hcompile id

/-- A new compiler has placed the trampoline in a blank block. -/
theorem new_eq_ok {host : Host} {settings : Settings} {notices : List Notice}
    (hj : Jit.new host settings = .ok (j, notices)) :
    ∃ base capacity answers dump q,
      CodeBlock.place ⟨⟨base, capacity, .readExec, [], answers⟩, 0, [], dump⟩ trampolineCode = (.ok q, j.block) ∧
      (host.answers = [] → answers = []) := by
  unfold Jit.new at hj
  split at hj
  · cases hj
  rename_i block hblock
  obtain ⟨base, capacity, answers, rfl, hanswers⟩ := CodeBlock.new_eq_ok hblock
  simp only at hj
  split at hj
  · cases hj
  rename_i q b hq
  cases hj
  exact ⟨base, capacity, answers, _, q, hq, hanswers⟩

theorem new_sound {host : Host} {settings : Settings} {notices : List Notice}
    (hj : Jit.new host settings = .ok (j, notices)) (hfits : j.block.base.toNat + j.block.capacity ≤ UInt64.size) :
    j.block.Sound := by
  obtain ⟨base, capacity, answers, dump, q, hq, _⟩ := new_eq_ok hj
  have hadds := (CodeBlock.place_adds hq).1
  rw [hadds.base_eq, hadds.capacity_eq] at hfits
  have hsound : CodeBlock.Sound ⟨⟨base, capacity, .readExec, [], answers⟩, 0, [], dump⟩ :=
    ⟨hfits, Nat.zero_le _, nofun⟩
  have := (CodeBlock.place_sound hsound (show trampolineCode ≠ [] by simp [trampolineCode])).1
  rw [hq] at this
  exact this

theorem new_granted {host : Host} {settings : Settings} {notices : List Notice}
    (hj : Jit.new host settings = .ok (j, notices)) (hhost : host.answers = []) : j.block.Granted := by
  obtain ⟨base, capacity, answers, dump, q, hq, hanswers⟩ := new_eq_ok hj
  have hgranted : CodeBlock.Granted ⟨⟨base, capacity, .readExec, [], answers⟩, 0, [], dump⟩ := ⟨rfl, hanswers hhost⟩
  have := hgranted.place trampolineCode
  rw [hq] at this
  exact this

end Jit

/-! ### Workspaces -/

namespace CodeBlock

theorem Apart.symm {b b' : CodeBlock} (h : b.Apart b') : b'.Apart b := Or.symm h

theorem Apart.not_covers {b b' : CodeBlock} (h : b.Apart b') {entry : CodePtr} (hc : b.Covers entry) :
    ¬b'.Covers entry := by
  rintro ⟨h1, h2⟩
  obtain ⟨h3, h4⟩ := hc
  rcases h with h | h
  · omega
  · omega

theorem Apart.grows {b b' c : CodeBlock} (h : b.Apart c) (hg : b.Grows b') : b'.Apart c := by
  simpa only [Apart, hg.base_eq, hg.capacity_eq] using h

end CodeBlock

namespace Workspace

variable {w : Workspace} {stale : Nat → CodePtr → Prop} {i k n : Nat} {j : Jit} {p : Program} {es : Entries}

theorem mem_of_jit? (h : w.jit? i = some j) : j ∈ w.jits := List.mem_reverse.1 (List.mem_of_getElem? h)

theorem mem_of_table? (h : w.table? k = some (p, es)) : (p, es) ∈ w.tables :=
  List.mem_reverse.1 (List.mem_of_getElem? h)

theorem exists_table? (h : (p, es) ∈ w.tables) : ∃ k, w.table? k = some (p, es) :=
  List.mem_iff_getElem?.1 (List.mem_reverse.2 h)

theorem getElem?_reverse_cons {α : Type} {l : List α} {i : Nat} {a : α} (b : α) (h : l.reverse[i]? = some a) :
    (b :: l).reverse[i]? = some a := by
  rw [List.reverse_cons, List.getElem?_append_left (List.getElem?_eq_some_iff.1 h).1]
  exact h

/-- An element that is replaced keeps its number from the end, as do the others. -/
theorem getElem?_reverse_set {α : Type} {l : List α} {n : Nat} (hn : n < l.length) (c : α) (i : Nat) :
    (l.set n c).reverse[i]? = if n + i + 1 = l.length then some c else l.reverse[i]? := by
  by_cases hi : i < l.length
  · rw [List.getElem?_reverse (by simpa using hi), List.getElem?_reverse hi, List.length_set, List.getElem?_set]
    by_cases hni : n + i + 1 = l.length
    · rw [if_pos hni, if_pos (by omega), if_pos (by omega)]
    · rw [if_neg hni, if_neg (by omega)]
  · rw [if_neg (by omega), List.getElem?_eq_none (by simpa using hi), List.getElem?_eq_none (by simpa using hi)]

private theorem getElem?_set_cases {α : Type} {l : List α} {i k : Nat} {a b : α} (h : (l.set i a)[k]? = some b) :
    (k = i ∧ b = a) ∨ (k ≠ i ∧ l[k]? = some b) := by
  rw [List.getElem?_set] at h
  split at h
  · split at h
    · cases h
      exact .inl ⟨by omega, rfl⟩
    · cases h
  · exact .inr ⟨by omega, h⟩

theorem mem_set_cases {α : Type} {l : List α} {i : Nat} {a b : α} (h : b ∈ l.set i a) :
    b = a ∨ ∃ k, k ≠ i ∧ l[k]? = some b := by
  obtain ⟨k, hk⟩ := List.mem_iff_getElem?.1 h
  rcases getElem?_set_cases hk with ⟨_, rfl⟩ | ⟨hne, hk⟩
  · exact .inl rfl
  · exact .inr ⟨k, hne, hk⟩

/-- A table after one of them was replaced is the new one, in the place of the old, or as it was. -/
private theorem table?_set_cases {t t' u : Program × Entries} (ht : w.tables[k]? = some t)
    (h : table? ⟨w.jits, w.tables.set k t'⟩ n = some u) : (u = t' ∧ w.table? n = some t) ∨ w.table? n = some u := by
  have hk := (List.getElem?_eq_some_iff.1 ht).1
  rw [table?, getElem?_reverse_set hk] at h
  split at h
  · rename_i hn
    refine .inl ⟨(Option.some.inj h).symm, ?_⟩
    rw [table?, List.getElem?_reverse (by omega), ← ht]
    congr 1
    omega
  · exact .inr h

/-- The last table is the one loaded last. -/
private theorem table?_load_cases {t : Program × Entries} (h : table? ⟨w.jits, (p, .empty) :: w.tables⟩ n = some t) :
    t = (p, .empty) ∨ w.table? n = some t := by
  rw [table?, List.reverse_cons, List.getElem?_append] at h
  split at h
  · exact .inr h
  · obtain ⟨_, hlast⟩ := List.getElem?_eq_some_iff.1 h
    simp only [List.getElem_singleton] at hlast
    exact .inl hlast.symm

/-- Every compiler finds compiled methods at the entries in its block, where no stale entry lies. -/
structure Consistent (w : Workspace) (stale : Nat → CodePtr → Prop) : Prop where
  blocks : ∀ j ∈ w.jits, j.block.Sound
  apart : ∀ (i k : Nat) (j j' : Jit), i ≠ k → w.jits[i]? = some j → w.jits[k]? = some j' → j.block.Apart j'.block
  valid : ∀ t ∈ w.tables, t.2.Valid t.1
  backed : ∀ j ∈ w.jits, ∀ k p es, w.table? k = some (p, es) → (∀ entry, stale k entry → ¬j.block.Covers entry) →
    es.Backed p j.block
  owned : ∀ k p es id entry, w.table? k = some (p, es) → es.get? id = some entry →
    stale k entry ∨ ∃ j ∈ w.jits, j.block.Covers entry

namespace Consistent

theorem fair (h : w.Consistent stale) (hj : j ∈ w.jits) (ht : (p, es) ∈ w.tables) : State.Fair p ⟨j.block, es, []⟩ :=
  ⟨h.blocks j hj, h.valid _ ht⟩

theorem good (h : w.Consistent stale) (hj : j ∈ w.jits) (ht : w.table? k = some (p, es))
    (hclear : ∀ entry, stale k entry → ¬j.block.Covers entry) : State.Good p ⟨j.block, es, []⟩ :=
  ⟨h.fair hj (mem_of_table? ht), h.backed j hj k p es ht hclear⟩

private theorem load (h : w.Consistent stale) (p : Program) :
    Consistent ⟨w.jits, (p, .empty) :: w.tables⟩ stale := by
  refine ⟨h.blocks, h.apart, List.forall_mem_cons.2 ⟨Entries.valid_empty p, h.valid⟩, ?_, ?_⟩
  · intro j hj k p' es ht hclear
    rcases table?_load_cases ht with heq | ht
    · cases heq
      exact Entries.backed_empty p j.block
    · exact h.backed j hj k p' es ht hclear
  · intro k p' es id entry ht he
    rcases table?_load_cases ht with heq | ht
    · cases heq
      cases he
    · exact h.owned k p' es id entry ht he

private theorem map (h : w.Consistent stale) (hs : j.block.Sound) (ha : ∀ j' ∈ w.jits, j.block.Apart j'.block) :
    Consistent ⟨j :: w.jits, w.tables⟩ stale := by
  refine ⟨List.forall_mem_cons.2 ⟨hs, h.blocks⟩, ?_, h.valid, ?_, ?_⟩
  · intro i k j₁ j₂ hne h₁ h₂
    cases i with
    | zero =>
      cases k with
      | zero => exact absurd rfl hne
      | succ k =>
        cases h₁
        exact ha j₂ (List.mem_of_getElem? h₂)
    | succ i =>
      cases k with
      | zero =>
        cases h₂
        exact (ha j₁ (List.mem_of_getElem? h₁)).symm
      | succ k => exact h.apart i k j₁ j₂ (by omega) h₁ h₂
  · intro j' hj' k p es ht hclear id entry he hc
    rcases List.mem_cons.1 hj' with rfl | hj'
    · -- an entry in a block that is new would be stale
      rcases h.owned k p es id entry ht he with hold | ⟨j₀, hj₀, hc₀⟩
      · exact absurd hc (hclear entry hold)
      · exact absurd hc₀ ((ha j₀ hj₀).not_covers hc)
    · exact h.backed j' hj' k p es ht hclear id entry he hc
  · intro k p es id entry ht he
    exact (h.owned k p es id entry ht he).imp_right fun ⟨j₀, hj₀, hc₀⟩ => ⟨j₀, List.mem_cons_of_mem _ hj₀, hc₀⟩

private theorem drop (h : w.Consistent stale) (hj : w.jits[i]? = some j) :
    Consistent ⟨w.jits.eraseIdx i, w.tables⟩ fun k entry =>
      stale k entry ∨ j.block.Covers entry ∧ ∃ p es id, w.table? k = some (p, es) ∧ es.get? id = some entry := by
  have hsub := w.jits.eraseIdx_sublist i
  refine ⟨fun j' hj' => h.blocks j' (hsub.subset hj'), ?_, h.valid, ?_, ?_⟩
  · intro a b j₁ j₂ hne h₁ h₂
    rw [List.getElem?_eraseIdx] at h₁ h₂
    split at h₁
    · split at h₂
      · exact h.apart a b j₁ j₂ hne h₁ h₂
      · exact h.apart a (b + 1) j₁ j₂ (by omega) h₁ h₂
    · split at h₂
      · exact h.apart (a + 1) b j₁ j₂ (by omega) h₁ h₂
      · exact h.apart (a + 1) (b + 1) j₁ j₂ (by omega) h₁ h₂
  · intro j' hj' k p es ht hclear
    exact h.backed j' (hsub.subset hj') k p es ht fun entry hold => hclear entry (.inl hold)
  · intro k p es id entry ht he
    rcases h.owned k p es id entry ht he with hold | ⟨j₀, hj₀, hc₀⟩
    · exact .inl (.inl hold)
    · obtain ⟨a, ha⟩ := List.mem_iff_getElem?.1 hj₀
      by_cases hai : a = i
      · -- the compiler that covered it is the one that is dropped
        rw [hai, hj] at ha
        cases ha
        exact .inl (.inr ⟨hc₀, p, es, id, ht, he⟩)
      · exact .inr ⟨j₀, List.mem_eraseIdx_iff_getElem?.2 ⟨a, hai, ha⟩, hc₀⟩

private theorem request (h : w.Consistent stale) (hj : w.jits[i]? = some j) (ht : w.tables[k]? = some (p, es))
    {j' : Jit} {es' : Entries} (hdev : State.Develops p ⟨j.block, es, []⟩ ⟨j'.block, es', []⟩) :
    Consistent ⟨w.jits.set i j', w.tables.set k (p, es')⟩ stale := by
  have hmem := List.mem_of_getElem? hj
  have hext := hdev.extension
  have hj' : (w.jits.set i j')[i]? = some j' :=
    List.getElem?_set_self (List.getElem?_eq_some_iff.1 hj).1
  refine ⟨?_, ?_, ?_, ?_, ?_⟩
  · intro j₁ hj₁
    rcases mem_set_cases hj₁ with rfl | ⟨_, _, hj₁⟩
    · exact hdev.fair.sound
    · exact h.blocks j₁ (List.mem_of_getElem? hj₁)
  · intro a b j₁ j₂ hne h₁ h₂
    rcases getElem?_set_cases h₁ with ⟨rfl, rfl⟩ | ⟨_, hold₁⟩
    · rcases getElem?_set_cases h₂ with ⟨rfl, _⟩ | ⟨_, hold₂⟩
      · exact absurd rfl hne
      · exact (h.apart a b j j₂ hne hj hold₂).grows hext.grows
    · rcases getElem?_set_cases h₂ with ⟨rfl, rfl⟩ | ⟨_, hold₂⟩
      · exact ((h.apart b a j j₁ hne.symm hj hold₁).grows hext.grows).symm
      · exact h.apart a b j₁ j₂ hne hold₁ hold₂
  · intro t ht₁
    rcases mem_set_cases ht₁ with rfl | ⟨_, _, ht₁⟩
    · exact hdev.fair.valid
    · exact h.valid t (List.mem_of_getElem? ht₁)
  · intro j₁ hj₁ n p₁ es₁ ht₁ hclear
    rcases mem_set_cases hj₁ with rfl | ⟨a, ha, hj₁⟩
    · have hclear' : ∀ entry, stale n entry → ¬j.block.Covers entry :=
        fun entry hold hc => hclear entry hold (hext.grows.covers.2 hc)
      rcases table?_set_cases ht ht₁ with ⟨heq, hn⟩ | hn
      · cases heq
        exact hdev.backed (h.backed j hmem n p es hn hclear')
      · exact (h.backed j hmem n p₁ es₁ hn hclear').grows hext.grows
    · have hmem₁ := List.mem_of_getElem? hj₁
      rcases table?_set_cases ht ht₁ with ⟨heq, hn⟩ | hn
      · -- what another compiler finds in its block was there before, since blocks lie apart
        cases heq
        intro id entry he hc
        rcases hext.added id entry he with hold | hnew
        · exact (h.backed j₁ hmem₁ n p es hn hclear id entry hold hc).mono hext.length_le
        · exact absurd hc ((h.apart i a j j₁ ha.symm hj hj₁).not_covers hnew)
      · exact h.backed j₁ hmem₁ n p₁ es₁ hn hclear
  · -- the compiler that served the request covers what it covered before
    have hkeep : ∀ entry, (∃ j₀ ∈ w.jits, j₀.block.Covers entry) → ∃ j₁ ∈ w.jits.set i j', j₁.block.Covers entry := by
      rintro entry ⟨j₀, hj₀, hc⟩
      obtain ⟨a, ha⟩ := List.mem_iff_getElem?.1 hj₀
      by_cases hai : a = i
      · rw [hai, hj] at ha
        cases ha
        exact ⟨j', List.mem_of_getElem? hj', hext.grows.covers.2 hc⟩
      · refine ⟨j₀, List.mem_of_getElem? (i := a) ?_, hc⟩
        rw [List.getElem?_set_ne (by omega), ha]
    intro n p₁ es₁ id entry ht₁ he
    rcases table?_set_cases ht ht₁ with ⟨heq, hn⟩ | hn
    · cases heq
      rcases hext.added id entry he with hold | hnew
      · exact (h.owned n p es id entry hn hold).imp_right (hkeep entry)
      · exact .inr ⟨j', List.mem_of_getElem? hj', hext.grows.covers.2 hnew⟩
    · exact (h.owned n p₁ es₁ id entry hn he).imp_right (hkeep entry)

end Consistent

theorem History.consistent (h : w.History stale) : w.Consistent stale := by
  induction h with
  | empty =>
    exact ⟨nofun, fun i k j j' _ h => by simp at h, nofun, nofun, fun k p es id entry h => by simp [table?] at h⟩
  | load _ p ih => exact ih.load p
  | map _ hj hfits hapart ih => exact ih.map (Jit.new_sound hj hfits) hapart
  | request _ hj ht r ih =>
    exact ih.request hj ht (Jit.serve_develops (ih.fair (List.mem_of_getElem? hj) (List.mem_of_getElem? ht)) r)
  | drop _ hj ih => exact ih.drop hj

/-- Every compiler finds compiled methods at the entries in its block. -/
structure Sound (w : Workspace) : Prop where
  blocks : ∀ j ∈ w.jits, j.block.Sound
  apart : ∀ (i k : Nat) (j j' : Jit), i ≠ k → w.jits[i]? = some j → w.jits[k]? = some j' → j.block.Apart j'.block
  good : ∀ {j p es}, j ∈ w.jits → (p, es) ∈ w.tables → State.Good p ⟨j.block, es, []⟩
  owned : ∀ t ∈ w.tables, ∀ id entry, t.2.get? id = some entry → ∃ j ∈ w.jits, j.block.Covers entry

/-- While every compiler stays alive, no entry is stale. -/
theorem Reachable.sound (h : w.Reachable) : w.Sound := by
  have hc := h.history.consistent
  refine ⟨hc.blocks, hc.apart, fun hj ht => ?_, fun t ht id entry he => ?_⟩
  · obtain ⟨k, hk⟩ := exists_table? ht
    exact hc.good hj hk fun _ hfalse => hfalse.elim
  · obtain ⟨k, hk⟩ := exists_table? ht
    exact (hc.owned k _ _ id entry hk he).resolve_left not_false

/-- One compiler and one program. -/
theorem reachable_new {host : Host} {settings : Settings} {j : Jit} {notices : List Notice}
    (hj : Jit.new host settings = .ok (j, notices)) (hfits : j.block.base.toNat + j.block.capacity ≤ UInt64.size)
    (p : Program) : Reachable ⟨[j], [(p, .empty)]⟩ :=
  .map (.load .empty p) hj hfits (List.forall_mem_nil _)

end Workspace

/-! ### A history -/

/-- Method 1 calls method 0, which adds, with its own argument and 41. -/
def sumProgram : Program :=
  ⟨#[((((Draft.empty.insn (.getLocal 2)).insn (.getLocal 1)).insn .plus).insn .leave).method "sum" 2,
    (((((Draft.empty.insn .putSelf).insn (.getLocal 1)).insn (.putObject (.ofInt 41))).send ⟨0, 2⟩).insn
      .leave).method "main" 1]⟩

/-- A compiler that has placed method 0 twice compiles method 1. -/
theorem sumProgram_history :
    ∃ j es entry, Workspace.Reachable ⟨[j], [(sumProgram, es)]⟩ ∧ j.block.Granted ∧
      (j.compile sumProgram es 1).result = .ok entry := by
  have hnew := Workspace.reachable_new (show Jit.new (.lending 0x10000 0x1000000) .default = .ok (_, _) from rfl)
    (by decide +kernel) sumProgram
  have hfirst := hnew.request (show _ = some _ from List.getElem?_cons_zero) List.getElem?_cons_zero (.compile 0)
  have hsecond := hfirst.request (show _ = some _ from List.getElem?_cons_zero) List.getElem?_cons_zero (.recompile 0)
  exact ⟨_, _, ⟨65623⟩, hsecond, ⟨by decide +kernel, by decide +kernel⟩, by decide +kernel⟩

end StackMachine.Native
