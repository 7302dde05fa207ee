import Mathlib
import StackMachine.Proofs.CarriedCode
import StackMachine.Proofs.Histories
import StackMachine.Proofs.Overflows

/-!
# Installed entries

Whatever the compilers of a workspace are asked for, an entry that is installed stays, and the code at it stays what it
is: the code that is generated for the method.

* `Jit.serve_stands`: a request keeps the block tidy, and what it installs stands in the part that it added.
* `Standing`: in every block the methods stand that have their entries there.  Requests keep it, so it holds in every
  workspace that is reached (`Reachable.standing`).
* `Later`: what further steps lead to.  Compilers and tables are counted from the oldest on, so that each keeps its
  number; `Later.keeps` is what they keep beside it.
* `Reachable.entries_installed` puts this together, with what becomes of a request for a method of another compiler.
-/

namespace StackMachine.Native

/-! ### Requests -/

namespace Jit

variable {j : Jit} {p : Program} {es : Entries}

/-- A request that does not ask to compile again only installs methods. -/
theorem serve_installs_only (h : Compiler.State.Regular p ⟨j.block, es, []⟩) {r : Request}
    (hr : ∀ id, r ≠ .recompile id) :
    ∃ ids t, Compiler.Installs p ⟨j.block, es, []⟩ ids t ∧ (j.serve p es r).2 = t.entries ∧
      (j.serve p es r).1.block = t.block := by
  have hcompile : ∀ id, ∃ ids, Compiler.Installs p ⟨j.block, es, []⟩ ids
      (Compiler.compile p j.settings.maxDepth id ⟨j.block, es, []⟩).2 := fun id =>
    (Compiler.compile_settles p j.settings.maxDepth id h).installs.imp fun _ => And.left
  cases r with
  | compile id =>
    obtain ⟨ids, hi⟩ := hcompile id
    exact ⟨ids, _, hi, (j.compile_eq p es id).2.2, (j.compile_eq p es id).2.1⟩
  | recompile id => exact absurd rfl (hr id)
  | execute id self args =>
    simp only [serve]
    rcases j.execute_eq p es id self args with ⟨hj, he⟩ | ⟨hj, he⟩
    · rw [hj, he]
      exact ⟨[], _, .refl, rfl, rfl⟩
    · rw [hj, he]
      obtain ⟨ids, hi⟩ := hcompile id
      exact ⟨ids, _, hi, (j.compile_eq p es id).2.2, (j.compile_eq p es id).2.1⟩

/-- A request installs methods; to compile again is also to place code that is not installed. -/
theorem serve_installs (h : Compiler.State.Regular p ⟨j.block, es, []⟩) (r : Request) :
    ∃ ids t, Compiler.Installs p ⟨j.block, es, []⟩ ids t ∧ (j.serve p es r).2 = t.entries ∧
      ((j.serve p es r).1.block = t.block ∨ ∃ code, (j.serve p es r).1.block = (t.block.place code).2) := by
  by_cases hr : ∃ id, r = .recompile id
  · obtain ⟨id, rfl⟩ := hr
    exact Compiler.recompile_places p j.settings.maxDepth id h
  · obtain ⟨ids, t, hi, hentries, hblock⟩ := serve_installs_only h fun id heq => hr ⟨id, heq⟩
    exact ⟨ids, t, hi, hentries, .inl hblock⟩

/-- A request keeps the block tidy, only adds bytes to it, and what it installs stands in the part that it added. -/
theorem serve_stands (h : Compiler.State.Regular p ⟨j.block, es, []⟩) (r : Request) :
    (j.serve p es r).1.block.Tidy ∧ j.block.Appends (j.serve p es r).1.block ∧
      ∀ id entry, (j.serve p es r).2.get? id = some entry → es.get? id = some entry ∨
        es.get? id = none ∧ j.block.contains entry = false ∧
          ∃ q, q.entry = entry ∧ Stands p (j.serve p es r).1.block (j.serve p es r).2 id q := by
  obtain ⟨ids, t, hi, hentries, hblock⟩ := serve_installs h r
  obtain ⟨hreg, _, happ⟩ := hi.regular h
  have hplaced : (j.serve p es r).1.block.Tidy ∧ t.block.Appends (j.serve p es r).1.block := by
    rcases hblock with hblock | ⟨code, hblock⟩
    · rw [hblock]
      exact ⟨hreg.tidy, .refl _⟩
    · rw [hblock]
      exact hreg.tidy.place code
  refine ⟨hplaced.1, happ.trans hplaced.2, ?_⟩
  intro id entry hget
  rw [hentries] at hget ⊢
  by_cases hid : id ∈ ids
  · obtain ⟨hnone, q, hq, hfree, hst⟩ := hi.stands h hid
    rw [hq] at hget
    cases hget
    exact .inr ⟨hnone, hfree, q, rfl, hst.mono hplaced.2 fun _ _ he => he⟩
  · rw [hi.get?_of_not_mem h hid] at hget
    exact .inl hget

theorem new_tidy {host : Host} {settings : Settings} {notices : List Notice}
    (hj : Jit.new host settings = .ok (j, notices)) (hfits : j.block.base.toNat + j.block.capacity ≤ UInt64.size) :
    j.block.Tidy := by
  obtain ⟨base, capacity, answers, dump, q, hq, _⟩ := new_eq_ok hj
  have hadds := (CodeBlock.place_adds hq).1
  rw [hadds.base_eq, hadds.capacity_eq] at hfits
  have hblank : CodeBlock.Tidy ⟨⟨base, capacity, .readExec, [], answers⟩, 0, [], dump⟩ :=
    ⟨hfits, Nat.zero_le _, Nat.le_refl _, .nil⟩
  exact hblank.adds hadds

end Jit

/-! ### Workspaces -/

namespace Workspace

/-- A program is loaded, a compiler is mapped, or a request is served. -/
inductive Step (w : Workspace) : Workspace → Prop where
  | load (p : Program) : Step w ⟨w.jits, (p, .empty) :: w.tables⟩
  | map {host settings j notices} (hj : Jit.new host settings = .ok (j, notices))
      (hfits : j.block.base.toNat + j.block.capacity ≤ UInt64.size) (hapart : ∀ j' ∈ w.jits, j.block.Apart j'.block) :
      Step w ⟨j :: w.jits, w.tables⟩
  | request {i k j p es} (hj : w.jits[i]? = some j) (ht : w.tables[k]? = some (p, es)) (r : Request) :
      Step w ⟨w.jits.set i (j.serve p es r).1, w.tables.set k (p, (j.serve p es r).2)⟩

abbrev Later : Workspace → Workspace → Prop := Relation.ReflTransGen Step

variable {w w' w'' : Workspace} {i k : Nat} {j : Jit} {p : Program} {es : Entries}

/-- The blocks are tidy, and methods stand in them. -/
structure Standing (w : Workspace) : Prop where
  tidy : ∀ j ∈ w.jits, j.block.Tidy
  stands : ∀ j ∈ w.jits, ∀ t ∈ w.tables, t.2.Standing t.1 j.block

theorem Standing.regular (h : w.Standing) (hs : w.Sound) (hj : j ∈ w.jits) (ht : (p, es) ∈ w.tables) :
    Compiler.State.Regular p ⟨j.block, es, []⟩ := ⟨hs.good hj ht, h.tidy j hj⟩

private theorem Standing.request (h : w.Standing) (hs : w.Sound) (hj : w.jits[i]? = some j)
    (ht : w.tables[k]? = some (p, es)) (r : Request) :
    Standing ⟨w.jits.set i (j.serve p es r).1, w.tables.set k (p, (j.serve p es r).2)⟩ := by
  have hmem := List.mem_of_getElem? hj
  have htmem := List.mem_of_getElem? ht
  have hreg := h.regular hs hmem htmem
  have hdev := Jit.serve_develops hreg.good.toFair r
  have hext := hdev.extension
  obtain ⟨htidy, happ, hnew⟩ := Jit.serve_stands hreg r
  -- what lies in the block afterwards and was installed before was in its used part before
  have hold : ∀ {p' es'}, (p', es') ∈ w.tables → ∀ id entry, es'.get? id = some entry →
      (j.serve p es r).1.block.contains entry = true → j.block.contains entry = true := by
    intro p' es' ht' id entry he hc
    have hcovers := hext.grows.covers.1 (hdev.fair.sound.covers_of_contains hc)
    exact (hs.good hmem ht').contains ⟨he, hcovers⟩
  refine ⟨?_, ?_⟩
  · intro j₁ hj₁
    rcases mem_set_cases hj₁ with rfl | ⟨_, _, hj₁⟩
    · exact htidy
    · exact h.tidy j₁ (List.mem_of_getElem? hj₁)
  · intro j₁ hj₁ t ht₁ id entry he hc
    rcases mem_set_cases hj₁ with rfl | ⟨a, ha, hj₁⟩
    · rcases mem_set_cases ht₁ with rfl | ⟨_, _, ht₁⟩
      · rcases hnew id entry he with he' | ⟨_, _, hst⟩
        · obtain ⟨q, hq, hst⟩ := h.stands j hmem _ htmem id entry he' (hold htmem id entry he' hc)
          exact ⟨q, hq, hst.mono happ hext.kept⟩
        · exact hst
      · have htmem₁ := List.mem_of_getElem? ht₁
        obtain ⟨q, hq, hst⟩ := h.stands j hmem t htmem₁ id entry he (hold htmem₁ id entry he hc)
        exact ⟨q, hq, hst.mono happ fun _ _ he => he⟩
    · have hmem₁ := List.mem_of_getElem? hj₁
      rcases mem_set_cases ht₁ with rfl | ⟨_, _, ht₁⟩
      · -- what this request installed lies in the block of the compiler that served it
        rcases hext.added id entry he with he' | hcovers
        · obtain ⟨q, hq, hst⟩ := h.stands j₁ hmem₁ _ htmem id entry he' hc
          exact ⟨q, hq, hst.mono (.refl _) hext.kept⟩
        · have hc₁ := (h.regular hs hmem₁ htmem).good.sound.covers_of_contains hc
          exact absurd hc₁ ((hs.apart i a j j₁ ha.symm hj hj₁).not_covers hcovers)
      · exact h.stands j₁ hmem₁ t (List.mem_of_getElem? ht₁) id entry he hc

theorem Reachable.standing (h : w.Reachable) : w.Standing := by
  induction h with
  | empty => exact ⟨nofun, nofun⟩
  | load _ p ih =>
    refine ⟨ih.tidy, fun j hj t ht => ?_⟩
    rcases List.mem_cons.1 ht with rfl | ht
    · nofun
    · exact ih.stands j hj t ht
  | @map w host settings j notices hw hj hfits hapart ih =>
    refine ⟨fun j' hj' => ?_, fun j' hj' t ht id entry he hc => ?_⟩
    · rcases List.mem_cons.1 hj' with rfl | hj'
      · exact Jit.new_tidy hj hfits
      · exact ih.tidy j' hj'
    · rcases List.mem_cons.1 hj' with rfl | hj'
      · -- no entry lies in a block that is new
        obtain ⟨j₀, hj₀, hc₀⟩ := hw.sound.owned t ht id entry he
        exact absurd ((Jit.new_sound hj hfits).covers_of_contains hc) ((hapart j₀ hj₀).symm.not_covers hc₀)
      · exact ih.stands j' hj' t ht id entry he hc
  | request hw hj ht r ih => exact ih.request hw.sound hj ht r

/-! ### Later workspaces -/

theorem Reachable.step (h : w.Reachable) (hs : w.Step w') : w'.Reachable := by
  cases hs with
  | load p => exact h.load p
  | map hj hfits hapart => exact h.map hj hfits hapart
  | request hj ht r => exact h.request hj ht r

/-- Compilers and tables keep their numbers, blocks their bytes and tables their entries. -/
structure Keeps (w w' : Workspace) : Prop where
  jits : ∀ {i j}, w.jit? i = some j → ∃ j', w'.jit? i = some j' ∧ j.block.Appends j'.block
  tables : ∀ {k p es}, w.table? k = some (p, es) → ∃ es', w'.table? k = some (p, es') ∧
    ∀ id entry, es.get? id = some entry → es'.get? id = some entry

theorem Keeps.refl (w : Workspace) : Keeps w w := ⟨fun h => ⟨_, h, .refl _⟩, fun h => ⟨_, h, fun _ _ he => he⟩⟩

theorem Keeps.trans (h : Keeps w w') (h' : Keeps w' w'') : Keeps w w'' := by
  refine ⟨fun hj => ?_, fun ht => ?_⟩
  · obtain ⟨j', hj', happ⟩ := h.jits hj
    obtain ⟨j'', hj'', happ'⟩ := h'.jits hj'
    exact ⟨j'', hj'', happ.trans happ'⟩
  · obtain ⟨es', ht', hkept⟩ := h.tables ht
    obtain ⟨es'', ht'', hkept'⟩ := h'.tables ht'
    exact ⟨es'', ht'', fun id entry he => hkept' id entry (hkept id entry he)⟩

/-- A replaced element was the one with its number. -/
private theorem getElem?_reverse_set_cases {α : Type} {l : List α} {n i : Nat} {a b c : α} (hn : l[n]? = some b)
    (h : l.reverse[i]? = some a) : (l.set n c).reverse[i]? = some a ∨ a = b ∧ (l.set n c).reverse[i]? = some c := by
  have hi : i < l.length := by simpa using (List.getElem?_eq_some_iff.1 h).1
  rw [getElem?_reverse_set (List.getElem?_eq_some_iff.1 hn).1]
  by_cases hni : n + i + 1 = l.length
  · rw [List.getElem?_reverse hi, show l.length - 1 - i = n by omega, hn] at h
    rw [if_pos hni]
    exact .inr ⟨(Option.some.inj h).symm, rfl⟩
  · rw [if_neg hni]
    exact .inl h

theorem Step.keeps (h : w.Step w') (hw : w.Reachable) : Keeps w w' := by
  cases h with
  | load p =>
    refine ⟨fun hj => ⟨_, hj, .refl _⟩, fun ht => ⟨_, getElem?_reverse_cons _ ht, fun _ _ he => he⟩⟩
  | map => exact ⟨fun hj => ⟨_, getElem?_reverse_cons _ hj, .refl _⟩, fun ht => ⟨_, ht, fun _ _ he => he⟩⟩
  | @request i k j p es hj ht r =>
    have hreg := hw.standing.regular hw.sound (List.mem_of_getElem? hj) (List.mem_of_getElem? ht)
    obtain ⟨_, happ, _⟩ := Jit.serve_stands hreg r
    have hkept := (Jit.serve_develops hreg.good.toFair r).extension.kept
    refine ⟨fun hj₁ => ?_, fun ht₁ => ?_⟩
    · rcases getElem?_reverse_set_cases (c := (j.serve p es r).1) hj hj₁ with hsame | ⟨rfl, hset⟩
      · exact ⟨_, hsame, .refl _⟩
      · exact ⟨_, hset, happ⟩
    · rcases getElem?_reverse_set_cases (c := (p, (j.serve p es r).2)) ht ht₁ with hsame | ⟨heq, hset⟩
      · exact ⟨_, hsame, fun _ _ he => he⟩
      · cases heq
        exact ⟨_, hset, hkept⟩

theorem Later.keeps (h : w.Later w') (hw : w.Reachable) : w'.Reachable ∧ Keeps w w' := by
  induction h with
  | refl => exact ⟨hw, .refl w⟩
  | tail _ hstep ih => exact ⟨ih.1.step hstep, ih.2.trans (hstep.keeps ih.1)⟩

/-! ### Entries of a workspace -/

/-- No address lies in the blocks of two compilers. -/
theorem Sound.jit?_unique (h : w.Sound) {i' : Nat} {j' : Jit} {entry : CodePtr} (hj : w.jit? i = some j)
    (hj' : w.jit? i' = some j') (hc : j.block.contains entry = true) (hc' : j'.block.contains entry = true) :
    i' = i := by
  have hi : i < w.jits.length := by simpa using (List.getElem?_eq_some_iff.1 hj).1
  have hi' : i' < w.jits.length := by simpa using (List.getElem?_eq_some_iff.1 hj').1
  have hcovers := (h.blocks j (mem_of_jit? hj)).covers_of_contains hc
  have hcovers' := (h.blocks j' (mem_of_jit? hj')).covers_of_contains hc'
  rw [jit?, List.getElem?_reverse hi] at hj
  rw [jit?, List.getElem?_reverse hi'] at hj'
  by_contra hne
  exact (h.apart _ _ j j' (by omega) hj hj').not_covers hcovers hcovers'

/-- Every entry of a table lies in the block of a compiler, and the method stands there. -/
theorem Reachable.exists_stands (hw : w.Reachable) (ht : w.table? k = some (p, es)) {id : Nat} {entry : CodePtr}
    (he : es.get? id = some entry) :
    ∃ i j q, w.jit? i = some j ∧ q.entry = entry ∧ j.block.contains entry = true ∧ Stands p j.block es id q := by
  have htmem := mem_of_table? ht
  obtain ⟨j, hj, hcovers⟩ := hw.sound.owned _ htmem id entry he
  have hc := (hw.sound.good hj htmem).contains ⟨he, hcovers⟩
  obtain ⟨q, hq, hst⟩ := hw.standing.stands j hj _ htmem id entry he hc
  obtain ⟨i, hi⟩ := List.mem_iff_getElem?.1 (List.mem_reverse.2 hj)
  exact ⟨i, j, q, hi, hq, hc, hst⟩

/-- The methods that lie in the block of a compiler after it has served a request stand there. -/
theorem Reachable.serve_standing (hw : w.Reachable) (hj : j ∈ w.jits) (ht : (p, es) ∈ w.tables) (r : Request) :
    (j.serve p es r).2.Standing p (j.serve p es r).1.block := by
  obtain ⟨n, hn⟩ := List.mem_iff_getElem?.1 hj
  obtain ⟨k, hk⟩ := List.mem_iff_getElem?.1 ht
  have hj' : (j.serve p es r).1 ∈ w.jits.set n (j.serve p es r).1 :=
    List.mem_set (List.getElem?_eq_some_iff.1 hn).1 _
  have ht' : (p, (j.serve p es r).2) ∈ w.tables.set k (p, (j.serve p es r).2) :=
    List.mem_set (List.getElem?_eq_some_iff.1 hk).1 _
  exact (hw.request hn hk r).standing.stands _ hj' _ ht'

/-- A method is not compiled if an entry that it needs lies in another block. -/
theorem Reachable.compile_foreign (hw : w.Reachable) (hj : j ∈ w.jits) (ht : (p, es) ∈ w.tables) {id callee : Nat}
    {entry : CodePtr} (hr : p.Reaches id callee) (he : es.get? callee = some entry)
    (hforeign : j.block.contains entry = false) : ∃ e, (j.compile p es id).result = .error e := by
  have hgood := hw.sound.good hj ht
  obtain ⟨hdev, hpost⟩ := Compiler.compile_respects p j.settings.maxDepth id _ hgood.toFair
  have hgood' := hdev.good hgood
  have hext := hdev.extension
  obtain ⟨hresult, hblock, hentries⟩ := j.compile_eq p es id
  cases hres : (j.compile p es id).result with
  | error e => exact ⟨e, rfl⟩
  | ok entry' =>
    exfalso
    -- the method stands in the block now, and so does all that it reaches
    have hresolved := hpost entry' (hresult ▸ hres)
    have hstanding := hw.serve_standing hj ht (.compile id)
    simp only [Jit.serve, hblock, hentries] at hstanding
    obtain ⟨e, he', hc⟩ := hstanding.reaches hresolved.1 (hgood'.contains hresolved) hr
    rw [hext.kept callee entry he] at he'
    cases he'
    have hcovers := hext.grows.covers.1 (hgood'.sound.covers_of_contains hc)
    rw [hgood.contains ⟨he, hcovers⟩] at hforeign
    cases hforeign

end Workspace

/-- Execution starts with compilation and fails with it. -/
theorem Jit.execute_of_compile_error {j : Jit} {p : Program} {es : Entries} {id : Nat} {e : Error}
    (h : (j.compile p es id).result = .error e) (self : Value) (args : List Value) :
    (j.execute p es id self args).result = .error e ∨ ∃ method, p.method? id = some method ∧
      args.length ≠ method.locals ∧
      (j.execute p es id self args).result = .error (.arity method.name method.locals args.length) := by
  cases hm : p.method? id with
  | none =>
    have hunknown : (j.compile p es id).result = .error (.unknownMethod id) := by
      rw [(j.compile_eq p es id).1]
      simp only [Compiler.compile, Compiler.cached, hm]
    rw [h] at hunknown
    cases hunknown
    left
    simp only [execute, hm]
  | some method =>
    by_cases harity : args.length = method.locals
    · left
      simp only [execute, hm, harity, ne_eq, not_true_eq_false, if_false, h]
    · right
      exact ⟨method, rfl, harity, by simp only [execute, hm, harity, ne_eq, not_false_eq_true, if_true]⟩

namespace Workspace

variable {w : Workspace}

/-- An entry that is installed stays for ever, in the block of one compiler; what is found there is the code of the
method, which calls only entries below it, so no method that is installed reaches itself.  Entries are installed by
requests that have placed the code.  A request for a method that needs an entry in another block fails, with an overflow
exactly if the compiler comes to a `send` whose argument count overflows. -/
theorem Reachable.entries_installed (hw : w.Reachable) :
    (∀ {k p es id entry}, w.table? k = some (p, es) → es.get? id = some entry →
      ¬Relation.TransGen p.Calls id id ∧ ∃ i q, q.entry = entry ∧ ∀ w', w.Later w' →
        ∃ j es', w'.jit? i = some j ∧ w'.table? k = some (p, es') ∧ es'.get? id = some entry ∧
          Carries p j.block es' id q ∧
          ∀ i' j', w'.jit? i' = some j' → j'.block.contains entry = true → i' = i) ∧
    ∀ {i k j p es}, w.jit? i = some j → w.table? k = some (p, es) →
      (∀ r id entry, es.get? id = none → (j.serve p es r).2.get? id = some entry →
        j.block.contains entry = false ∧
          ∃ q, q.entry = entry ∧ Carries p (j.serve p es r).1.block (j.serve p es r).2 id q) ∧
      ∀ {i' j' id callee entry}, w.jit? i' = some j' → i' ≠ i → j'.block.contains entry = true →
        es.get? callee = some entry → p.Reaches id callee →
        ∃ e, (j.compile p es id).result = .error e ∧
          ((∃ kind, e = .overflow kind) ↔ ∃ x, j.Meets p es id x ∧ x.Overflows p) ∧ ∀ self args,
            (j.execute p es id self args).result = .error e ∨ ∃ method, p.method? id = some method ∧
              args.length ≠ method.locals ∧
              (j.execute p es id self args).result = .error (.arity method.name method.locals args.length) := by
  refine ⟨?_, ?_⟩
  · intro k p es id entry ht he
    obtain ⟨i, j, q, hj, rfl, hc, hst⟩ := hw.exists_stands ht he
    have hstanding := hw.standing.stands j (mem_of_jit? hj) _ (mem_of_table? ht)
    refine ⟨hstanding.acyclic he hc, i, q, rfl, fun w' hlater => ?_⟩
    obtain ⟨hw', hkeeps⟩ := hlater.keeps hw
    obtain ⟨j', hj', happ⟩ := hkeeps.jits hj
    obtain ⟨es', ht', hkept⟩ := hkeeps.tables ht
    have htidy' := hw'.standing.tidy j' (mem_of_jit? hj')
    have hst' := hst.mono happ hkept
    refine ⟨j', es', hj', ht', hkept id q.entry he, ?_, ?_⟩
    · exact hst'.carries htidy' (hw'.sound.good (mem_of_jit? hj') (mem_of_table? ht'))
    · intro i₂ j₂ hj₂ hc₂
      exact hw'.sound.jit?_unique hj' hj₂ hst'.contains hc₂
  · intro i k j p es hj ht
    have hjmem := mem_of_jit? hj
    have htmem := mem_of_table? ht
    have hreg := hw.standing.regular hw.sound hjmem htmem
    refine ⟨fun r id entry hnone he => ?_, ?_⟩
    · obtain ⟨htidy, _, hnew⟩ := Jit.serve_stands hreg r
      rcases hnew id entry he with hold | ⟨_, hfree, q, hq, hst⟩
      · rw [hnone] at hold
        cases hold
      · exact ⟨hfree, q, hq, hst.carries htidy ((Jit.serve_develops hreg.good.toFair r).good hreg.good)⟩
    · intro i' j' id callee entry hj' hne hc' he hr
      have hforeign : j.block.contains entry = false := by
        by_contra hc
        exact hne (hw.sound.jit?_unique hj hj' (Bool.of_not_eq_false hc) hc')
      obtain ⟨e, herror⟩ := hw.compile_foreign hjmem htmem hr he hforeign
      refine ⟨e, herror, ?_, Jit.execute_of_compile_error herror⟩
      rw [← j.compile_overflows]
      simp only [herror, Except.error.injEq]

/-- Of two compilers that are mapped apart, the older one has served a request. -/
private theorem reachable_pair {host host' : Host} {settings settings' : Settings} {j j' : Jit}
    {notices notices' : List Notice} (hj : Jit.new host settings = .ok (j, notices))
    (hfits : j.block.base.toNat + j.block.capacity ≤ UInt64.size) (hj' : Jit.new host' settings' = .ok (j', notices'))
    (hfits' : j'.block.base.toNat + j'.block.capacity ≤ UInt64.size) (hapart : j'.block.Apart j.block) (p : Program)
    (r : Request) : Reachable ⟨[j', (j.serve p .empty r).1], [(p, (j.serve p .empty r).2)]⟩ := by
  have hboth := (reachable_new hj hfits p).map hj' hfits' (List.forall_mem_singleton.2 hapart)
  exact hboth.request (i := 1) (k := 0) rfl rfl r

/-- The newer of two compilers is asked for a method whose callee lies in the other one's block; the callee has as many
locals as a word can say. -/
theorem Reachable.foreign_callee_overflows :
    ∃ j₀ j₁ es entry, Reachable ⟨[j₁, j₀], [(boundlessArity, es)]⟩ ∧ es.get? 0 = some entry ∧
      j₀.block.contains entry = true ∧ boundlessArity.Reaches 1 0 ∧
      (j₁.compile boundlessArity es 1).result = .error (.overflow .addition) := by
  have hw := reachable_pair (show Jit.new (.lending 0x10000 0x1000000) .default = .ok (_, _) from rfl)
    (by decide +kernel) (show Jit.new (.lending 0x200000 0x1000000) .default = .ok (_, _) from rfl)
    (by decide +kernel) (.inr (by decide +kernel)) boundlessArity (.compile 0)
  have hreaches : boundlessArity.Reaches 1 0 :=
    .single ⟨_, 1, 0, ⟨0, 18446744073709551615⟩, rfl, by decide +kernel, by decide +kernel, rfl⟩
  exact ⟨_, _, _, ⟨65553⟩, hw, by decide +kernel, by decide +kernel, hreaches, by decide +kernel⟩

/-- The older of two compilers has compiled method 0, and could go on with method 1, which calls it. -/
private theorem sumProgram_twoCompilers :
    ∃ j₀ j₁ es, Reachable ⟨[j₁, j₀], [(sumProgram, es)]⟩ ∧ es.get? 0 = some ⟨65553⟩ ∧ es.get? 1 = none ∧
      j₀.block.contains ⟨65553⟩ = true ∧ (j₀.serve sumProgram es (.compile 1)).2.get? 1 = some ⟨65588⟩ := by
  have hw := reachable_pair (show Jit.new (.lending 0x10000 0x1000000) .default = .ok (_, _) from rfl)
    (by decide +kernel) (show Jit.new (.lending 0x200000 0x1000000) .default = .ok (_, _) from rfl)
    (by decide +kernel) (.inr (by decide +kernel)) sumProgram (.compile 0)
  exact ⟨_, _, _, hw, by decide +kernel, by decide +kernel, by decide +kernel, by decide +kernel⟩

/-- Method 0 stays with the older of two compilers, and the other one does not compile method 1. -/
theorem Reachable.entries_installed_twoCompilers :
    ∃ j₀ j₁ es entry entry', Reachable ⟨[j₁, j₀], [(sumProgram, es)]⟩ ∧ es.get? 0 = some entry ∧
      sumProgram.Reaches 1 0 ∧ es.get? 1 = none ∧ (j₀.serve sumProgram es (.compile 1)).2.get? 1 = some entry' ∧
      j₀.block.contains entry' = false ∧
      (∀ w', Later ⟨[j₁, j₀], [(sumProgram, es)]⟩ w' →
        ∃ es', w'.table? 0 = some (sumProgram, es') ∧ es'.get? 0 = some entry) ∧
      ∃ e, (j₁.compile sumProgram es 1).result = .error e := by
  obtain ⟨j₀, j₁, es, hw, hget, hnone, hc, hset⟩ := sumProgram_twoCompilers
  have hreaches : sumProgram.Reaches 1 0 := .single ⟨_, 5, 0, ⟨0, 2⟩, rfl, by decide +kernel, by decide +kernel, rfl⟩
  obtain ⟨hstay, hserve⟩ := hw.entries_installed
  obtain ⟨_, i, q, _, hlater⟩ := @hstay 0 _ _ 0 _ rfl hget
  obtain ⟨hfree, _⟩ := (@hserve 0 0 j₀ _ _ rfl rfl).1 (.compile 1) 1 _ hnone hset
  obtain ⟨e, herror, _⟩ := (@hserve 1 0 j₁ _ _ rfl rfl).2 (show _ = some j₀ from rfl) Nat.zero_ne_one hc hget
    hreaches
  refine ⟨j₀, j₁, es, _, _, hw, hget, hreaches, hnone, hset, hfree, fun w' h => ?_, e, herror⟩
  obtain ⟨_, es', _, ht, he, _⟩ := hlater w' h
  exact ⟨es', ht, he⟩

end Workspace

end StackMachine.Native
