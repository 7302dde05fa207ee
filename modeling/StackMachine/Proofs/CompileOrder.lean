import Mathlib
import StackMachine.Proofs.Acceptance
import StackMachine.Proofs.Repetition

/-!
# The order of requests

A method that a new compiler compiles can also be compiled later: what is already installed can only shorten the chains
of methods that wait for their callees.  The one thing that may be missing then is space.

The two requests are compared step by step.  The later one finds all that the first one has installed so far, and what
was there before it, which is closed under calls; so where it has to compile a callee, the first one does so too, for
the same chain, and where it finds one, it skips a part of the first one's way.

* `Insn.Retargeted`: the code of the two differs in the targets of calls only, so both can be encoded.
* `Ahead`: what is installed in the one state and in the other.
* `Follows`: the later step succeeds if the first one does, unless the block is full.  `fresh_follows` says so of
  methods that have no entry, by induction on how many may still join the chain.
-/

namespace StackMachine

/-! ### Other targets -/

namespace X86

/-- The same instruction, but for the target of a call. -/
inductive Insn.Retargeted : Insn → Insn → Prop where
  | refl (i : Insn) : Retargeted i i
  | call (addr addr' : Int64) : Retargeted (.call (.imm addr)) (.call (.imm addr'))

namespace Insn.Retargeted

variable {i i' : Insn}

theorem isCompare_eq (h : i.Retargeted i') : i'.isCompare = i.isCompare := by
  cases h <;> rfl

theorem isCMov_eq (h : i.Retargeted i') : i'.isCMov = i.isCMov := by
  cases h <;> rfl

/-- Whether an instruction can be encoded depends on neither its address nor the target of a call. -/
theorem encode_ok (h : i.Retargeted i') {here : UInt64} {code : List UInt8} (henc : i.encode here = .ok code)
    (here' : UInt64) : ∃ code', i'.encode here' = .ok code' := by
  cases h with
  | call addr addr' => exact ⟨_, rfl⟩
  | refl =>
    cases i with
    | call target => exact ⟨_, rfl⟩
    | _ => exact ⟨code, henc⟩

end Insn.Retargeted

namespace Assembly

variable {asm asm' : Assembly}

theorem retargeted_refl (asm : Assembly) : List.Forall₂ Insn.Retargeted asm asm :=
  List.forall₂_same.2 fun i _ => .refl i

theorem consumesCompare_retargeted (h : List.Forall₂ Insn.Retargeted asm asm') :
    consumesCompare asm' = consumesCompare asm := by
  cases h with
  | nil => rfl
  | cons hi _ => exact hi.isCMov_eq

theorem encodeFrom_retargeted (h : List.Forall₂ Insn.Retargeted asm asm') {index : Nat} {here : UInt64}
    {code : List UInt8} (henc : encodeFrom index here asm = .ok code) (here' : UInt64) :
    ∃ code', encodeFrom index here' asm' = .ok code' := by
  induction h generalizing index here code here' with
  | nil => exact ⟨[], rfl⟩
  | @cons i i' rest rest' hi hrest ih =>
    rw [encodeFrom] at henc ⊢
    rw [hi.isCompare_eq, consumesCompare_retargeted hrest]
    split at henc
    · cases henc
    rename_i hcompare
    rw [if_neg hcompare]
    split at henc
    · cases henc
    rename_i front hfront
    split at henc
    · cases henc
    rename_i more hmore
    obtain ⟨front', hfront'⟩ := hi.encode_ok hfront here'
    obtain ⟨more', hmore'⟩ := ih hmore (here' + UInt64.ofNat front'.length)
    simp only [hfront', hmore']
    exact ⟨_, rfl⟩

end Assembly

end X86

namespace Native

open X86 (Assembly)
open X86.Assembly (retargeted_refl)
open X86.Insn (Retargeted)

/-- Calls of the same callee at two entries. -/
theorem Template.Call.retargeted_code (c : Template.Call) (entry entry' : CodePtr) :
    List.Forall₂ Retargeted (c.code entry) (c.code entry') := by
  have htarget : List.Forall₂ Retargeted [.call (.imm entry.addr.toInt64)] [.call (.imm entry'.addr.toInt64)] :=
    .cons (.call _ _) .nil
  unfold code
  exact List.rel_append (List.rel_append (List.rel_append (retargeted_refl _) htarget) (retargeted_refl _))
    (retargeted_refl _)

/-! ### Two requests -/

namespace Compiler

/-- The second state has the methods that the first one has and those of `S`, all in its own block.  Its host refuses no
change of protection. -/
structure Ahead (p : Program) (S : Nat → Prop) (s t : State) : Prop where
  regular : s.Regular p
  regular' : t.Regular p
  granted : t.block.Granted
  covers : ∀ a entry, t.entries.get? a = some entry → t.block.Covers entry
  installed : ∀ a, t.entries.get? a ≠ none ↔ s.entries.get? a ≠ none ∨ S a

/-- If the first step succeeds, so does the second, unless the block is full, and the second state stays ahead. -/
def Follows {α β : Type} (p : Program) (S : Nat → Prop) (R : α → β → Prop) (x : Step α) (y : Step β) (s t : State) :
    Prop :=
  ∀ a, (x s).1 = .ok a → (∃ needed available, (y t).1 = .error (.bufferFull needed available)) ∨
    ∃ b, (y t).1 = .ok b ∧ R a b ∧ Ahead p S (x s).2 (y t).2

section

variable {α β γ δ : Type} {p : Program} {S : Nat → Prop} {s t : State} {id : Nat} {method : Method}

/-- The first request may install methods that the second one has found. -/
theorem Ahead.installs {ids : List Nat} {s' : State} (h : Ahead p S s t) (hi : Installs p s ids s')
    (hin : ∀ a ∈ ids, S a) : Ahead p S s' t := by
  refine ⟨(hi.regular h.regular).1, h.regular', h.granted, h.covers, fun a => ?_⟩
  rw [h.installed]
  by_cases ha : a ∈ ids
  · exact iff_of_true (.inr (hin a ha)) (.inr (hin a ha))
  · rw [hi.get?_of_not_mem h.regular ha]

theorem Ahead.get?_eq_none (h : Ahead p S s t) (hnone : t.entries.get? id = none) : s.entries.get? id = none := by
  by_contra hs
  exact (h.installed id).2 (.inl hs) hnone

namespace Follows

theorem const {R : α → β → Prop} {r : Except Error α} {r' : Except Error β} (h : Ahead p S s t)
    (hr : ∀ a, r = .ok a → ∃ b, r' = .ok b ∧ R a b) : Follows p S R (fun s => (r, s)) (fun s => (r', s)) s t := by
  intro a ha
  obtain ⟨b, hb, hab⟩ := hr a ha
  exact .inr ⟨b, hb, hab, h⟩

theorem andThen {R : α → β → Prop} {R' : γ → δ → Prop} {x : Step α} {y : Step β} {f : α → Step γ} {g : β → Step δ}
    (hxy : Follows p S R x y s t)
    (hfg : ∀ a b, (x s).1 = .ok a → (y t).1 = .ok b → R a b → Ahead p S (x s).2 (y t).2 →
      Follows p S R' (f a) (g b) (x s).2 (y t).2) :
    Follows p S R' (Compiler.andThen x f) (Compiler.andThen y g) s t := by
  intro c hc
  cases hx : (x s).1 with
  | error e =>
    rw [andThen_error (Prod.ext hx rfl)] at hc
    cases hc
  | ok a =>
    rw [andThen_ok (Prod.ext hx rfl)] at hc ⊢
    rcases hxy a hx with ⟨needed, available, hy⟩ | ⟨b, hy, hab, hahead⟩
    · rw [andThen_error (Prod.ext hy rfl)]
      exact .inl ⟨needed, available, rfl⟩
    · rw [andThen_ok (Prod.ext hy rfl)]
      exact hfg a b hx hy hab hahead c hc

end Follows

/-! ### Generating code -/

/-- The callees of a method are resolved in the state that is ahead, unless its block is full. -/
def CalleesFollow (p : Program) (S : Nat → Prop) (id : Nat) (resolve : Nat → Step CodePtr) : Prop :=
  ∀ callee, p.Calls id callee → ∀ s t, Ahead p S s t →
    Follows p S (fun _ _ => True) (resolve callee) (resolve callee) s t

section

variable {resolve : Nat → Step CodePtr}

private theorem generateInsn_follows (hm : p.method? id = some method) (hr : CalleesFollow p S id resolve) {pc : Nat}
    {i : Insn} (hmem : (pc, i) ∈ method.sweep.insns) (height : Nat) (h : Ahead p S s t) :
    Follows p S (fun e e' => e'.height = e.height ∧ List.Forall₂ Retargeted e.code e'.code)
      (generateInsn resolve p method pc height i) (generateInsn resolve p method pc height i) s t := by
  rcases generateInsn_cases resolve p method pc height i with ⟨r, heq⟩ | ⟨idx, call, rfl, hplan, heq⟩
  · rw [heq]
    exact .const h fun e he => ⟨e, he, rfl, retargeted_refl e.code⟩
  · rw [heq]
    refine (hr _ (Template.Call.calls_of_plan hm hmem hplan) s t h).andThen fun entry entry' _ _ _ h' => ?_
    refine .const h' fun e he => ⟨_, rfl, ?_⟩
    cases he
    exact ⟨rfl, call.retargeted_code entry entry'⟩

private theorem generateInsns_follows (hm : p.method? id = some method) (hr : CalleesFollow p S id resolve)
    {insns : List (Nat × Insn)} (hsub : insns ⊆ method.sweep.insns) (height : Nat) (h : Ahead p S s t) :
    Follows p S (List.Forall₂ Retargeted) (generateInsns resolve p method insns height)
      (generateInsns resolve p method insns height) s t := by
  induction insns generalizing height s t with
  | nil => exact .const h fun code hcode => ⟨code, hcode, retargeted_refl code⟩
  | cons head rest ih =>
    obtain ⟨pc, i⟩ := head
    rw [List.cons_subset] at hsub
    rw [generateInsns_cons]
    refine (generateInsn_follows hm hr hsub.1 height h).andThen fun e e' _ _ he h₁ => ?_
    rw [he.1]
    refine (ih hsub.2 e.height h₁).andThen fun more more' _ _ hmore h₂ => ?_
    refine .const h₂ fun code hcode => ⟨_, rfl, ?_⟩
    cases hcode
    exact List.rel_append he.2 hmore

private theorem judged_ok {code code' : Assembly} (h : judged method code = .ok code') :
    code' = code ∧ ∀ asm, judged method asm = .ok asm := by
  unfold judged at h ⊢
  split at h
  · cases h
  split at h
  · cases h
    exact ⟨rfl, fun _ => rfl⟩
  · cases h

theorem generate_follows (hm : p.method? id = some method) (hr : CalleesFollow p S id resolve) (h : Ahead p S s t) :
    Follows p S (List.Forall₂ Retargeted) (generate resolve p method) (generate resolve p method) s t := by
  rw [generate_eq]
  refine (generateInsns_follows hm hr (List.Subset.refl _) 0 h).andThen fun code code' _ _ hcode h' => ?_
  refine .const h' fun asm hasm => ?_
  obtain ⟨rfl, hjudged⟩ := judged_ok hasm
  exact ⟨code', hjudged code', hcode⟩

end

/-! ### Placing code -/

private theorem get?_install_ne_none {entries : Entries} {entry : CodePtr} (a : Nat) :
    Entries.get? ⟨(id, entry) :: entries.installed⟩ a ≠ none ↔ a = id ∨ entries.get? a ≠ none := by
  rw [Entries.get?_cons]
  by_cases ha : a = id
  · simp [ha]
  · simp [ha]

/-- Both install the method, unless the block of the second one is full. -/
theorem finish_follows (h : Ahead p S s t) (hm : p.method? id = some method) (hnone : t.entries.get? id = none)
    {code code' : Assembly} (hcode : List.Forall₂ Retargeted code code') (hg : Generated p method s.Resolved code)
    (hg' : Generated p method t.Resolved code') :
    Follows p S (fun _ _ => True) (finish id method code) (finish id method code') s t := by
  intro entry hok
  obtain ⟨hreg, _, _, bytes, hadds, hentries⟩ :=
    finish_ok h.regular hm (h.get?_eq_none hnone) hg (Prod.ext hok rfl)
  -- the code for the second block can be encoded too, so only space can be missing for it
  obtain ⟨bytes', henc'⟩ := X86.Assembly.encodeFrom_retargeted hcode hadds.encode_eq t.block.next.addr
  rcases finish_cases h.regular' hnone hg' with ⟨_, _, hok', _⟩ | ⟨e, _, hplace, _, herror⟩
  · obtain ⟨hreg', hext', _, _, _, hentries'⟩ := finish_ok h.regular' hm hnone hg' (Prod.ext hok' rfl)
    have hgranted := (finish_develops hm h.regular'.good.toFair hg').1.granted h.granted
    refine .inr ⟨_, hok', trivial, hreg, hreg', hgranted, fun a e he => ?_, fun a => ?_⟩
    · rw [hext'.grows.covers]
      rcases hext'.added a e he with hold | hcovers
      · exact h.covers a e hold
      · exact hcovers
    · rw [hentries, hentries', get?_install_ne_none, get?_install_ne_none, h.installed, or_assoc]
  · obtain ⟨needed, available, rfl⟩ :=
      h.granted.place_error_bufferFull h.regular'.tidy.used_le henc' (congrArg Prod.fst hplace)
    exact .inl ⟨needed, available, congrArg Prod.fst herror⟩

/-! ### Requests for a method -/

/-- What is found at once was installed by the first request too, or is a method of `S`. -/
theorem cached_follows (hclosed : ∀ a b, S a → p.Reaches a b → S b) {maxDepth left : Nat} {active : List Nat}
    (hf : t.entries.get? id = none →
      Follows p S (fun _ _ => True) (fresh p maxDepth left active id) (fresh p maxDepth left active id) s t)
    (h : Ahead p S s t) :
    Follows p S (fun _ _ => True) (cached (fresh p maxDepth left active) p id)
      (cached (fresh p maxDepth left active) p id) s t := by
  cases hm : p.method? id with
  | none =>
    intro entry hok
    simp only [cached, hm] at hok
    cases hok
  | some method =>
    cases hget : t.entries.get? id with
    | none =>
      have hget' := h.get?_eq_none hget
      have heq : ∀ u : State, u.entries.get? id = none →
          cached (fresh p maxDepth left active) p id u = fresh p maxDepth left active id u := by
        intro u hu
        simp only [cached, hm, hu]
      intro entry hok
      rw [heq s hget'] at hok ⊢
      rw [heq t hget]
      exact hf hget entry hok
    | some entry' =>
      intro entry hok
      have hfound : cached (fresh p maxDepth left active) p id t = (.ok entry', t) :=
        cached_of_resolved h.regular'.good hm ⟨hget, h.covers id entry' hget⟩
      rw [hfound]
      refine .inr ⟨entry', rfl, trivial, ?_⟩
      cases hget' : s.entries.get? id with
      | some e =>
        simp only [cached, hm, hget']
        exact h
      | none =>
        have hS : S id := by
          rcases (h.installed id).1 (by simp [hget]) with hs | hS
          · exact absurd hget' hs
          · exact hS
        -- the first request compiles what the second one finds; all that this installs is in `S` as well
        obtain ⟨ids, hi, hin⟩ := (cached_settles (fresh_respects p maxDepth left active)
          (fresh_settles p maxDepth left active id h.regular) h.regular).installs
        exact h.installs hi fun a ha => hclosed id a hS (hin a ha).2

/-- A method has no entry before its code is placed. -/
private theorem get?_generate_fresh (maxDepth left : Nat) (active : List Nat) (hs : s.Regular p)
    (hm : p.method? id = some method) (hnone : s.entries.get? id = none) :
    (generate (cached (fresh p maxDepth left (id :: active)) p) p method s).2.entries.get? id = none := by
  obtain ⟨⟨ids, hi, hin⟩, _, _⟩ := generate_cached_settles active hs hm (fresh_respects p maxDepth left (id :: active))
    fun callee t ht hn => fresh_settles p maxDepth left (id :: active) callee ht hn
  rw [hi.get?_of_not_mem hs fun hmem => (hin id hmem).1 List.mem_cons_self, hnone]

/-- Induction on how many methods may still join the chain. -/
theorem fresh_follows (hclosed : ∀ a b, S a → p.Reaches a b → S b) (maxDepth left : Nat) (active : List Nat)
    (h : Ahead p S s t) (hnone : t.entries.get? id = none) :
    Follows p S (fun _ _ => True) (fresh p maxDepth left active id) (fresh p maxDepth left active id) s t := by
  induction left using Nat.strong_induction_on generalizing active id s t with
  | _ left ih =>
    rcases fresh_cases p maxDepth left active id with ⟨e, heq⟩ | ⟨left, method, rfl, hm, ha, heq⟩
    · rw [heq]
      intro entry hok
      cases hok
    · have hresp := fresh_respects p maxDepth left (id :: active)
      rw [heq]
      have hcallees : CalleesFollow p S id (cached (fresh p maxDepth left (id :: active)) p) := by
        intro callee _ u v huv
        exact cached_follows hclosed (ih left (Nat.lt_succ_self _) (id :: active) huv) huv
      refine (generate_follows hm hcallees h).andThen fun code code' hcode hcode' hsame h' => ?_
      refine finish_follows h' hm (get?_generate_fresh maxDepth left active h.regular' hm hnone) hsame ?_ ?_
      · exact (generate_respects (cached_respects hresp) method s h.regular.good.toFair).2 code hcode
      · exact (generate_respects (cached_respects hresp) method t h.regular'.good.toFair).2 code' hcode'

theorem compile_follows (hclosed : ∀ a b, S a → p.Reaches a b → S b) (maxDepth id : Nat) (h : Ahead p S s t) :
    Follows p S (fun _ _ => True) (compile p maxDepth id) (compile p maxDepth id) s t :=
  cached_follows hclosed (fresh_follows hclosed maxDepth maxDepth [] h) h

end

end Compiler

/-! ### A compiler on its own -/

namespace Jit

/-- One request after the other. -/
def serveAll (j : Jit) (p : Program) (es : Entries) (requests : List Request) : Jit × Entries :=
  requests.foldl (fun done r => done.1.serve p done.2 r) (j, es)

theorem settings_serve (j : Jit) (p : Program) (es : Entries) (r : Request) :
    (j.serve p es r).1.settings = j.settings := by
  cases r with
  | compile id => exact j.settings_compile p es id
  | recompile id => rfl
  | execute id self args =>
    rcases j.execute_eq p es id self args with ⟨hj, _⟩ | ⟨hj, _⟩
    · exact congrArg settings hj
    · exact (congrArg settings hj).trans (j.settings_compile p es id)

theorem settings_serveAll (j : Jit) (p : Program) (es : Entries) (requests : List Request) :
    (j.serveAll p es requests).1.settings = j.settings := by
  induction requests generalizing j es with
  | nil => rfl
  | cons r rest ih => exact (ih _ _).trans (j.settings_serve p es r)

theorem settings_new {host : Host} {settings : Settings} {j : Jit} {notices : List Notice}
    (h : Jit.new host settings = .ok (j, notices)) : j.settings = settings := by
  unfold Jit.new at h
  split at h
  · cases h
  simp only at h
  split at h
  · cases h
  cases h
  rfl

end Jit

namespace Workspace

/-- A compiler that serves requests for one program. -/
theorem Reachable.serveAll {j : Jit} {p : Program} {es : Entries} (h : Reachable ⟨[j], [(p, es)]⟩)
    (hgranted : j.block.Granted) (requests : List Request) :
    Reachable ⟨[(j.serveAll p es requests).1], [(p, (j.serveAll p es requests).2)]⟩ ∧
      (j.serveAll p es requests).1.block.Granted := by
  induction requests generalizing j es with
  | nil => exact ⟨h, hgranted⟩
  | cons r rest ih =>
    have hgood := h.sound.good List.mem_cons_self List.mem_cons_self
    exact ih (h.request List.getElem?_cons_zero List.getElem?_cons_zero r)
      ((Jit.serve_develops hgood.toFair r).granted hgranted)

/-- Compared with a compiler that has installed nothing, one that is alone is ahead by what it has installed. -/
theorem Reachable.ahead {j j' : Jit} {p : Program} {es : Entries} (h : Reachable ⟨[j], [(p, .empty)]⟩)
    (h' : Reachable ⟨[j'], [(p, es)]⟩) (hgranted : j'.block.Granted) :
    Compiler.Ahead p (fun a => es.get? a ≠ none) ⟨j.block, .empty, []⟩ ⟨j'.block, es, []⟩ ∧
      ∀ a b, es.get? a ≠ none → p.Reaches a b → es.get? b ≠ none := by
  have hmem : (p, es) ∈ [(p, es)] := List.mem_cons_self
  have hreg := h.standing.regular h.sound List.mem_cons_self List.mem_cons_self
  have hreg' := h'.standing.regular h'.sound List.mem_cons_self hmem
  have hcontains : ∀ a entry, es.get? a = some entry → j'.block.contains entry = true := fun a entry he =>
    h'.contains_of_single hmem he
  refine ⟨⟨hreg, hreg', hgranted, fun a entry he => ?_, fun a => ?_⟩, fun a b ha hr => ?_⟩
  · exact hreg'.good.sound.covers_of_contains (hcontains a entry he)
  · simp [Entries.get?, Entries.empty]
  · obtain ⟨entry, he⟩ := Option.ne_none_iff_exists'.1 ha
    obtain ⟨e, he', _⟩ := (h'.standing.stands j' List.mem_cons_self _ hmem).reaches he (hcontains a entry he) hr
    simp [he']

end Workspace

/-- A method that a new compiler compiles is compiled by another one with the same settings, on a host that refuses no
change of protection, whatever that was asked for before, successfully or not, unless there is no space left for it. -/
theorem Jit.compile_after_requests {host host' : Host} {settings : Settings} {j j' : Jit}
    {notices notices' : List Notice} (hj : Jit.new host settings = .ok (j, notices))
    (hfits : j.block.base.toNat + j.block.capacity ≤ UInt64.size) (hj' : Jit.new host' settings = .ok (j', notices'))
    (hfits' : j'.block.base.toNat + j'.block.capacity ≤ UInt64.size) (hhost' : host'.answers = []) {p : Program}
    {id : Nat} {entry : CodePtr} (hok : (j.compile p .empty id).result = .ok entry) (earlier : List Request) :
    let later := j'.serveAll p .empty earlier
    (∃ entry', (later.1.compile p later.2 id).result = .ok entry') ∨
      ∃ needed available, (later.1.compile p later.2 id).result = .error (.bufferFull needed available) := by
  intro later
  have hw := Workspace.reachable_new hj hfits p
  obtain ⟨hw', hgranted⟩ := (Workspace.reachable_new hj' hfits' p).serveAll (Jit.new_granted hj' hhost') earlier
  have hsettings : later.1.settings.maxDepth = j.settings.maxDepth := by
    rw [Jit.settings_serveAll, Jit.settings_new hj', Jit.settings_new hj]
  obtain ⟨hahead, hclosed⟩ := hw.ahead hw' hgranted
  rw [(j.compile_eq p .empty id).1] at hok
  rw [(later.1.compile_eq p later.2 id).1, hsettings]
  rcases Compiler.compile_follows hclosed j.settings.maxDepth id hahead entry hok with hfull | ⟨entry', hentry, _⟩
  · exact .inr hfull
  · exact .inl ⟨entry', hentry⟩

/-- Each method calls the one before it. -/
def ladderProgram : Program :=
  ⟨#[((Draft.empty.insn .putSelf).insn .leave).method "ground" 0,
    (((Draft.empty.insn .putSelf).send ⟨0, 0⟩).insn .leave).method "first" 0,
    (((Draft.empty.insn .putSelf).send ⟨1, 0⟩).insn .leave).method "second" 0,
    (((Draft.empty.insn .putSelf).send ⟨2, 0⟩).insn .leave).method "third" 0]⟩

def threeDeep : Settings := { Settings.default with maxDepth := 3 }

/-- The top of the ladder is refused, and then only the ground is compiled. -/
private theorem ladderProgram_history :
    ∃ j notices, Jit.new (.lending 0x10000 0x1000000) threeDeep = .ok (j, notices) ∧
      j.block.base.toNat + j.block.capacity ≤ UInt64.size ∧
      (j.compile ladderProgram .empty 2).result = .ok ⟨65655⟩ ∧
      (j.compile ladderProgram .empty 3).result = .error (.depthExceeded 3) ∧
      (j.serveAll ladderProgram .empty [.compile 3, .compile 0]).2 = ⟨[(0, ⟨65553⟩)]⟩ :=
  ⟨_, _, rfl, by decide +kernel, by decide +kernel, by decide +kernel, by decide +kernel⟩

/-- With chains of three methods, the top of the ladder cannot be compiled and the method below it can, also after the
ground was compiled for itself. -/
theorem Jit.compile_after_requests_ladderProgram :
    ∃ j notices entry, Jit.new (.lending 0x10000 0x1000000) threeDeep = .ok (j, notices) ∧
      j.block.base.toNat + j.block.capacity ≤ UInt64.size ∧
      (j.compile ladderProgram .empty 2).result = .ok entry ∧
      (j.compile ladderProgram .empty 3).result = .error (.depthExceeded 3) ∧
      let later := j.serveAll ladderProgram .empty [.compile 3, .compile 0]
      later.2 = ⟨[(0, ⟨65553⟩)]⟩ ∧
        ((∃ entry', (later.1.compile ladderProgram later.2 2).result = .ok entry') ∨
          ∃ needed available,
            (later.1.compile ladderProgram later.2 2).result = .error (.bufferFull needed available)) := by
  obtain ⟨j, notices, hj, hfits, hok, hdeep, hground⟩ := ladderProgram_history
  exact ⟨j, notices, _, hj, hfits, hok, hdeep, hground,
    Jit.compile_after_requests hj hfits hj hfits rfl hok [.compile 3, .compile 0]⟩

end Native

end StackMachine
