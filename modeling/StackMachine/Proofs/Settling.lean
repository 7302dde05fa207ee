import Mathlib
import StackMachine.Proofs.Installation

/-!
# Settled answers

Asking the compiler again for what it has answered changes nothing.  If it succeeded, every callee has its entry now,
and if it failed, the failing method has none: a second attempt finds the entries of the methods that were installed on
the way, and comes to the same point with the same state.  Only a host that refuses to change the protection of the
block can make a difference to an attempt that failed.

* `Settles`: the step installs methods, and repeated on what it leaves behind it gives the same answer and does nothing.
  Steps in sequence settle (`Settles.andThen`).
* `fresh_settles`, `compile_settles`: requests for a method settle, by induction on how many methods may join the chain.
* `recompile_places`: what a request to compile a method again can do beyond that.
-/

namespace StackMachine.Native.Compiler

open X86 (Assembly)
open Template (Call)

variable {α β : Type} {p : Program} {s t : State} {a id : Nat} {within within' : Nat → Prop} {method : Method}

/-! ### Sequences of steps -/

/-- One step and, if it succeeds, another. -/
def andThen (x : Step α) (f : α → Step β) : Step β := fun s =>
  match x s with
  | (.error e, s) => (.error e, s)
  | (.ok a, s) => f a s

theorem andThen_ok {x : Step α} {f : α → Step β} {a : α} (h : x s = (.ok a, t)) : andThen x f s = f a t := by
  simp only [andThen, h]

theorem andThen_error {x : Step α} {f : α → Step β} {e : Error} (h : x s = (.error e, t)) :
    andThen x f s = (.error e, t) := by
  simp only [andThen, h]

theorem generateInsns_cons (resolve : Nat → Step CodePtr) (p : Program) (method : Method) (pc : Nat) (i : Insn)
    (rest : List (Nat × Insn)) (height : Nat) :
    generateInsns resolve p method ((pc, i) :: rest) height =
      andThen (generateInsn resolve p method pc height i) fun emitted =>
        andThen (generateInsns resolve p method rest emitted.height) fun more s => (.ok (emitted.code ++ more), s) := by
  funext s
  simp only [generateInsns, andThen]
  rcases generateInsn resolve p method pc height i s with ⟨e | emitted, s₁⟩
  · rfl
  simp only
  rcases generateInsns resolve p method rest emitted.height s₁ with ⟨e | more, s₂⟩
  · rfl
  · rfl

/-- Whether the stream that code was generated for may end where it does. -/
def judged (method : Method) (code : Assembly) : Except Error Assembly :=
  match method.sweep.error with
  | some e => .error (.decode method.name e)
  | none =>
    match method.sweep.insns.getLast? with
    | some (_, .leave) => .ok code
    | _ => .error (.missingReturn method.name)

theorem generate_eq (resolve : Nat → Step CodePtr) (p : Program) (method : Method) :
    generate resolve p method =
      andThen (generateInsns resolve p method method.sweep.insns 0) fun code s => (judged method code, s) := by
  funext s
  simp only [generate, andThen, judged]
  rcases generateInsns resolve p method method.sweep.insns 0 s with ⟨e | code, s₁⟩
  · rfl
  cases method.sweep.error with
  | some e => rfl
  | none =>
    rcases method.sweep.insns.getLast? with _ | ⟨pc, i⟩
    · rfl
    · cases i <;> rfl

/-- A method that may join the chain is generated and finished. -/
theorem fresh_eq (hm : p.method? id = some method) {active : List Nat} (ha : id ∉ active) (maxDepth left : Nat) :
    fresh p maxDepth (left + 1) active id =
      andThen (generate (cached (fresh p maxDepth left (id :: active)) p) p method) (finish id method) := by
  funext s
  rw [fresh]
  simp only [hm, if_neg ha, andThen]
  rcases generate (cached (fresh p maxDepth left (id :: active)) p) p method s with ⟨e | code, s₁⟩
  · rfl
  · rfl

/-- A method is refused out of hand or, if it may join the chain, generated and finished. -/
theorem fresh_cases (p : Program) (maxDepth left : Nat) (active : List Nat) (id : Nat) :
    (∃ e, fresh p maxDepth left active id = fun s => (.error e, s)) ∨
      ∃ left' method, left = left' + 1 ∧ p.method? id = some method ∧ id ∉ active ∧
        fresh p maxDepth left active id =
          andThen (generate (cached (fresh p maxDepth left' (id :: active)) p) p method) (finish id method) := by
  cases hm : p.method? id with
  | none =>
    refine .inl ⟨.unknownMethod id, ?_⟩
    funext s
    rw [fresh]
    simp only [hm]
  | some method =>
    by_cases ha : id ∈ active
    · refine .inl ⟨.recursiveCall (callerName p active) method.name, ?_⟩
      funext s
      rw [fresh]
      simp only [hm, if_pos ha]
    · cases left with
      | zero =>
        refine .inl ⟨.depthExceeded maxDepth, ?_⟩
        funext s
        rw [fresh]
        simp only [hm, if_neg ha]
      | succ left => exact .inr ⟨left, method, rfl, rfl, ha, fresh_eq hm ha maxDepth left⟩

/-! ### Settling -/

namespace State

/-- The state with other notices, which no step reads. -/
def withNotices (s : State) (notices : List Notice) : State := { s with notices := notices }

theorem Good.withNotices (h : s.Good p) (notices : List Notice) : (s.withNotices notices).Good p :=
  ⟨⟨h.sound, h.valid⟩, h.backed⟩

theorem Extends.withNotices (h : s.Extends t) (notices : List Notice) : s.Extends (t.withNotices notices) :=
  ⟨h.grows, h.kept, h.added, h.length_le⟩

end State

/-- The step installs methods that satisfy `within`; when it is repeated, it gives the same answer and does nothing. -/
structure Settles (p : Program) (within : Nat → Prop) (step : Step α) (s : State) : Prop where
  installs : ∃ ids, Installs p s ids (step s).2 ∧ ∀ id ∈ ids, within id
  granted : s.block.Granted → (step s).2.block.Granted
  again_ok : ∀ a, (step s).1 = .ok a → ∀ t, t.Good p → (step s).2.Extends t → step t = (.ok a, t)
  again_error : s.block.Granted → ∀ e, (step s).1 = .error e → ∀ notices,
    step ((step s).2.withNotices notices) = (.error e, (step s).2.withNotices notices)

namespace Settles

theorem mono {step : Step α} (h : Settles p within step s) (hw : ∀ a, within a → within' a) :
    Settles p within' step s := by
  obtain ⟨⟨ids, hi, hin⟩, hgranted, hok, herror⟩ := h
  exact ⟨⟨ids, hi, fun id hid => hw id (hin id hid)⟩, hgranted, hok, herror⟩

/-- An answer that does not depend on the state. -/
theorem const (r : Except Error α) (s : State) : Settles p within (fun s => (r, s)) s :=
  ⟨⟨[], .refl, nofun⟩, fun h => h, fun _ h _ _ _ => Prod.ext h rfl, fun _ _ h _ => Prod.ext h rfl⟩

theorem andThen {x : Step α} {f : α → Step β} (hs : s.Regular p) (hx : Settles p within x s)
    (hf : ∀ a, (x s).1 = .ok a → (x s).2.Regular p → Settles p within (f a) (x s).2) :
    Settles p within (andThen x f) s := by
  obtain ⟨ids, hi, hin⟩ := hx.installs
  obtain ⟨hreg, _, _⟩ := hi.regular hs
  cases hr : (x s).1 with
  | error e =>
    have hstop : Compiler.andThen x f s = (.error e, (x s).2) := andThen_error (Prod.ext hr rfl)
    refine ⟨?_, ?_, ?_, ?_⟩
    · rw [hstop]
      exact ⟨ids, hi, hin⟩
    · rw [hstop]
      exact hx.granted
    · rw [hstop]
      nofun
    · rw [hstop]
      intro hgranted e' he notices
      cases he
      exact andThen_error (hx.again_error hgranted e hr notices)
  | ok a =>
    have hgo : Compiler.andThen x f s = f a (x s).2 := andThen_ok (Prod.ext hr rfl)
    obtain ⟨⟨ids', hi', hin'⟩, hgranted', hok, herror⟩ := hf a hr hreg
    obtain ⟨hreg', hext', _⟩ := hi'.regular hreg
    refine ⟨?_, ?_, ?_, ?_⟩
    · rw [hgo]
      refine ⟨ids' ++ ids, hi.trans hi', fun id hid => ?_⟩
      rcases List.mem_append.1 hid with hid | hid
      · exact hin' id hid
      · exact hin id hid
    · rw [hgo]
      exact fun hgranted => hgranted' (hx.granted hgranted)
    · rw [hgo]
      intro b hb t ht hext
      rw [andThen_ok (hx.again_ok a hr t ht (hext'.trans hext))]
      exact hok b hb t ht hext
    · rw [hgo]
      intro hgranted e he notices
      rw [andThen_ok (hx.again_ok a hr _ (hreg'.good.withNotices notices) (hext'.withNotices notices))]
      exact herror (hx.granted hgranted) e he notices

end Settles

/-! ### Generating code -/

section

variable {resolve : Nat → Step CodePtr}

/-- A call that is planned is generated after its callee is resolved. -/
theorem generateInsn_send {pc height : Nat} {idx : UInt64} {call : Call}
    (hplan : Call.plan p method pc height idx = .ok call) (resolve : Nat → Step CodePtr) :
    generateInsn resolve p method pc height (.send idx) =
      andThen (resolve call.callee) fun entry s => (.ok ⟨call.code entry, height - call.args.length⟩, s) := by
  funext s
  simp only [generateInsn, hplan, andThen]
  rcases resolve call.callee s with ⟨e | entry, s₁⟩
  · rfl
  · rfl

/-- An instruction is generated by itself or, for a call, after its callee is resolved. -/
theorem generateInsn_cases (resolve : Nat → Step CodePtr) (p : Program) (method : Method) (pc height : Nat) (i : Insn) :
    (∃ r, generateInsn resolve p method pc height i = fun s => (r, s)) ∨
      ∃ idx call, i = .send idx ∧ Call.plan p method pc height idx = .ok call ∧
        generateInsn resolve p method pc height i =
          andThen (resolve call.callee) fun entry s => (.ok ⟨call.code entry, height - call.args.length⟩, s) := by
  cases i with
  | send idx =>
    cases hplan : Call.plan p method pc height idx with
    | error e =>
      refine .inl ⟨.error e, ?_⟩
      funext s
      simp only [generateInsn, hplan]
    | ok call => exact .inr ⟨idx, call, rfl, hplan, generateInsn_send hplan resolve⟩
  | _ => exact .inl ⟨_, rfl⟩

/-- Generating code settles if resolving each callee does. -/
private theorem generateInsns_settles (hm : p.method? id = some method)
    (hr : ∀ callee, p.Calls id callee → ∀ s, s.Regular p → Settles p within (resolve callee) s)
    {insns : List (Nat × Insn)} (hsub : insns ⊆ method.sweep.insns) (height : Nat) (hs : s.Regular p) :
    Settles p within (generateInsns resolve p method insns height) s := by
  induction insns generalizing height s with
  | nil => exact .const _ s
  | cons head rest ih =>
    obtain ⟨pc, i⟩ := head
    rw [List.cons_subset] at hsub
    have hhead : Settles p within (generateInsn resolve p method pc height i) s := by
      rcases generateInsn_cases resolve p method pc height i with ⟨r, heq⟩ | ⟨idx, call, rfl, hplan, heq⟩
      · rw [heq]
        exact .const r s
      · rw [heq]
        exact (hr _ (Call.calls_of_plan hm hsub.1 hplan) s hs).andThen hs fun _ _ _ => .const _ _
    rw [generateInsns_cons]
    exact hhead.andThen hs fun emitted _ hs₁ => (ih hsub.2 emitted.height hs₁).andThen hs₁ fun _ _ _ => .const _ _

theorem generate_settles (hm : p.method? id = some method)
    (hr : ∀ callee, p.Calls id callee → ∀ s, s.Regular p → Settles p within (resolve callee) s) (hs : s.Regular p) :
    Settles p within (generate resolve p method) s := by
  rw [generate_eq]
  exact (generateInsns_settles hm hr (List.Subset.refl _) 0 hs).andThen hs fun _ _ _ => .const _ _

end

/-! ### Requests for a method -/

/-- An entry that is found is owned as long as the block only grows. -/
theorem cached_of_resolved {fresh : Nat → Step CodePtr} (ht : t.Good p) {entry : CodePtr}
    (hm : p.method? id = some method) (hr : t.Resolved id entry) : cached fresh p id t = (.ok entry, t) := by
  simp only [cached, hm, hr.1, owned, if_pos (ht.contains hr)]

/-- A method that has no entry: what `fresh` must do for its answer to be settled. -/
@[mk_iff]
structure FreshSettles (p : Program) (within : Nat → Prop) (id : Nat) (fresh : Step CodePtr) (s : State) : Prop where
  installs : ∃ ids, Installs p s ids (fresh s).2 ∧ ∀ a ∈ ids, within a
  error_none : ∀ e, (fresh s).1 = .error e → (fresh s).2.entries.get? id = none
  again_error : s.block.Granted → ∀ e, (fresh s).1 = .error e → ∀ notices,
    fresh ((fresh s).2.withNotices notices) = (.error e, (fresh s).2.withNotices notices)

theorem cached_settles {fresh : Nat → Step CodePtr}
    (hresp : ∀ id, Respects p (fresh id) fun entry s => s.Resolved id entry)
    (hf : s.entries.get? id = none → FreshSettles p within id (fresh id) s) (hs : s.Regular p) :
    Settles p within (cached fresh p id) s := by
  obtain ⟨hdev, hpost⟩ := cached_respects hresp id s hs.good.toFair
  have hagain : ∀ entry, (cached fresh p id s).1 = .ok entry → ∀ t, t.Good p → (cached fresh p id s).2.Extends t →
      cached fresh p id t = (.ok entry, t) := by
    intro entry hok t ht hext
    cases hm : p.method? id with
    | none =>
      simp only [cached, hm] at hok
      cases hok
    | some method => exact cached_of_resolved ht hm (hext.resolved (hpost entry hok))
  cases hm : p.method? id with
  | none =>
    have heq : cached fresh p id = fun s => (.error (.unknownMethod id), s) := by
      funext s
      simp only [cached, hm]
    rw [heq]
    exact .const _ s
  | some method =>
    cases hget : s.entries.get? id with
    | some entry =>
      have heq : ∀ t : State, t.entries.get? id = some entry →
          cached fresh p id t = (owned t.block method entry, t) := by
        intro t ht
        simp only [cached, hm, ht]
      refine ⟨⟨[], ?_, List.forall_mem_nil _⟩, hdev.granted, hagain, ?_⟩
      · rw [heq s hget]
        exact .refl
      · rw [heq s hget]
        intro _ e he notices
        exact (heq (s.withNotices notices) hget).trans (Prod.ext he rfl)
    | none =>
      have heq : ∀ t : State, t.entries.get? id = none → cached fresh p id t = fresh id t := by
        intro t ht
        simp only [cached, hm, ht]
      obtain ⟨hinst, hnone, herror⟩ := hf hget
      refine ⟨?_, hdev.granted, hagain, ?_⟩
      · rw [heq s hget]
        exact hinst
      · rw [heq s hget]
        intro hgranted e he notices
        exact (heq ((fresh id s).2.withNotices notices) (hnone e he)).trans (herror hgranted e he notices)

/-- The answer is settled by what generating the method's code has installed, and by whether the code can be placed. -/
private theorem finish_settles {active : List Nat} {gen : Step Assembly} (hs : s.Regular p)
    (hm : p.method? id = some method) (hnone : s.entries.get? id = none) (ha : id ∉ active)
    (hsettles : Settles p (fun a => a ∉ id :: active ∧ p.Reaches id a) gen s)
    (hpost : ∀ code, (gen s).1 = .ok code → Generated p method (gen s).2.Resolved code) :
    FreshSettles p (fun a => a ∉ active ∧ p.Reaches id a) id (andThen gen (finish id method)) s := by
  obtain ⟨⟨ids, hi, hin⟩, hgranted, hok, herror⟩ := hsettles
  obtain ⟨hreg, _, _⟩ := hi.regular hs
  have hwithin : ∀ a ∈ ids, a ∉ active ∧ p.Reaches id a :=
    fun a h => ⟨fun hc => (hin a h).1 (List.mem_cons_of_mem _ hc), (hin a h).2⟩
  have hnone' : (gen s).2.entries.get? id = none := by
    rw [hi.get?_of_not_mem hs fun h => (hin id h).1 List.mem_cons_self, hnone]
  cases hr : (gen s).1 with
  | error e =>
    have hstop : andThen gen (finish id method) s = (.error e, (gen s).2) := andThen_error (Prod.ext hr rfl)
    rw [freshSettles_iff, hstop]
    refine ⟨⟨ids, hi, hwithin⟩, fun _ _ => hnone', fun h e' he notices => ?_⟩
    cases he
    exact andThen_error (herror h e hr notices)
  | ok code =>
    have hgo : andThen gen (finish id method) s = finish id method code (gen s).2 := andThen_ok (Prod.ext hr rfl)
    have hg := hpost code hr
    rcases finish_cases hreg hnone' hg with ⟨bytes, _, hres, _⟩ | ⟨e, b, hplace, hretains, hfin⟩
    · rw [freshSettles_iff, hgo, hres]
      have hstep := Installs.step hi hm hnone' hg (Prod.ext hres rfl)
      refine ⟨⟨id :: ids, hstep, fun a h => ?_⟩, fun _ he => ?_, fun _ _ he => ?_⟩
      · rcases List.mem_cons.1 h with rfl | h
        · exact ⟨ha, .refl⟩
        · exact hwithin a h
      · cases he
      · cases he
    · rw [freshSettles_iff, hgo, hfin]
      refine ⟨⟨ids, .retain hi hretains, hwithin⟩, fun _ _ => hnone', fun h e' he notices => ?_⟩
      cases he
      -- the callees are found, so the same code comes to the same place
      have hsame : b = (gen s).2.block := by
        have := (hgranted h).place_error hreg.tidy (congrArg Prod.fst hplace)
        rw [hplace] at this
        exact this
      subst hsame
      rw [andThen_ok (hok code hr _ (hreg.good.withNotices notices) (.withNotices (.refl _) notices))]
      simp only [finish, State.withNotices, hplace]

/-- Generating a method's code, when its callees are requested for a chain with the method in it. -/
theorem generate_cached_settles (active : List Nat) {fresh : Nat → Step CodePtr} (hs : s.Regular p)
    (hm : p.method? id = some method) (hresp : ∀ id, Respects p (fresh id) fun entry s => s.Resolved id entry)
    (hf : ∀ callee t, t.Regular p → t.entries.get? callee = none →
      FreshSettles p (fun a => a ∉ id :: active ∧ p.Reaches callee a) callee (fresh callee) t) :
    Settles p (fun a => a ∉ id :: active ∧ p.Reaches id a) (generate (cached fresh p) p method) s := by
  refine generate_settles hm (fun callee hcall t ht => ?_) hs
  exact (cached_settles hresp (hf callee t ht) ht).mono fun a h => ⟨h.1, h.2.head hcall⟩

/-- A method that has no entry yet.  The methods of the chain stay without entry, this one until its code is placed. -/
theorem fresh_settles (p : Program) (maxDepth left : Nat) (active : List Nat) (id : Nat) {s : State}
    (hs : s.Regular p) (hnone : s.entries.get? id = none) :
    FreshSettles p (fun a => a ∉ active ∧ p.Reaches id a) id (fresh p maxDepth left active id) s := by
  induction left using Nat.strong_induction_on generalizing active id s with
  | _ left ih =>
    rcases fresh_cases p maxDepth left active id with ⟨e, heq⟩ | ⟨left, method, rfl, hm, ha, heq⟩
    · rw [heq]
      exact ⟨⟨[], .refl, nofun⟩, fun _ _ => hnone, fun _ e' he notices => Prod.ext he rfl⟩
    · have hresp := fresh_respects p maxDepth left (id :: active)
      have hgen := generate_cached_settles active hs hm hresp fun callee t ht hn =>
        ih left (Nat.lt_succ_self _) (id :: active) callee ht hn
      rw [heq]
      exact finish_settles hs hm hnone ha hgen (generate_respects (cached_respects hresp) method s hs.good.toFair).2

theorem compile_settles (p : Program) (maxDepth id : Nat) {s : State} (hs : s.Regular p) :
    Settles p (p.Reaches id) (compile p maxDepth id) s :=
  (cached_settles (fresh_respects p maxDepth maxDepth []) (fresh_settles p maxDepth maxDepth [] id hs) hs).mono
    fun _ h => h.2

/-! ### Compiling again -/

/-- A method that has an entry keeps it; its code is placed once more. -/
private theorem finish_placed {first : CodePtr} (hfirst : s.entries.get? id = some first) (method : Method)
    (code : Assembly) :
    (finish id method code s).2.entries = s.entries ∧ (finish id method code s).2.block = (s.block.place code).2 := by
  unfold finish
  split
  · rename_i e b hp
    rw [hp]
    exact ⟨rfl, rfl⟩
  · rename_i q b hp
    rw [hp]
    simp only [Entries.install, hfirst]
    exact ⟨rfl, rfl⟩

/-- Beside installing methods, a request to compile again can only place code that is not installed. -/
theorem recompile_places (p : Program) (maxDepth id : Nat) {s : State} (hs : s.Regular p) :
    ∃ ids t, Installs p s ids t ∧ (recompile p maxDepth id s).2.entries = t.entries ∧
      ((recompile p maxDepth id s).2.block = t.block ∨
        ∃ code, (recompile p maxDepth id s).2.block = (t.block.place code).2) := by
  cases hget : s.entries.get? id with
  | none =>
    obtain ⟨⟨ids, hi, _⟩, _⟩ := fresh_settles p maxDepth maxDepth [] id hs hget
    exact ⟨ids, _, hi, rfl, .inl rfl⟩
  | some first =>
    unfold recompile
    rcases fresh_cases p maxDepth maxDepth [] id with ⟨e, heq⟩ | ⟨left, method, hleft, hm, _, heq⟩
    · rw [heq]
      exact ⟨[], s, .refl, rfl, .inl rfl⟩
    · have hgen := generate_cached_settles [] hs hm (fresh_respects p maxDepth left [id])
        fun callee t ht hn => fresh_settles p maxDepth left [id] callee ht hn
      rw [heq]
      generalize generate (cached (fresh p maxDepth left [id]) p) p method = gen at hgen
      obtain ⟨ids, hi, _⟩ := hgen.installs
      obtain ⟨_, hext, _⟩ := hi.regular hs
      refine ⟨ids, (gen s).2, hi, ?_⟩
      cases hr : (gen s).1 with
      | error e =>
        rw [andThen_error (Prod.ext hr rfl)]
        exact ⟨rfl, .inl rfl⟩
      | ok code =>
        obtain ⟨hentries, hblock⟩ := finish_placed (hext.kept id first hget) method code
        rw [andThen_ok (Prod.ext hr rfl)]
        exact ⟨hentries, .inr ⟨code, hblock⟩⟩

end StackMachine.Native.Compiler
