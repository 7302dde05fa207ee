import Mathlib
import StackMachine.Proofs.BodyLines
import StackMachine.Proofs.Fixnums
import StackMachine.Proofs.Histories
import StackMachine.Proofs.Refusals

/-!
# Programs of program files

What the file says is in the program: the methods in order, found by their names, each with the instructions of its
lines and a call site for each call (`Source.Describes`).  Names are resolved before any body is read, so a call may
name a method that is defined later.

Such a program is closed: streams decode to their ends, and calls stay in the program.  None of its methods is refused
by the compiler for a word that is no instruction, a call site or a callee that does not exist.

* `Source.method_spells`: one method of the file.
* `Source.build_describes`: the whole file.
* `Source.build_eq_error_body`: what a file is refused for that has a line which cannot be read.
* `Program.Closed.refused`: what a request for a method of a closed program cannot fail with.
-/

namespace StackMachine

open Mnemonic (Statement Says bodyWords)

/-! ### Closed programs -/

/-- Streams decode to their ends, and every `send` in them has a call site that names a method of the program. -/
def Program.Closed (p : Program) : Prop :=
  ∀ id m, p.method? id = some m → m.sweep.error = none ∧
    ∀ pc idx, (pc, .send idx) ∈ m.sweep.insns →
      ∃ site callee, m.site? idx = some site ∧ p.method? site.callee = some callee

/-- Errors of a program that is not closed. -/
inductive Native.Error.OfOpenProgram : Native.Error → Prop where
  | decode {name e} : OfOpenProgram (.decode name e)
  | badCallSite {name idx} : OfOpenProgram (.badCallSite name idx)
  | unknownMethod {id} : OfOpenProgram (.unknownMethod id)

open Native (Compiler.Refused) in
theorem Program.Closed.refused {p : Program} (h : p.Closed) {id : Nat} (hid : id < p.size) {e : Native.Error}
    (he : Compiler.Refused p id e) : ¬e.OfOpenProgram := by
  intro hopen
  cases he with
  | unknownMethod hm =>
    rw [method?, Array.getElem?_eq_none_iff] at hm
    exact absurd hid (Nat.not_lt.2 hm)
  | recursiveCall => cases hopen
  | depthExceeded => cases hopen
  | foreignEntry => cases hopen
  | placement _ he => cases he <;> cases hopen
  | insn _ _ _ _ _ he =>
    rcases Native.Template.emit_error he with rfl | rfl | ⟨_, rfl⟩ | rfl <;> cases hopen
  | send _ hm hi _ he =>
    obtain ⟨site, callee, hsite, hcallee⟩ := (h _ _ hm).2 _ _ hi
    cases Native.Template.Call.plan_eq_error.1 he with
    | badCallSite hnone =>
      rw [hsite] at hnone
      cases hnone
    | unknownMethod hsite' hnone =>
      rw [hsite] at hsite'
      cases hsite'
      rw [hcallee] at hnone
      cases hnone
    | arity | overflow | underflow => cases hopen
  | decode _ hm he =>
    rw [(h _ _ hm).1] at he
    cases he
  | missingReturn => cases hopen

/-! ### Methods -/

namespace Mnemonic

variable {words : List (List String)} {statements : List Statement}

theorem Says.ne_send {line : List String} {i : Insn} (h : Says line (.plain i)) (idx : UInt64) : i ≠ .send idx := by
  rintro rfl
  cases h with
  | bare h => cases h

/-- The instructions that calls stand for are numbered in order. -/
theorem Statement.send_mem_insns (h : List.Forall₂ Says words statements) {n : Nat} {idx : UInt64}
    (hmem : .send idx ∈ insns n statements) : ∃ k < (calls statements).length, idx = UInt64.ofNat (n + k) := by
  induction h generalizing n with
  | nil => cases hmem
  | @cons line statement words statements hsays _ ih =>
    cases statement with
    | plain i =>
      rw [insns, List.mem_cons] at hmem
      exact ih (hmem.resolve_left fun heq => hsays.ne_send idx heq.symm)
    | call callee argc =>
      rw [insns, List.mem_cons] at hmem
      rcases hmem with heq | hmem
      · cases heq
        exact ⟨0, Nat.succ_pos _, rfl⟩
      · obtain ⟨k, hk, rfl⟩ := ih hmem
        exact ⟨k + 1, Nat.succ_lt_succ hk, by rw [Nat.add_assoc, Nat.add_comm 1]⟩

end Mnemonic

/-- The stream of the method decodes to the instructions of the statements and to nothing else.  The calls among them
have the call sites of the method, in order. -/
structure Method.Spells (p : Program) (m : Method) (statements : List Statement) : Prop where
  decodes : m.sweep.error = none
  encodes : m.sweep.words = m.code.toList
  insns : m.sweep.insns.map Prod.snd = Statement.insns 0 statements
  sites : List.Forall₂
    (fun call site => (∃ callee, p.method? site.callee = some callee ∧ callee.name = call.1) ∧ site.argc = call.2)
    (Statement.calls statements) m.sites.toList

theorem Sweep.map_snd_located (insns : List Insn) : (located insns).map Prod.snd = insns := by
  induction insns with
  | nil => rfl
  | cons i insns ih =>
    rw [located_cons, List.map_cons, List.map_map]
    exact congrArg _ ih

theorem Draft.Spells.method {p : Program} {resolve : String → Option Nat} {d : Draft} {statements : List Statement}
    (h : d.Spells resolve statements) (name : String) (locals : Nat)
    (hp : ∀ callee id, resolve callee = some id → ∃ m, p.method? id = some m ∧ m.name = callee) :
    (d.method name locals).Spells p statements := by
  have hcode : d.code = ((Statement.insns 0 statements).flatMap Insn.encode).toArray := by
    rw [← h.code, Array.toArray_toList]
  have hsweep : (d.method name locals).sweep = ⟨Sweep.located (Statement.insns 0 statements), none⟩ := by
    rw [Method.sweep, Draft.method, hcode, Sweep.ofCode_encode]
  refine ⟨by rw [hsweep], ?_, by rw [hsweep, Sweep.map_snd_located], ?_⟩
  · have hfound : (d.method name locals).sweep.Found d.code 0 := Sweep.ofCodeFrom_found _ _
    exact hfound.error_eq_none.1 (by rw [hsweep])
  · refine h.sites.imp ?_
    rintro call site ⟨hcallee, hargc⟩
    exact ⟨hp _ _ hcallee, hargc⟩

/-- Every `send` of a method that was written in lines has its call site. -/
theorem Method.Spells.site {p : Program} {m : Method} {words : List (List String)} {statements : List Statement}
    (h : m.Spells p statements) (hw : List.Forall₂ Says words statements) {pc : Nat} {idx : UInt64}
    (hi : (pc, .send idx) ∈ m.sweep.insns) :
    ∃ site callee, m.site? idx = some site ∧ p.method? site.callee = some callee := by
  have hmem : .send idx ∈ Statement.insns 0 statements := by
    rw [← h.insns]
    exact List.mem_map_of_mem hi
  obtain ⟨k, hk, rfl⟩ := Statement.send_mem_insns hw hmem
  have hlen : m.sites.size = (Statement.calls statements).length := by
    rw [h.sites.length_eq, Array.length_toList]
  have hlt : (UInt64.ofNat (0 + k)).toNat < m.sites.size := by
    rw [hlen, UInt64.toNat_ofNat', Nat.zero_add]
    exact (Nat.mod_le _ _).trans_lt hk
  obtain ⟨callee, hcallee, _⟩ := (h.sites.get (hlen ▸ hlt) (by simpa using hlt)).1
  exact ⟨_, callee, Array.getElem?_eq_getElem hlt, hcallee⟩

/-! ### Names -/

theorem Program.method?_of_lookup {p : Program} {name : String} {id : Nat} (h : p.lookup name = some id) :
    ∃ m, p.method? id = some m ∧ m.name = name := by
  obtain ⟨hlt, hname, _⟩ := Array.findIdx?_eq_some_iff_getElem.1 h
  exact ⟨_, Array.getElem?_eq_getElem hlt, beq_iff_eq.1 hname⟩

namespace Source

variable {s : Source} {r : Runnable}

theorem repeatedName?_eq_none {seen names : List String} :
    repeatedName? seen names = none ↔ names.Nodup ∧ ∀ name ∈ names, name ∉ seen := by
  induction names generalizing seen with
  | nil => simp [repeatedName?]
  | cons name rest ih =>
    by_cases hseen : name ∈ seen
    · simp [repeatedName?, hseen]
    · simp only [repeatedName?, if_neg hseen, ih, List.nodup_cons, List.mem_cons, not_or, forall_eq_or_imp]
      constructor
      · rintro ⟨hrest, hother⟩
        exact ⟨⟨fun hmem => (hother name hmem).1 rfl, hrest⟩, hseen, fun n hn => (hother n hn).2⟩
      · rintro ⟨⟨hfirst, hrest⟩, _, hother⟩
        exact ⟨hrest, fun n hn => ⟨fun heq => hfirst (heq ▸ hn), hother n hn⟩⟩

/-- Names that are not repeated are found at their own place. -/
theorem resolve_name (hnames : (s.methods.map MethodSource.name).Nodup) {id : Nat} {d : MethodSource}
    (h : s.methods[id]? = some d) : s.resolve d.name = some id := by
  obtain ⟨hlt, rfl⟩ := List.getElem?_eq_some_iff.1 h
  refine List.findIdx?_eq_some_iff_getElem.2 ⟨hlt, beq_self_eq_true _, ?_⟩
  intro j hj heq
  rw [List.Nodup, List.pairwise_map, List.pairwise_iff_getElem] at hnames
  exact hnames j id (hj.trans hlt) hlt hj (beq_iff_eq.1 heq)

/-- Methods of the same names are found at the same places. -/
theorem lookup_eq_resolve {methods : List Method} (h : methods.map Method.name = s.methods.map MethodSource.name)
    (name : String) : Program.lookup ⟨methods.toArray⟩ name = s.resolve name := by
  have hmap := congrArg (List.findIdx? fun n => n == name) h
  simpa [Program.lookup, resolve, List.findIdx?_map, Function.comp_def] using hmap

/-! ### The program of a file -/

/-- The method of the program for a definition of the file: it has its name and its locals, is found by its name, and
spells what the lines say. -/
structure Defines (p : Program) (id : Nat) (d : MethodSource) (m : Method) : Prop where
  method : p.method? id = some m
  name : m.name = d.name
  locals : m.locals = d.locals
  lookup : p.lookup d.name = some id
  body : ∃ statements, List.Forall₂ Says (bodyWords d.body) statements ∧ m.Spells p statements

/-- The program has what the file says: its methods and no others, and how to enter it. -/
structure Describes (s : Source) (r : Runnable) : Prop where
  names : (s.methods.map MethodSource.name).Nodup
  size : r.program.size = s.methods.length
  methods : ∀ id d, s.methods[id]? = some d → ∃ m, Defines r.program id d m
  entry : ∃ m, r.program.method? r.entry = some m ∧ m.name = s.entry
  receiver : r.receiver.toInt? = s.receiver.map Int64.toInt ∧ (s.receiver = none → r.receiver = .nil)
  args : r.args.map Value.toInt? = s.args.map fun n => some n.toInt

theorem Describes.closed (h : s.Describes r) : r.program.Closed := by
  intro id m hm
  obtain ⟨hlt, _⟩ := Array.getElem?_eq_some_iff.1 hm
  have hid : id < s.methods.length := h.size ▸ hlt
  obtain ⟨m', hdef⟩ := h.methods id _ (List.getElem?_eq_getElem hid)
  obtain rfl : m' = m := Option.some.inj (hdef.method.symm.trans hm)
  obtain ⟨statements, hsays, hspells⟩ := hdef.body
  exact ⟨hspells.decodes, fun pc idx hi => hspells.site hsays hi⟩

theorem fixnum_eq_ok {n : Int64} {v : Value} (h : fixnum n = .ok v) : v.toInt? = some n.toInt := by
  unfold fixnum at h
  split at h
  · rename_i v' hv
    cases h
    exact Value.toInt?_of_ofInt? hv
  · cases h

theorem receiverValue_eq_ok {v : Value} (h : s.receiverValue = .ok v) :
    v.toInt? = s.receiver.map Int64.toInt ∧ (s.receiver = none → v = .nil) := by
  unfold receiverValue at h
  split at h
  · rename_i n hn
    rw [hn]
    exact ⟨fixnum_eq_ok h, by simp⟩
  · rename_i hn
    cases h
    rw [hn]
    exact ⟨rfl, fun _ => rfl⟩

theorem method_name {d : MethodSource} {m : Method} (h : s.method d = .ok m) : m.name = d.name := by
  obtain ⟨_, _, rfl⟩ := map_eq_ok h
  rfl

/-- One definition of the file.  Its calls may use all names that are resolved. -/
theorem method_spells {p : Program} {d : MethodSource} {m : Method} (h : s.method d = .ok m)
    (hp : ∀ callee id, s.resolve callee = some id → ∃ m, p.method? id = some m ∧ m.name = callee) :
    m.name = d.name ∧ m.locals = d.locals ∧
      ∃ statements, List.Forall₂ Says (bodyWords d.body) statements ∧ m.Spells p statements := by
  obtain ⟨draft, hdraft, rfl⟩ := map_eq_ok h
  obtain ⟨statements, hsays, hspells⟩ := draft_spells Draft.Spells.empty hdraft
  exact ⟨rfl, rfl, statements, hsays, hspells.method d.name d.locals hp⟩

/-- What is done for a file that is accepted. -/
theorem build_eq_ok (h : s.build = .ok r) :
    (s.methods.map MethodSource.name).Nodup ∧ s.resolve s.entry = some r.entry ∧ s.receiverValue = .ok r.receiver ∧
      s.args.mapM fixnum = .ok r.args ∧
      ∃ methods, s.methods.mapM s.method = .ok methods ∧ r.program = ⟨methods.toArray⟩ := by
  unfold build at h
  split at h
  · cases h
  rename_i hnames
  obtain ⟨methods, hmethods, h⟩ := bind_eq_ok h
  split at h
  · cases h
  rename_i entry hentry
  obtain ⟨receiver, hreceiver, h⟩ := bind_eq_ok h
  obtain ⟨args, hargs, h⟩ := bind_eq_ok h
  cases h
  exact ⟨(repeatedName?_eq_none.1 hnames).1, hentry, hreceiver, hargs, methods, hmethods, rfl⟩

/-- Each definition of a file that is accepted has been read. -/
theorem build_method (h : s.build = .ok r) {id : Nat} {d : MethodSource} (hd : s.methods[id]? = some d) :
    ∃ m, s.method d = .ok m ∧ r.program.method? id = some m := by
  obtain ⟨_, _, _, _, methods, hmethods, hprogram⟩ := build_eq_ok h
  obtain ⟨hlt, rfl⟩ := List.getElem?_eq_some_iff.1 hd
  have hread := mapM_eq_ok hmethods
  have hlt' : id < methods.length := hread.length_eq ▸ hlt
  rw [hprogram]
  exact ⟨methods[id], hread.get hlt hlt', List.getElem?_toArray.trans (List.getElem?_eq_getElem hlt')⟩

theorem build_describes (h : s.build = .ok r) : s.Describes r := by
  obtain ⟨hnodup, hentry, hreceiver, hargs, methods, hmethods, hprogram⟩ := build_eq_ok h
  have hlookup : ∀ name, r.program.lookup name = s.resolve name := by
    rw [hprogram]
    exact lookup_eq_resolve (map_of_mapM hmethods fun _ _ => method_name)
  have hresolved : ∀ callee id, s.resolve callee = some id →
      ∃ m, r.program.method? id = some m ∧ m.name = callee := by
    intro callee id hid
    exact Program.method?_of_lookup ((hlookup callee).trans hid)
  refine ⟨hnodup, ?_, ?_, hresolved _ _ hentry, receiverValue_eq_ok hreceiver, ?_⟩
  · rw [hprogram]
    exact (mapM_eq_ok hmethods).length_eq.symm
  · intro id d hd
    obtain ⟨m, hm, hid⟩ := build_method h hd
    obtain ⟨hname, hlocals, hbody⟩ := method_spells hm hresolved
    exact ⟨m, hid, hname, hlocals, (hlookup _).trans (resolve_name hnodup hd), hbody⟩
  · exact map_of_mapM hargs fun _ _ => fixnum_eq_ok

/-- What is wrong with a body is told with the name of its method. -/
theorem draft_eq_error {resolve : String → Option Nat} {d : MethodSource} {line : Nat} {draft₀ : Draft}
    {lines : List String} {e : ProgramError} (h : draft resolve d line draft₀ lines = .error e) :
    ∃ k e', e = .body d.name k e' := by
  induction lines generalizing draft₀ line with
  | nil => cases h
  | cons text rest ih =>
    simp only [draft] at h
    split at h
    · cases h
      exact ⟨line, _, rfl⟩
    · exact ih h

theorem fixnum_eq_error {n : Int64} {e : ProgramError} (h : fixnum n = .error e) : e = .fixnumRange n := by
  unfold fixnum at h
  split at h
  · cases h
  · exact (Except.error.inj h).symm

/-- A line for which a file is refused is one of the method that is named. -/
theorem build_eq_error_body {name : String} {k : Nat} {e : LineError} (h : s.build = .error (.body name k e)) :
    (s.methods.map MethodSource.name).Nodup ∧
      ∃ d ∈ s.methods, d.name = name ∧ s.method d = .error (.body name k e) := by
  unfold build at h
  split at h
  · cases h
  rename_i hnames
  refine ⟨(repeatedName?_eq_none.1 hnames).1, ?_⟩
  rcases bind_eq_error h with hmethods | ⟨methods, _, h⟩
  · obtain ⟨d, hd, hmethod⟩ := mapM_eq_error hmethods
    obtain ⟨k', e', heq⟩ := draft_eq_error (map_eq_error.1 hmethod)
    cases heq
    exact ⟨d, hd, rfl, hmethod⟩
  split at h
  · cases h
  rcases bind_eq_error h with hreceiver | ⟨receiver, _, h⟩
  · unfold receiverValue at hreceiver
    split at hreceiver
    · cases fixnum_eq_error hreceiver
    · cases hreceiver
  rcases bind_eq_error h with hargs | ⟨args, _, h⟩
  · obtain ⟨n, _, hn⟩ := mapM_eq_error hargs
    cases fixnum_eq_error hn
  · cases h

/-- A program file that is accepted gives the program that it describes.  Whatever compiler is asked for one of its
methods, and whatever entries it has already, it never meets a word that is no instruction, or a call that leads out of
the program. -/
theorem build_describes_closed (h : s.build = .ok r) :
    s.Describes r ∧ ∀ (j : Native.Jit) (entries : Native.Entries) (id : Nat), id < r.program.size →
      ∀ e, (j.compile r.program entries id).result = .error e → ¬e.OfOpenProgram := by
  have hdescribes := build_describes h
  refine ⟨hdescribes, ?_⟩
  intro j entries id hid e he
  rw [(j.compile_eq r.program entries id).1] at he
  exact hdescribes.closed.refused hid (Native.Compiler.compile_refused _ he)

/-- The entry calls a method that is defined after it. -/
def forwardCall : Source where
  entry := "main"
  receiver := none
  args := [-7]
  methods := [
    ⟨"main", 1, ["putself", "getlocal 1", "", "send add2 1", "leave"]⟩,
    ⟨"add2", 1, ["getlocal 1", "putobject 2", "opt_plus", "leave"]⟩]

/-- Its program. -/
def forwardRunnable : Runnable where
  program := ⟨#[
    ⟨"main", 1, ([.putSelf, .getLocal 1, .send 0, .leave].flatMap Insn.encode).toArray, #[⟨1, 1⟩]⟩,
    ⟨"add2", 1, ([.getLocal 1, .putObject (.ofInt 2), .plus, .leave].flatMap Insn.encode).toArray, #[]⟩]⟩
  entry := 0
  receiver := .nil
  args := [.ofInt (-7)]

theorem build_describes_closed_forwardCall :
    forwardCall.build = .ok forwardRunnable ∧ forwardCall.Describes forwardRunnable ∧
      0 < forwardRunnable.program.size ∧ ∀ (j : Native.Jit) (entries : Native.Entries) (e : Native.Error),
        (j.compile forwardRunnable.program entries 0).result = .error e → ¬e.OfOpenProgram := by
  have hbuild : forwardCall.build = .ok forwardRunnable := by cbv
  obtain ⟨hdescribes, hclosed⟩ := build_describes_closed hbuild
  exact ⟨hbuild, hdescribes, Nat.succ_pos 1, fun j entries e => hclosed j entries 0 (Nat.succ_pos 1) e⟩

end Source

end StackMachine
