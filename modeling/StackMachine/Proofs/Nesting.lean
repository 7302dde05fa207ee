import Mathlib
import StackMachine.Proofs.CompilerMoments

/-!
# Nested compilation

Compiling a method asks for its callees, they ask for theirs, and calls may lead in circles.  What cuts this short is
the chain of methods being compiled, together with the entries that are installed on the way.  This module follows the
chain through all moments of a compiler that serves one query after the other (`Moment.Occurs`).

* `Nested`: the chain has no method twice and only methods of the program; each of them calls the next; none has an
  entry, except for a first one that was to be compiled again; and there are at most as many as the limit allows and
  the program has.
* `Warranted`: an error that blames the chain is about calls that are there.
* `Moment.InOrder`: what every step preserves (`InOrder.step`).  `Stacked` says how each task on the chain came to be
  there.
* `chain_discipline`: in all moments the chain is nested, every query is answered with the chain that it found, and a
  compiler that has answered is as good as new.
-/

namespace StackMachine.Native.Compiler

/-! ### Chains -/

/-- A chain of methods being compiled, innermost first, in a moment of serving the query. -/
structure Nested (p : Program) (maxDepth : Nat) (q : Query) (s : State) (chain : List Nat) : Prop where
  first : ∀ id ∈ chain.getLast?, id = q.id
  nodup : chain.Nodup
  known : ∀ id ∈ chain, ∃ method, p.method? id = some method
  vacant : ∀ id ∈ chain, s.entries.get? id = none ∨ q = .recompile id ∧ chain.getLast? = some id
  linked : chain.IsChain fun inner outer => p.Calls outer inner
  length_le : chain.length ≤ min maxDepth p.size

/-- An error about the chain is due to the calls that lead from the method `root`: a circle of them, or more methods
one after the other than may be on the chain. -/
def Warranted (p : Program) (maxDepth root : Nat) : Error → Prop
  | .recursiveCall caller callee =>
    ∃ a b method method', p.method? a = some method ∧ method.name = caller ∧ p.method? b = some method' ∧
      method'.name = callee ∧ p.Reaches root b ∧ p.Reaches b a ∧ p.Calls a b
  | .depthExceeded limit =>
    limit = maxDepth ∧ ∃ ids : List Nat, ids.length = maxDepth + 1 ∧ ids.Nodup ∧ ids.getLast? = some root ∧
      (∀ id ∈ ids, ∃ method, p.method? id = some method) ∧ ids.IsChain fun inner outer => p.Calls outer inner
  | _ => True

namespace Moment

/-- A compiler without a chain is asked. -/
def opened (q : Query) (s : State) : Moment := ⟨[], [], s, .asked q⟩

/-- The moments in the life of a compiler, with the query that is being served.  When it has answered, it keeps the
chain that it has then; the state may have changed before the next query. -/
inductive Occurs (p : Program) (maxDepth : Nat) : Query → Moment → Prop where
  | new (q : Query) (s : State) : Occurs p maxDepth q (opened q s)
  | step {q : Query} {m m' : Moment} (h : Occurs p maxDepth q m) (hstep : m.step p maxDepth = some m') :
      Occurs p maxDepth q m'
  | next {q : Query} {m : Moment} (h : Occurs p maxDepth q m) (hidle : m.step p maxDepth = none) (q' : Query)
      (s : State) : Occurs p maxDepth q' { m with state := s, focus := .asked q' }

end Moment

/-! ### Tasks on the chain -/

variable {p : Program} {maxDepth id : Nat} {q : Query} {s s' : State} {t : Task} {tasks : List Task}

/-- The innermost task has come to a call of the method; the first method is that of the query. -/
def AskedBy (p : Program) (q : Query) : List Task → Nat → Prop
  | [], id => id = q.id
  | t :: _, id => p.Calls t.id id

/-- A task that came on top of the others. -/
structure Joined (p : Program) (q : Query) (s : State) (outer : List Task) (t : Task) : Prop where
  found : p.method? t.id = some t.method
  rest : t.rest ⊆ t.method.sweep.insns
  new : t.id ∉ outer.map Task.id
  asked : AskedBy p q outer t.id
  vacant : s.entries.get? t.id = none ∨ q = .recompile t.id ∧ outer = []

/-- The task goes on with its stream. -/
theorem Joined.proceed {outer : List Task} (h : Joined p q s outer t) {rest : List (Nat × Insn)} (hrest : rest ⊆ t.rest)
    (height : Nat) (code : X86.Assembly) : Joined p q s outer ⟨t.id, t.method, rest, height, code⟩ :=
  ⟨h.found, List.Subset.trans hrest h.rest, h.new, h.asked, h.vacant⟩

/-- Innermost first. -/
inductive Stacked (p : Program) (q : Query) (s : State) : List Task → Prop where
  | nil : Stacked p q s []
  | cons {t : Task} {outer : List Task} (joined : Joined p q s outer t) (rest : Stacked p q s outer) :
      Stacked p q s (t :: outer)

namespace Stacked

theorem nodup (h : Stacked p q s tasks) : (tasks.map Task.id).Nodup := by
  induction h with
  | nil => exact List.nodup_nil
  | cons joined _ ih => exact List.nodup_cons.2 ⟨joined.new, ih⟩

theorem known (h : Stacked p q s tasks) : ∀ id ∈ tasks.map Task.id, ∃ method, p.method? id = some method := by
  induction h with
  | nil => exact List.forall_mem_nil _
  | cons joined _ ih => exact List.forall_mem_cons.2 ⟨⟨_, joined.found⟩, ih⟩

/-- The list is linked also with a method that its first task calls. -/
theorem isChain_cons (h : Stacked p q s tasks) (ha : AskedBy p q tasks id) :
    (id :: tasks.map Task.id).IsChain fun inner outer => p.Calls outer inner := by
  induction h generalizing id with
  | nil => exact .singleton id
  | cons joined _ ih => exact List.isChain_cons_cons.2 ⟨ha, ih joined.asked⟩

theorem isChain (h : Stacked p q s tasks) :
    (tasks.map Task.id).IsChain fun inner outer => p.Calls outer inner := by
  cases h with
  | nil => exact .nil
  | cons joined rest => exact rest.isChain_cons joined.asked

/-- The first method to join was that of the query. -/
theorem getLast?_cons (h : Stacked p q s tasks) (ha : AskedBy p q tasks id) :
    (id :: tasks.map Task.id).getLast? = some q.id := by
  induction h generalizing id with
  | nil => exact congrArg some ha
  | cons joined _ ih => exact ih joined.asked

theorem first (h : Stacked p q s tasks) : ∀ id ∈ (tasks.map Task.id).getLast?, id = q.id := by
  cases h with
  | nil => simp
  | cons joined rest =>
    intro id hid
    rw [List.map_cons, rest.getLast?_cons joined.asked] at hid
    exact (Option.mem_some.1 hid).symm

theorem vacant (h : Stacked p q s tasks) : ∀ id ∈ tasks.map Task.id,
    s.entries.get? id = none ∨ q = .recompile id ∧ (tasks.map Task.id).getLast? = some id := by
  induction h with
  | nil => exact List.forall_mem_nil _
  | @cons t outer joined rest ih =>
    refine List.forall_mem_cons.2 ⟨?_, ?_⟩
    · rcases joined.vacant with hnone | ⟨hq, rfl⟩
      · exact .inl hnone
      · exact .inr ⟨hq, rfl⟩
    · intro id hid
      rcases ih id hid with hnone | ⟨rfl, _⟩
      · exact .inl hnone
      · exact .inr ⟨rfl, rest.getLast?_cons joined.asked⟩

/-- Calls lead from the method of the query to whatever is asked for. -/
theorem reaches_of_askedBy (h : Stacked p q s tasks) (ha : AskedBy p q tasks id) : p.Reaches q.id id := by
  induction h generalizing id with
  | nil =>
    cases ha
    exact .refl
  | cons joined _ ih => exact (ih joined.asked).tail ha

/-- Calls lead from each task to the first, and on to what that calls. -/
theorem exists_caller (h : Stacked p q s tasks) (ha : AskedBy p q tasks id) {a : Nat} (hmem : a ∈ tasks.map Task.id) :
    ∃ t outer, tasks = t :: outer ∧ p.Reaches a t.id ∧ p.Calls t.id id := by
  induction h generalizing id with
  | nil => cases hmem
  | @cons t outer joined _ ih =>
    refine ⟨t, outer, rfl, ?_, ha⟩
    rcases List.mem_cons.1 hmem with rfl | hmem
    · exact .refl
    · obtain ⟨t', _, _, hreaches, hcalls⟩ := ih joined.asked hmem
      exact hreaches.tail hcalls

/-- Only the entries of the methods on the chain matter. -/
theorem congr (h : Stacked p q s tasks)
    (hs : ∀ id ∈ tasks.map Task.id, s'.entries.get? id = s.entries.get? id) : Stacked p q s' tasks := by
  induction h with
  | nil => exact .nil
  | cons joined _ ih =>
    obtain ⟨ht, houter⟩ := List.forall_mem_cons.1 hs
    exact .cons { joined with vacant := ht ▸ joined.vacant } (ih houter)

end Stacked

/-- There are not more methods than the program has. -/
private theorem length_le_size {ids : List Nat} (hnodup : ids.Nodup)
    (hknown : ∀ id ∈ ids, ∃ method, p.method? id = some method) : ids.length ≤ p.size := by
  have hsub : ids ⊆ List.range p.size := by
    intro id hid
    obtain ⟨method, hm⟩ := hknown id hid
    exact List.mem_range.2 (Array.getElem?_eq_some_iff.1 hm).1
  have hle := (hnodup.subperm hsub).length_le
  rwa [List.length_range] at hle

theorem Stacked.nested (h : Stacked p q s tasks) (hshort : tasks.length ≤ maxDepth) :
    Nested p maxDepth q s (tasks.map Task.id) := by
  refine ⟨h.first, h.nodup, h.known, h.vacant, h.isChain, Nat.le_min.2 ⟨?_, length_le_size h.nodup h.known⟩⟩
  rwa [List.length_map]

/-! ### Errors that blame the chain -/

/-- A method that is asked for while it is on the chain calls itself, through others or at once. -/
theorem Stacked.warranted_recursiveCall (h : Stacked p q s tasks) (ha : AskedBy p q tasks id)
    (hmem : id ∈ tasks.map Task.id) {method : Method} (hm : p.method? id = some method) :
    Warranted p maxDepth q.id (.recursiveCall (callerName p (tasks.map Task.id)) method.name) := by
  have hroot := h.reaches_of_askedBy ha
  obtain ⟨t, outer, rfl, hreaches, hcalls⟩ := h.exists_caller ha hmem
  cases h with
  | cons joined =>
    have hname : t.method.name = callerName p ((t :: outer).map Task.id) := by
      simp only [callerName, List.map_cons, List.head?_cons, Option.bind_some, joined.found, Option.map_some,
        Option.getD_some]
    exact ⟨t.id, id, t.method, method, joined.found, hname, hm, rfl, hroot, hreaches, hcalls⟩

/-- A method that finds the chain full makes it longer than the limit. -/
theorem Stacked.warranted_depthExceeded (h : Stacked p q s tasks) (ha : AskedBy p q tasks id)
    (hfull : tasks.length = maxDepth) (hmem : id ∉ tasks.map Task.id) {method : Method}
    (hm : p.method? id = some method) : Warranted p maxDepth q.id (.depthExceeded maxDepth) := by
  refine ⟨rfl, id :: tasks.map Task.id, ?_, List.nodup_cons.2 ⟨hmem, h.nodup⟩, h.getLast?_cons ha,
    List.forall_mem_cons.2 ⟨⟨method, hm⟩, h.known⟩, h.isChain_cons ha⟩
  rw [List.length_cons, List.length_map, hfull]

section

variable {root : Nat} {method : Method} {e : Error}

private theorem warranted_owned {b : CodeBlock} {entry : CodePtr} (h : owned b method entry = .error e) :
    Warranted p maxDepth root e := by
  rw [owned_error h]
  trivial

private theorem warranted_judged {code : X86.Assembly} (h : judged method code = .error e) :
    Warranted p maxDepth root e := by
  rcases judged_error h with ⟨_, _, rfl⟩ | rfl <;> trivial

private theorem warranted_finish {code : X86.Assembly} (h : (finish id method code s).1 = .error e) :
    Warranted p maxDepth root e := by
  cases finish_failsOnly id method code s e h <;> trivial

private theorem warranted_emit {pc height : Nat} {i : Insn} (h : Template.emit method pc height i = .error e) :
    Warranted p maxDepth root e := by
  rcases Template.emit_error h with rfl | rfl | ⟨_, rfl⟩ | rfl <;> trivial

private theorem warranted_plan {pc height : Nat} {idx : UInt64}
    (h : Template.Call.plan p method pc height idx = .error e) : Warranted p maxDepth root e := by
  cases Template.Call.plan_eq_error.1 h <;> trivial

end

/-! ### What a step preserves -/

/-- A method that is finished installs no entry but its own. -/
private theorem get?_finish {a : Nat} (h : a ≠ id) (method : Method) (code : X86.Assembly) (s : State) :
    (finish id method code s).2.entries.get? a = s.entries.get? a := by
  unfold finish
  rcases s.block.place code with ⟨e | placement, block⟩
  · rfl
  · rcases s.entries.install_cases id placement.entry with ⟨first, _, heq⟩ | ⟨_, heq⟩
    · simp only [heq, State.note]
    · simp only [heq, State.note, Entries.get?_cons, if_neg h]

namespace Moment

variable {m m' : Moment} {waiting : List Waiting}

/-- The chain has the methods that wait and the one whose code is being generated, in the order in which they were asked
for. -/
inductive InOrder (p : Program) (maxDepth : Nat) (q : Query) : Moment → Prop where
  | compile {waiting : List Waiting} {s : State} {id : Nat} (stacked : Stacked p q s (waiting.map Waiting.task))
      (short : waiting.length ≤ maxDepth) (asked : AskedBy p q (waiting.map Waiting.task) id) :
      InOrder p maxDepth q ⟨(waiting.map Waiting.task).map Task.id, waiting, s, .asked (.compile id)⟩
  | recompile {waiting : List Waiting} {s : State} {id : Nat} (stacked : Stacked p q s (waiting.map Waiting.task))
      (short : waiting.length ≤ maxDepth) (asked : AskedBy p q (waiting.map Waiting.task) id)
      (vacant : s.entries.get? id = none ∨ q = .recompile id ∧ waiting.map Waiting.task = []) :
      InOrder p maxDepth q ⟨(waiting.map Waiting.task).map Task.id, waiting, s, .asked (.recompile id)⟩
  | task {waiting : List Waiting} {s : State} {t : Task} (stacked : Stacked p q s (t :: waiting.map Waiting.task))
      (short : waiting.length < maxDepth) :
      InOrder p maxDepth q ⟨t.id :: (waiting.map Waiting.task).map Task.id, waiting, s, .task t⟩
  | answer {waiting : List Waiting} {s : State} {r : Except Error CodePtr}
      (stacked : Stacked p q s (waiting.map Waiting.task)) (short : waiting.length ≤ maxDepth)
      (warranted : ∀ e, r = .error e → Warranted p maxDepth q.id e) :
      InOrder p maxDepth q ⟨(waiting.map Waiting.task).map Task.id, waiting, s, .answer r⟩

namespace InOrder

theorem nested (h : InOrder p maxDepth q m) : Nested p maxDepth q m.state m.chain := by
  cases h with
  | compile stacked short => exact stacked.nested (by rwa [List.length_map])
  | recompile stacked short => exact stacked.nested (by rwa [List.length_map])
  | task stacked short =>
    refine stacked.nested ?_
    rw [List.length_cons, List.length_map]
    exact short
  | answer stacked short => exact stacked.nested (by rwa [List.length_map])

theorem warranted (h : InOrder p maxDepth q m) {e : Error} (he : m.focus = .answer (.error e)) :
    Warranted p maxDepth q.id e := by
  cases h with
  | compile | recompile | task => cases he
  | answer _ _ warranted =>
    cases he
    exact warranted e rfl

private theorem error {s : State} (stacked : Stacked p q s (waiting.map Waiting.task))
    (short : waiting.length ≤ maxDepth) {e : Error} (he : Warranted p maxDepth q.id e) :
    InOrder p maxDepth q ⟨(waiting.map Waiting.task).map Task.id, waiting, s, .answer (.error e)⟩ := by
  refine .answer stacked short ?_
  intro e' he'
  cases he'
  exact he

private theorem take_compile (stacked : Stacked p q s (waiting.map Waiting.task)) (short : waiting.length ≤ maxDepth)
    (asked : AskedBy p q (waiting.map Waiting.task) id) :
    InOrder p maxDepth q
      (take p maxDepth ⟨(waiting.map Waiting.task).map Task.id, waiting, s, .asked (.compile id)⟩ (.compile id)) := by
  simp only [take]
  split
  · exact error (e := .unknownMethod id) stacked short trivial
  split
  · exact answer stacked short fun e he => warranted_owned he
  · rename_i hentry
    exact recompile stacked short asked (.inl hentry)

private theorem take_recompile (stacked : Stacked p q s (waiting.map Waiting.task)) (short : waiting.length ≤ maxDepth)
    (asked : AskedBy p q (waiting.map Waiting.task) id)
    (vacant : s.entries.get? id = none ∨ q = .recompile id ∧ waiting.map Waiting.task = []) :
    InOrder p maxDepth q
      (take p maxDepth ⟨(waiting.map Waiting.task).map Task.id, waiting, s, .asked (.recompile id)⟩
        (.recompile id)) := by
  simp only [take]
  split
  · exact error (e := .unknownMethod id) stacked short trivial
  rename_i method hm
  split
  · rename_i hmem
    exact error stacked short (stacked.warranted_recursiveCall asked hmem hm)
  rename_i hmem
  have hlength : ((waiting.map Waiting.task).map Task.id).length = waiting.length := by
    rw [List.length_map, List.length_map]
  split
  · rename_i hfull
    rw [hlength] at hfull
    have hcount : (waiting.map Waiting.task).length = maxDepth := by
      rw [List.length_map]
      exact le_antisymm short hfull
    exact error stacked short (stacked.warranted_depthExceeded asked hcount hmem hm)
  · rename_i hroom
    rw [hlength] at hroom
    have hjoined : Joined p q s (waiting.map Waiting.task) ⟨id, method, method.sweep.insns, 0, []⟩ :=
      ⟨hm, List.Subset.refl _, hmem, asked, vacant⟩
    exact task (.cons hjoined stacked) (Nat.lt_of_not_le hroom)

/-- The task gives up its place on the chain. -/
private theorem leave_error (stacked : Stacked p q s (t :: waiting.map Waiting.task))
    (short : waiting.length < maxDepth) {e : Error} (he : Warranted p maxDepth q.id e) (focus : Focus) :
    InOrder p maxDepth q
      (leave ⟨t.id :: (waiting.map Waiting.task).map Task.id, waiting, s, focus⟩ (.error e)) := by
  cases stacked with
  | cons _ rest => exact error rest short.le he

/-- The method is finished, and the entry it may have got is not that of a method on the chain. -/
private theorem finished (stacked : Stacked p q s (t :: waiting.map Waiting.task)) (short : waiting.length < maxDepth)
    (code : X86.Assembly) :
    InOrder p maxDepth q ⟨(waiting.map Waiting.task).map Task.id, waiting, (finish t.id t.method code s).2,
      .answer (finish t.id t.method code s).1⟩ := by
  cases stacked with
  | cons joined rest =>
    refine answer (rest.congr ?_) short.le fun e he => warranted_finish he
    intro a ha
    have hne : a ≠ t.id := by
      rintro rfl
      exact joined.new ha
    exact get?_finish hne t.method code s

private theorem advance (stacked : Stacked p q s (t :: waiting.map Waiting.task)) (short : waiting.length < maxDepth) :
    InOrder p maxDepth q
      (Moment.advance p ⟨t.id :: (waiting.map Waiting.task).map Task.id, waiting, s, .task t⟩ t) := by
  obtain ⟨joined, rest⟩ : Joined p q s (waiting.map Waiting.task) t ∧ Stacked p q s (waiting.map Waiting.task) := by
    cases stacked with
    | cons joined rest => exact ⟨joined, rest⟩
  unfold Moment.advance
  split
  · split
    · rename_i e he
      exact leave_error stacked short (warranted_judged he) _
    · exact finished stacked short _
  rename_i pc i insns hrest
  have hinsns : insns ⊆ t.rest := by
    rw [hrest]
    exact List.subset_cons_self _ _
  split
  · rename_i idx
    split
    · rename_i e he
      exact leave_error stacked short (warranted_plan he) _
    · rename_i call hplan
      have hsend : (pc, .send idx) ∈ t.method.sweep.insns := joined.rest (by rw [hrest]; exact List.mem_cons_self)
      have hstacked : Stacked p q s (⟨t.id, t.method, insns, t.height, t.code⟩ :: waiting.map Waiting.task) :=
        .cons (joined.proceed hinsns t.height t.code) rest
      exact @compile p maxDepth q (⟨⟨t.id, t.method, insns, t.height, t.code⟩, call⟩ :: waiting) s call.callee hstacked
        short (Template.Call.calls_of_plan joined.found hsend hplan)
  · split
    · rename_i e he
      exact leave_error stacked short (warranted_emit he) _
    · rename_i emitted _
      exact task (.cons (joined.proceed hinsns _ _) rest) short

private theorem resume {w : Waiting} (stacked : Stacked p q s ((w :: waiting).map Waiting.task))
    (short : (w :: waiting).length ≤ maxDepth) {r : Except Error CodePtr}
    (hr : ∀ e, r = .error e → Warranted p maxDepth q.id e) :
    InOrder p maxDepth q
      (Moment.resume ⟨((w :: waiting).map Waiting.task).map Task.id, w :: waiting, s, .answer r⟩ w waiting r) := by
  cases stacked with
  | cons joined rest =>
    have hshort : waiting.length < maxDepth := short
    cases r with
    | error e => exact error rest hshort.le (hr e rfl)
    | ok entry =>
      have hproceed := joined.proceed (List.Subset.refl _) (w.task.height - w.call.args.length)
        (w.task.code ++ w.call.code entry)
      exact task (.cons hproceed rest) hshort

theorem step (h : InOrder p maxDepth q m) (hstep : m.step p maxDepth = some m') : InOrder p maxDepth q m' := by
  cases h with
  | compile stacked short asked =>
    cases hstep
    exact take_compile stacked short asked
  | recompile stacked short asked vacant =>
    cases hstep
    exact take_recompile stacked short asked vacant
  | task stacked short =>
    cases hstep
    exact advance stacked short
  | @answer waiting s r stacked short warranted =>
    cases waiting with
    | nil => cases hstep
    | cons w waiting =>
      cases hstep
      exact resume stacked short warranted

/-- A query to a compiler without a chain. -/
theorem opened (p : Program) (maxDepth : Nat) (q : Query) (s : State) : InOrder p maxDepth q (opened q s) := by
  cases q with
  | compile id => exact @compile p maxDepth _ [] s id .nil (Nat.zero_le _) rfl
  | recompile id => exact @recompile p maxDepth _ [] s id .nil (Nat.zero_le _) rfl (.inr ⟨rfl, rfl⟩)

/-- When a query is answered and nobody waits, the chain is empty. -/
theorem reopened (h : InOrder p maxDepth q m) (hidle : m.step p maxDepth = none) (q' : Query) (s : State) :
    { m with state := s, focus := .asked q' } = Moment.opened q' s := by
  cases h with
  | compile | recompile | task => cases hidle
  | @answer waiting =>
    cases waiting with
    | nil => rfl
    | cons => cases hidle

end InOrder

/-! ### The life of a compiler -/

namespace Occurs

theorem inOrder (h : Occurs p maxDepth q m) : InOrder p maxDepth q m := by
  induction h with
  | new q s => exact .opened p maxDepth q s
  | step _ hstep ih => exact ih.step hstep
  | next _ hidle q' s ih =>
    rw [ih.reopened hidle q' s]
    exact .opened p maxDepth q' s

/-- Whatever a compiler was asked before, it serves a query like a new one. -/
theorem exists_opened (h : Occurs p maxDepth q m) : ∃ s, Runs p maxDepth (opened q s) m := by
  induction h with
  | new q s => exact ⟨s, .refl⟩
  | step _ hstep ih =>
    obtain ⟨s, hruns⟩ := ih
    exact ⟨s, hruns.tail hstep⟩
  | next h hidle q' s _ =>
    rw [h.inOrder.reopened hidle q' s]
    exact ⟨s, .refl⟩

theorem runs (h : Occurs p maxDepth q m) (hruns : Runs p maxDepth m m') : Occurs p maxDepth q m' := by
  induction hruns with
  | refl => exact h
  | tail _ hstep ih => exact ih.step hstep

theorem ends (h : Occurs p maxDepth q m) :
    ∃ last, Runs p maxDepth m last ∧ last.step p maxDepth = none := by
  obtain ⟨s, hruns⟩ := h.exists_opened
  exact ⟨_, hruns.halts (runs_query p maxDepth [] [] s q) rfl, rfl⟩

end Occurs

/-- What holds in a moment of serving the query. -/
structure Disciplined (p : Program) (maxDepth : Nat) (q : Query) (m : Moment) : Prop where
  nested : Nested p maxDepth q m.state m.chain
  /-- A query is answered with the chain that it found, and to those who wait for it. -/
  returns : ∀ q', m.focus = .asked q' →
    Runs p maxDepth m (answered m.chain m.waiting (q'.run p maxDepth m.chain m.state))
  ends : ∃ last, Runs p maxDepth m last ∧ last.step p maxDepth = none
  /-- A compiler that has answered is as good as new. -/
  reusable : m.step p maxDepth = none → ∀ q' s, { m with state := s, focus := .asked q' } = opened q' s
  warranted : ∀ e, m.focus = .answer (.error e) → Warranted p maxDepth q.id e

/-- For every program and every limit, queries run to the answers of `compile` and `recompile`; and in every moment of a
compiler that is asked again and again, the chain is nested, and it is left as it was found. -/
theorem chain_discipline (p : Program) (maxDepth : Nat) :
    (∀ id s, Runs p maxDepth (opened (.compile id) s) (answered [] [] (compile p maxDepth id s))) ∧
      (∀ id s, Runs p maxDepth (opened (.recompile id) s) (answered [] [] (recompile p maxDepth id s))) ∧
      ∀ q m, Occurs p maxDepth q m → m.Disciplined p maxDepth q := by
  refine ⟨?_, ?_, ?_⟩
  · intro id s
    exact runs_query p maxDepth [] [] s (.compile id)
  · intro id s
    exact runs_query p maxDepth [] [] s (.recompile id)
  · intro q m h
    have horder := h.inOrder
    refine ⟨horder.nested, ?_, h.ends, horder.reopened, fun e he => horder.warranted he⟩
    intro q' hfocus
    obtain ⟨chain, waiting, s, focus⟩ := m
    cases hfocus
    exact runs_query p maxDepth chain waiting s q'

/-- The moment after that many steps. -/
private def after (p : Program) (maxDepth : Nat) : Nat → Moment → Option Moment
  | 0, m => some m
  | n + 1, m => (m.step p maxDepth).bind (after p maxDepth n)

private theorem runs_after {n : Nat} {m m' : Moment} (h : m.after p maxDepth n = some m') :
    Runs p maxDepth m m' := by
  induction n generalizing m with
  | zero =>
    cases h
    exact .refl
  | succ n ih =>
    obtain ⟨next, hstep, h⟩ := Option.bind_eq_some_iff.1 h
    exact .head hstep (ih h)

/-- Two methods that call each other. -/
def loopProgram : Program :=
  ⟨#[(((Draft.empty.insn .putSelf).send ⟨1, 0⟩).insn .leave).method "even" 0,
    (((Draft.empty.insn .putSelf).send ⟨0, 0⟩).insn .leave).method "odd" 0]⟩

/-- A page without code, and no entries. -/
def emptyPage : State := ⟨⟨⟨0x10000, 4096, .readExec, [], []⟩, 0, [], none⟩, .empty, []⟩

/-- The first method is asked for while both are on the chain. -/
theorem chain_discipline_loopProgram :
    ∃ m last, Occurs loopProgram 8 (.compile 0) m ∧ m.chain = [1, 0] ∧ m.focus = .asked (.compile 0) ∧
      m.Disciplined loopProgram 8 (.compile 0) ∧ Runs loopProgram 8 m last ∧
      last.focus = .answer (.error (.recursiveCall "odd" "even")) ∧ last.Disciplined loopProgram 8 (.compile 0) := by
  obtain ⟨hcompile, _, hdisciplined⟩ := chain_discipline loopProgram 8
  have hinner : ((opened (.compile 0) emptyPage).after loopProgram 8 8).any
      (fun m => m.chain = [1, 0] ∧ m.focus = .asked (.compile 0)) = true := by decide +kernel
  obtain ⟨m, hm, hasked⟩ := (Option.any_eq_true ..).1 hinner
  obtain ⟨hchain, hfocus⟩ := of_decide_eq_true hasked
  have hruns := runs_after hm
  have hoccurs : Occurs loopProgram 8 (.compile 0) m := (Occurs.new _ emptyPage).runs hruns
  have hlast := hcompile 0 emptyPage
  have herror : (compile loopProgram 8 0 emptyPage).1 = .error (.recursiveCall "odd" "even") := by decide +kernel
  refine ⟨m, _, hoccurs, hchain, hfocus, hdisciplined _ m hoccurs, hruns.halts hlast rfl, ?_,
    hdisciplined _ _ ((Occurs.new _ emptyPage).runs hlast)⟩
  exact congrArg Focus.answer herror

end Moment

end StackMachine.Native.Compiler
