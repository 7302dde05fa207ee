import Mathlib
import StackMachine.Program.Basic

/-!
# Word evaluation

What bytecode means when no tag is looked at.  A method is evaluated in the order of its stream up to the first
`leave`: arithmetic works on raw words, and a `send` is the evaluation of its callee on the receiver and the arguments.
Only the instructions that can be compiled have a meaning, and the arguments together with the receiver must be
countable in a word.

`call` bounds the nesting of calls, which is what makes it a function.  A value that it gives for some bound it gives
for every larger one (`call_mono`), so the bound does not matter.
-/

namespace StackMachine.Words

/-- The local with an index, which counts from the end of the argument list. -/
def local? (args : List Value) (idx : UInt64) : Option Value :=
  if 1 ≤ idx.toNat ∧ idx.toNat ≤ args.length then args[args.length - idx.toNat]? else none

/-- What an instruction other than a call and a return does to the operand stack, whose top is first. -/
def effect (self : Value) (args : List Value) (i : Insn) (stack : List Value) : Option (List Value) :=
  match i, stack with
  | .nop, stack => some stack
  | .getLocal idx, stack => (local? args idx).map (· :: stack)
  | .putNil, stack => some (.nil :: stack)
  | .putSelf, stack => some (self :: stack)
  | .putObject v, stack => some (v :: stack)
  | .putZero, stack => some (.ofInt 0 :: stack)
  | .putOne, stack => some (.ofInt 1 :: stack)
  | .dup, v :: stack => some (v :: v :: stack)
  | .pop, _ :: stack => some stack
  | .plus, y :: x :: stack => some (x.add y :: stack)
  | .minus, y :: x :: stack => some (x.sub y :: stack)
  | .less, y :: x :: stack => some (x.less y :: stack)
  | _, _ => none

/-- Evaluates instructions up to the first `leave`, given the meaning of calls. -/
def run (call : Nat → Value → List Value → Option Value) (m : Method) (self : Value) (args : List Value) :
    List (Nat × Insn) → List Value → Option Value
  | [], _ => none
  | (_, i) :: rest, stack =>
    match i with
    | .leave => stack.head?
    | .send idx =>
      match m.site? idx with
      | none => none
      | some site =>
        if site.argc.toNat + 1 = UInt64.size then none
        else
          match stack.drop site.argc.toNat with
          | [] => none
          | receiver :: below =>
            match call site.callee receiver (stack.take site.argc.toNat).reverse with
            | none => none
            | some v => run call m self args rest (v :: below)
    | i =>
      match effect self args i stack with
      | none => none
      | some stack => run call m self args rest stack

/-- The value of a call in which at most `depth` calls are nested, this one counted. -/
def call (p : Program) : (depth : Nat) → Nat → Value → List Value → Option Value
  | 0, _, _, _ => none
  | depth + 1, id, self, args =>
    match p.method? id with
    | none => none
    | some m => if args.length = m.locals then run (call p depth) m self args m.sweep.insns [] else none

/-! ### Single instructions -/

section

variable {eval : Nat → Value → List Value → Option Value} {m : Method} {self v : Value} {args : List Value} {pc : Nat}
  {rest : List (Nat × Insn)} {stack stack' : List Value}

theorem run_leave : run eval m self args ((pc, .leave) :: rest) (v :: stack) = some v := rfl

theorem run_send {idx : UInt64} {site : CallSite} {receiver : Value} {params : List Value}
    (hs : m.site? idx = some site) (hn : site.argc.toNat + 1 ≠ UInt64.size) (hl : params.length = site.argc.toNat)
    (hc : eval site.callee receiver params = some v) :
    run eval m self args ((pc, .send idx) :: rest) (params.reverse ++ receiver :: stack) =
      run eval m self args rest (v :: stack) := by
  have hl' : params.reverse.length = site.argc.toNat := by rw [List.length_reverse, hl]
  simp only [run, hs, if_neg hn, List.drop_left' hl', List.take_left' hl', List.reverse_reverse, hc]

theorem run_effect {i : Insn} (h : effect self args i stack = some stack') :
    run eval m self args ((pc, i) :: rest) stack = run eval m self args rest stack' := by
  cases i with
  | leave => exact nomatch (show none = some stack' from h)
  | send idx => exact nomatch (show none = some stack' from h)
  | _ => simp only [run, h]

/-- What evaluation has done when it gives a value: a return, a call or an effect comes first. -/
theorem run_cases {i : Insn} (h : run eval m self args ((pc, i) :: rest) stack = some v) :
    (i = .leave ∧ stack.head? = some v) ∨
      (∃ idx site receiver below w, i = .send idx ∧ m.site? idx = some site ∧ site.argc.toNat + 1 ≠ UInt64.size ∧
        stack.drop site.argc.toNat = receiver :: below ∧
        eval site.callee receiver (stack.take site.argc.toNat).reverse = some w ∧
        run eval m self args rest (w :: below) = some v) ∨
      ∃ stack', effect self args i stack = some stack' ∧ run eval m self args rest stack' = some v := by
  unfold run at h
  split at h
  · exact .inl ⟨rfl, h⟩
  · rename_i idx
    split at h
    · cases h
    rename_i site hsite
    split at h
    · cases h
    rename_i hcount
    split at h
    · cases h
    rename_i receiver below hdrop
    split at h
    · cases h
    rename_i w hw
    exact .inr (.inl ⟨idx, site, receiver, below, w, rfl, hsite, hcount, hdrop, hw, h⟩)
  · split at h
    · cases h
    rename_i stack' heff
    exact .inr (.inr ⟨stack', heff, h⟩)

end

/-! ### The bound on nesting -/

private theorem run_mono {eval eval' : Nat → Value → List Value → Option Value}
    (h : ∀ id self args v, eval id self args = some v → eval' id self args = some v) (m : Method) (self : Value)
    (args : List Value) {insns : List (Nat × Insn)} {stack : List Value} {v : Value}
    (hr : run eval m self args insns stack = some v) : run eval' m self args insns stack = some v := by
  induction insns generalizing stack with
  | nil => simp [run] at hr
  | cons head rest ih =>
    obtain ⟨pc, i⟩ := head
    rcases run_cases hr with ⟨rfl, hv⟩ | ⟨idx, site, receiver, below, w, rfl, hsite, hcount, hdrop, hw, hrest⟩ |
      ⟨stack', heff, hrest⟩
    · exact hv
    · simp only [run, hsite, if_neg hcount, hdrop, h _ _ _ _ hw, ih hrest]
    · rw [run_effect heff, ih hrest]

theorem call_succ {p : Program} {depth id : Nat} {self v : Value} {args : List Value}
    (h : call p depth id self args = some v) : call p (depth + 1) id self args = some v := by
  induction depth generalizing id self args v with
  | zero => simp [call] at h
  | succ depth ih =>
    unfold call at h ⊢
    split at h
    · simp at h
    · split at h
      · rename_i ha
        rw [if_pos ha]
        exact run_mono (fun _ _ _ _ => ih) _ _ _ h
      · simp at h

/-- A larger bound on nesting does not change a value. -/
theorem call_mono {p : Program} {depth depth' id : Nat} {self v : Value} {args : List Value} (hd : depth ≤ depth')
    (h : call p depth id self args = some v) : call p depth' id self args = some v := by
  induction hd with
  | refl => exact h
  | step _ ih => exact call_succ ih

end StackMachine.Words
