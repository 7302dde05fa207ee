import StackMachine.Native.Notice
import StackMachine.Native.Template

/-!
# Compilation

Compiling a method places its code in a code block and installs the address as the method's entry.  A callee must be in
place before the call to it is generated, so callees are compiled first, depth first; a method that is still being
compiled cannot be called.

* `Entries` holds the entry of each compiled method of a program.  The first entry installed stays.
* `generate` folds the templates over a method's linear sweep, given a way to obtain the entry of a callee.
* `fresh` compiles a method whether or not it has an entry; `compile` only if it has none.

The state is returned with errors too: callees that were compiled before the failure stay compiled.
-/

namespace StackMachine.Native

open X86 (Assembly)

structure Entries where
  /-- Newest first. -/
  installed : List (Nat × CodePtr)
deriving DecidableEq, Repr

namespace Entries

def empty : Entries := ⟨[]⟩

def get? (es : Entries) (id : Nat) : Option CodePtr := es.installed.lookup id

/-- The entry that the method has afterwards, and the table. -/
def install (es : Entries) (id : Nat) (entry : CodePtr) : CodePtr × Entries :=
  match es.get? id with
  | some first => (first, es)
  | none => (entry, ⟨(id, entry) :: es.installed⟩)

end Entries

namespace Compiler

structure State where
  block : CodeBlock
  entries : Entries
  notices : List Notice
deriving DecidableEq, Repr

namespace State

def note (s : State) (n : Notice) : State := { s with notices := s.notices ++ [n] }

end State

/-- A step of compilation: its result, or why there is none, and the state after it. -/
abbrev Step (α : Type) := State → Except Error α × State

/-! ### Generating code -/

def generateInsn (resolve : Nat → Step CodePtr) (p : Program) (m : Method) (pc height : Nat) (i : Insn) :
    Step Template.Emitted := fun s =>
  match i with
  | .send idx =>
    match Template.Call.plan p m pc height idx with
    | .error e => (.error e, s)
    | .ok call =>
      match resolve call.callee s with
      | (.error e, s) => (.error e, s)
      | (.ok entry, s) => (.ok ⟨call.code entry, height - call.args.length⟩, s)
  | i => (Template.emit m pc height i, s)

def generateInsns (resolve : Nat → Step CodePtr) (p : Program) (m : Method) :
    List (Nat × Insn) → (height : Nat) → Step Assembly
  | [], _, s => (.ok [], s)
  | (pc, i) :: rest, height, s =>
    match generateInsn resolve p m pc height i s with
    | (.error e, s) => (.error e, s)
    | (.ok emitted, s) =>
      match generateInsns resolve p m rest emitted.height s with
      | (.error e, s) => (.error e, s)
      | (.ok more, s) => (.ok (emitted.code ++ more), s)

/-- The code of a method, whose stream must decode to its end and end with `leave`. -/
def generate (resolve : Nat → Step CodePtr) (p : Program) (m : Method) : Step Assembly := fun s =>
  let sweep := m.sweep
  match generateInsns resolve p m sweep.insns 0 s with
  | (.error e, s) => (.error e, s)
  | (.ok code, s) =>
    match sweep.error with
    | some e => (.error (.decode m.name e), s)
    | none =>
      match sweep.insns.getLast? with
      | some (_, .leave) => (.ok code, s)
      | _ => (.error (.missingReturn m.name), s)

/-! ### Placing code -/

/-- An entry can be called only from code in the same block. -/
def owned (b : CodeBlock) (m : Method) (entry : CodePtr) : Except Error CodePtr :=
  if b.contains entry then .ok entry else .error (.foreignEntry m.name)

/-- Places a method's code and installs it; the result is the installed entry, which may be an older one. -/
def finish (id : Nat) (m : Method) (code : Assembly) : Step CodePtr := fun s =>
  match s.block.place code with
  | (.error e, block) => (.error e, { s with block := block })
  | (.ok placement, block) =>
    let (entry, entries) := s.entries.install id placement.entry
    let s : State := { s with block := block, entries := entries }
    let s := s.note (.placed placement block.used block.capacity)
    let s := s.note (.compiled m.name code.length placement.bytes.length placement.entry)
    (owned block m entry, s)

/-- The entry of a method, obtained from `fresh` when it has none. -/
def cached (fresh : Nat → Step CodePtr) (p : Program) (id : Nat) : Step CodePtr := fun s =>
  match p.method? id with
  | none => (.error (.unknownMethod id), s)
  | some m =>
    match s.entries.get? id with
    | some entry => (owned s.block m entry, s)
    | none => fresh id s

/-- Name of the method whose compilation led to the current request. -/
def callerName (p : Program) (active : List Nat) : String :=
  ((active.head?.bind p.method?).map Method.name).getD "?"

/-- Compiles a method for the chain `active` of methods being compiled, innermost first, when at most `left` further
methods may join the chain. -/
def fresh (p : Program) (maxDepth left : Nat) (active : List Nat) (id : Nat) : Step CodePtr := fun s =>
  match p.method? id with
  | none => (.error (.unknownMethod id), s)
  | some m =>
    if id ∈ active then (.error (.recursiveCall (callerName p active) m.name), s)
    else
      match left with
      | 0 => (.error (.depthExceeded maxDepth), s)
      | left + 1 =>
        match generate (cached (fresh p maxDepth left (id :: active)) p) p m s with
        | (.error e, s) => (.error e, s)
        | (.ok code, s) => finish id m code s

def compile (p : Program) (maxDepth id : Nat) : Step CodePtr := cached (fresh p maxDepth maxDepth []) p id

def recompile (p : Program) (maxDepth id : Nat) : Step CodePtr := fresh p maxDepth maxDepth [] id

end Compiler

end StackMachine.Native
