import StackMachine.Native.Compile
import StackMachine.Native.Machine

/-!
# Native execution

A `Jit` owns a code block whose first placement is the trampoline: it enters generated code with the address of the
execution context in `rdi`, that of the current frame in `rsi` and the code's own in `rdx`.  `execute` compiles a
method if it has no entry yet and runs it on a frame stack of its own.
-/

namespace StackMachine.Native

open X86 (Assembly)

structure Jit where
  block : CodeBlock
  settings : Settings
  trampoline : CodePtr
deriving DecidableEq, Repr

/-- What a request leaves behind: its result, the compiler, the entries of the program's methods and the notices. -/
structure Done (α : Type) where
  result : Except Error α
  jit : Jit
  entries : Entries
  notices : List Notice

namespace Jit

def trampolineCode : Assembly :=
  [.push Template.context, .push Template.frame, .mov (.reg Template.context) (.reg .rdi),
    .mov (.reg Template.frame) (.reg .rsi), .call (.reg .rdx), .pop Template.frame, .pop Template.context, .ret]

/-- Maps the code block and places the trampoline. -/
def new (host : Host) (settings : Settings) : Except Error (Jit × List Notice) :=
  match CodeBlock.new host settings.bufferSize with
  | .error e => .error e
  | .ok block =>
    let block := { block with dump := if settings.dump then some settings.format else none }
    match block.place trampolineCode with
    | (.error e, _) => .error e
    | (.ok placement, block) =>
      let placed := Notice.placed placement block.used block.capacity
      let ready := if settings.trace then [Notice.ready block.capacity placement.entry] else []
      .ok (⟨block, settings, placement.entry⟩, placed :: ready)

/-- Runs a step of the compiler on the code block. -/
def runStep (j : Jit) (entries : Entries) (step : Compiler.Step CodePtr) : Done CodePtr :=
  let (result, s) := step ⟨j.block, entries, []⟩
  ⟨result, { j with block := s.block }, s.entries, s.notices⟩

def methodName (p : Program) (id : Nat) : String := ((p.method? id).map Method.name).getD "?"

def compile (j : Jit) (p : Program) (entries : Entries) (id : Nat) : Done CodePtr :=
  let done := j.runStep entries (Compiler.compile p j.settings.maxDepth id)
  let bytes := done.jit.block.used - j.block.used
  match done.result with
  | .ok entry =>
    if j.settings.trace && bytes != 0 then
      { done with notices := done.notices ++ [.requested (methodName p id) entry bytes done.jit.block.remaining] }
    else done
  | .error _ => done

/-- Places code for a method again; its entry stays the first one. -/
def recompile (j : Jit) (p : Program) (entries : Entries) (id : Nat) : Done CodePtr :=
  j.runStep entries (Compiler.recompile p j.settings.maxDepth id)

/-- The machine at the start of the trampoline, on a frame stack whose current frame is the entry call's. -/
def entryMachine (frames : FrameStack) (entry : CodePtr) : Machine :=
  let regs := Registers.zero
    |>.set .rdi (UInt64.ofNat Layout.contextBase)
    |>.set .rsi (Layout.frameAddr frames.current)
    |>.set .rdx entry.addr
  ⟨regs, false, [.returnAddress], frames⟩

/-- Enters compiled code.  Without recursion no chain of calls is longer than the method table. -/
def enter (b : CodeBlock) (p : Program) (m : Method) (id : Nat) (entry : CodePtr) (self : Value)
    (args : List Value) : Except Error Value :=
  let start := FrameStack.forDepth p.size args.length
  if !start.fits then .error (.overflow .capacity)
  else
    match start.push self args (UInt64.ofNat id) with
    | none => .error (.stackExhausted m.name)
    | some frames =>
      if !b.memory.isExecutable then .error (.crash m.name .protection)
      else
        match Machine.exec b.placed trampolineCode (entryMachine frames entry) with
        | .error cause => .error (.crash m.name cause)
        | .ok machine =>
          if machine.frames.current = start.root then .ok ⟨machine.regs.get Template.result⟩
          else .error (.frameMismatch m.name)

def execute (j : Jit) (p : Program) (entries : Entries) (id : Nat) (self : Value) (args : List Value) : Done Value :=
  match p.method? id with
  | none => ⟨.error (.unknownMethod id), j, entries, []⟩
  | some m =>
    if args.length ≠ m.locals then ⟨.error (.arity m.name m.locals args.length), j, entries, []⟩
    else
      let done := j.compile p entries id
      match done.result with
      | .error e => { done with result := .error e }
      | .ok entry =>
        match enter done.jit.block p m id entry self args with
        | .error e => { done with result := .error e }
        | .ok v =>
          let report := if j.settings.trace then [Notice.executed m.name v] else []
          { done with result := .ok v, notices := done.notices ++ report }

/-- The text of the disassembly dump for a request's notices. -/
def dumpText (j : Jit) (notices : List Notice) : String :=
  String.join (notices.map fun n =>
    match n with
    | .placed placement _ _ => j.block.dumpText placement
    | _ => "")

/-- The form used in diagnostics. -/
def inspect (j : Jit) : String :=
  "Jit \x7b code: " ++ j.block.inspect ++ ", config: " ++ j.settings.inspect ++ ", trampoline: "
    ++ j.trampoline.inspect ++ " \x7d"

end Jit

end StackMachine.Native
