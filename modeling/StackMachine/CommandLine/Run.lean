import StackMachine.CommandLine.Arguments
import StackMachine.CommandLine.LogFilter
import StackMachine.CommandLine.Outcome
import StackMachine.Interpreter.Run
import StackMachine.Native.Jit
import StackMachine.Program.Listing
import StackMachine.Program.Source
import StackMachine.Settings.Load

/-!
# Running a command

`execute` gives the outcome of a list of arguments.  Its surroundings are the files, the user's log filter and the host
that maps memory for code.

Every command reads the log filter before it looks at the program.

* `run` settles the settings before that, compiles the entry method and enters it; without native code it interprets.
  A method that cannot be compiled ends the run at once.
* `interp` interprets.
* `dump` lists the bytecode and can show the machine code of the entry method and of what it calls.
-/

namespace StackMachine.CommandLine

open Native (Host Notice Jit)

structure Surroundings where
  read : Reader
  logFilter : Option String
  host : Host

/-! ### Loading and interpreting -/

/-- Why there is no program to run. -/
inductive LoadError where
  | read (path : String) (error : ReadError)
  | program (error : ProgramError)
deriving DecidableEq, Repr

def LoadError.message : LoadError → String
  | .read path e => e.at path
  | .program e => e.message

def load (read : Reader) (path : String) : Except LoadError Runnable :=
  match read.text path with
  | .error e => .error (.read path e)
  | .ok text =>
    match Runnable.parse text with
    | .error e => .error (.program e)
    | .ok r => .ok r

def interpret (r : Runnable) : Except Fault Value :=
  (Interpreter.call r.program .default 0 r.entry r.receiver r.args).outcome

def faultOutcome (stderr : List Piece) : Fault → Outcome
  | .overflow kind => ⟨"", stderr ++ [.text (kind.message ++ "\n")], .broken⟩
  | f => .fail "" stderr f.message

/-- The outcome of interpreting, once `stderr` has been written. -/
def interpreted (stderr : List Piece) (r : Runnable) : Outcome :=
  match interpret r with
  | .ok v => .succeed (v.text ++ "\n") stderr
  | .error f => faultOutcome stderr f

/-! ### Native code -/

def shown (filter : LogFilter) (notices : List Notice) : List Piece :=
  (notices.filter filter.shows).map Piece.notice

/-- What native compilation writes to the error output: the notices that are shown, and the dump. -/
def reported (filter : LogFilter) (j : Jit) (notices : List Notice) : List Piece :=
  notices.flatMap fun n => .text (j.dumpText [n]) :: shown filter [n]

def nativeFailure (stdout : String) (stderr : List Piece) : Native.Error → Outcome
  | .overflow kind => ⟨stdout, stderr ++ [.text (kind.message ++ "\n")], .broken⟩
  | e => .fail stdout stderr e.message

/-- The outcome of a compilation that failed and may not. -/
def abandoned (filter : LogFilter) (stderr : List Piece) (name : String) : Native.Error → Outcome
  | .overflow kind => ⟨"", stderr ++ [.text (kind.message ++ "\n")], .broken⟩
  | e =>
    let message := "fatal: failed to compile `" ++ name ++ "`: " ++ e.message ++ "\n"
    ⟨"", stderr ++ shown filter [.failed name e] ++ [.text message], .aborted⟩

/-- Checks a result against the interpreter's. -/
def compared (stderr : List Piece) (r : Runnable) (v : Value) : Outcome :=
  match interpret r with
  | .error f => faultOutcome stderr f
  | .ok expected =>
    if expected = v then .succeed (v.text ++ "\n") stderr
    else
      .fail "" stderr ("result mismatch: jit returned " ++ v.text ++ ", interpreter returned " ++ expected.text)

def runNative (host : Host) (filter : LogFilter) (settings : Settings) (compare : Bool) (r : Runnable) : Outcome :=
  match Jit.new host settings with
  | .error e => nativeFailure "" [] e
  | .ok (j, notices) =>
    let stderr := reported filter j notices
    let compiled := j.compile r.program .empty r.entry
    let stderr := stderr ++ reported filter compiled.jit compiled.notices
    match compiled.result with
    | .error e => abandoned filter stderr (Jit.methodName r.program r.entry) e
    | .ok _ =>
      let done := compiled.jit.execute r.program compiled.entries r.entry r.receiver r.args
      let stderr := stderr ++ reported filter done.jit done.notices
      match done.result with
      | .error e => nativeFailure "" stderr e
      | .ok v => if compare then compared stderr r v else .succeed (v.text ++ "\n") stderr

/-! ### Commands -/

def runSettings (read : Reader) (o : RunOptions) : Except Settings.LoadError Settings := do
  let s ← match o.config with
    | some path => Settings.load read path
    | none => .ok .default
  match (o.apply s).validate with
  | .ok s => .ok s
  | .error e => .error (.invalid e)

/-- Goes on with the log filter and a program, which is loaded once there is a filter. -/
def prepared (w : Surroundings) (trace : Bool) (file : String) (next : LogFilter → Runnable → Outcome) : Outcome :=
  match LogFilter.choose? w.logFilter trace with
  | none => ⟨"", [.text "log filter: part of a character\n"], .broken⟩
  | some filter =>
    match load w.read file with
    | .error e => .fail "" [] e.message
    | .ok r => next filter r

def runProgram (host : Host) (settings : Settings) (compare : Bool) (filter : LogFilter) (r : Runnable) : Outcome :=
  match settings.mode with
  | .off => interpreted (if settings.trace then shown filter [.interpreting] else []) r
  | .on | .auto => runNative host filter settings compare r

/-- The listings of all methods. -/
def listings (p : Program) : String := String.join ((List.range p.size).filterMap p.listing)

def dumpNative (host : Host) (filter : LogFilter) (format : X86.DisasmFormat) (r : Runnable) : Outcome :=
  let listed := listings r.program
  match Jit.new host { Settings.default with dump := true, format := format } with
  | .error e => nativeFailure listed [] e
  | .ok (j, notices) =>
    let done := j.compile r.program .empty r.entry
    let notices := notices ++ done.notices
    let stdout := listed ++ done.jit.dumpText notices
    match done.result with
    | .error e => nativeFailure stdout (shown filter notices) e
    | .ok _ => .succeed stdout (shown filter notices)

def Command.outcome (w : Surroundings) : Command → Outcome
  | .run file options =>
    match runSettings w.read options with
    | .error e => .fail "" [] e.message
    | .ok settings => prepared w settings.trace file (runProgram w.host settings options.compare)
  | .interpret file => prepared w false file fun _ r => interpreted [] r
  | .dump file native format =>
    prepared w false file fun filter r =>
      if native then dumpNative w.host filter format r else .succeed (listings r.program) []

def usageText : String := String.join
  ["Usage:\n",
    "  run <FILE> [--config <FILE>] [--jit off|on|auto] [--dump-disasm] [--disasm-format text|json]\n",
    "      [--trace-jit] [--buffer-size <BYTES>] [--max-depth <N>] [--compare]\n",
    "  interp <FILE>\n",
    "  dump <FILE> [--native] [--disasm-format text|json]\n"]

def execute (w : Surroundings) (args : List String) : Outcome :=
  match Command.parse args with
  | .ok command => command.outcome w
  | .error .help => .succeed usageText []
  | .error .usage => ⟨"", [.text usageText], .usage⟩

end StackMachine.CommandLine
