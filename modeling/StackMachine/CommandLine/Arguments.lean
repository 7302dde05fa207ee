import StackMachine.Settings

/-!
# Arguments

The words after the program's name choose a command and its options.

* A word `--name` is a flag or an option; an option's value is the next word or follows an equals sign.
* The word `--` ends the options: every word after it is an operand, as is a word without a leading hyphen and the lone
  hyphen.
* No flag, option or operand may be given twice, and the value of an option must be one that it can take.
-/

namespace StackMachine.CommandLine

open X86 (DisasmFormat)

/-- Why no command is run. -/
inductive Stop where
  /-- The words do not make a command. -/
  | usage
  /-- The words ask how to use the program. -/
  | help
deriving DecidableEq, Repr

inductive Word where
  | long (name : String) (value : Option String)
  | short (letters : List Char)
  | escape
  | operand (text : String)
deriving DecidableEq, Repr

def Word.ofChars : List Char → Word
  | ['-', '-'] => escape
  | '-' :: '-' :: cs =>
    let name := cs.takeWhile (· ≠ '=')
    long (String.ofList name) (if '=' ∈ cs then some (String.ofList (cs.drop (name.length + 1))) else none)
  | '-' :: c :: cs => short (c :: cs)
  | cs => operand (String.ofList cs)

/-- How the words of one command change what is known of it; `none` refuses a word. -/
structure Grammar (α : Type) where
  flag? : String → Option (α → Option α)
  option? : String → Option (String → α → Option α)
  operand : String → α → Option α

namespace Grammar

def accept : Option α → Except Stop α
  | some a => .ok a
  | none => .error .usage

/-- Reads a value that is a word of its own. -/
def nextValue (set : String → α → Option α) (a : α) (text : String) : Except Stop α :=
  match Word.ofChars text.toList with
  | .operand text => accept (set text a)
  | _ => .error .usage

def read (g : Grammar α) (a : α) : List String → Except Stop α
  | [] => .ok a
  | text :: rest =>
    match Word.ofChars text.toList with
    | .escape => rest.foldlM (fun a text => accept (g.operand text a)) a
    | .operand text => do g.read (← accept (g.operand text a)) rest
    | .short ('h' :: _) => .error .help
    | .short _ => .error .usage
    | .long "help" none => .error .help
    | .long name value =>
      match g.flag? name, g.option? name, value, rest with
      | some set, _, none, rest => do g.read (← accept (set a)) rest
      | none, some set, some value, rest => do g.read (← accept (set value a)) rest
      | none, some set, none, value :: rest => do g.read (← nextValue set a value) rest
      | _, _, _, _ => .error .usage

end Grammar

/-! ### Options -/

/-- Fills a place that is still empty with a value that can be read. -/
def once (read : String → Option β) (current : Option β) (text : String) : Option (Option β) :=
  match current with
  | some _ => none
  | none => (read text).map some

/-- Raises a flag that is not raised yet. -/
def raise (current : Bool) : Option Bool := if current then none else some true

def path? (text : String) : Option String := if text.isEmpty then none else some text

def size? (text : String) : Option Nat := (Decimal.uint64? text.toList).map UInt64.toNat

structure RunOptions where
  file : Option String
  config : Option String
  mode : Option JitMode
  dump : Bool
  format : Option DisasmFormat
  trace : Bool
  bufferSize : Option Nat
  maxDepth : Option Nat
  compare : Bool
deriving DecidableEq, Repr

namespace RunOptions

def empty : RunOptions := ⟨none, none, none, false, none, false, none, none, false⟩

def flag? : String → Option (RunOptions → Option RunOptions)
  | "dump-disasm" => some fun o => (raise o.dump).map fun b => { o with dump := b }
  | "trace-jit" => some fun o => (raise o.trace).map fun b => { o with trace := b }
  | "compare" => some fun o => (raise o.compare).map fun b => { o with compare := b }
  | _ => none

def option? : String → Option (String → RunOptions → Option RunOptions)
  | "config" => some fun v o => (once path? o.config v).map fun x => { o with config := x }
  | "jit" => some fun v o => (once JitMode.ofName? o.mode v).map fun x => { o with mode := x }
  | "disasm-format" => some fun v o => (once DisasmFormat.ofName? o.format v).map fun x => { o with format := x }
  | "buffer-size" => some fun v o => (once size? o.bufferSize v).map fun x => { o with bufferSize := x }
  | "max-depth" => some fun v o => (once size? o.maxDepth v).map fun x => { o with maxDepth := x }
  | _ => none

def grammar : Grammar RunOptions :=
  ⟨flag?, option?, fun v o => (once path? o.file v).map fun x => { o with file := x }⟩

/-- The settings with what the command line says put in. -/
def apply (o : RunOptions) (s : Settings) : Settings :=
  { mode := o.mode.getD s.mode
    bufferSize := o.bufferSize.getD s.bufferSize
    dump := o.dump || s.dump
    format := o.format.getD s.format
    trace := o.trace || s.trace
    maxDepth := o.maxDepth.getD s.maxDepth }

end RunOptions

structure DumpOptions where
  file : Option String
  native : Bool
  format : Option DisasmFormat
deriving DecidableEq, Repr

namespace DumpOptions

def empty : DumpOptions := ⟨none, false, none⟩

def flag? : String → Option (DumpOptions → Option DumpOptions)
  | "native" => some fun o => (raise o.native).map fun b => { o with native := b }
  | _ => none

def option? : String → Option (String → DumpOptions → Option DumpOptions)
  | "disasm-format" => some fun v o => (once DisasmFormat.ofName? o.format v).map fun x => { o with format := x }
  | _ => none

def grammar : Grammar DumpOptions :=
  ⟨flag?, option?, fun v o => (once path? o.file v).map fun x => { o with file := x }⟩

end DumpOptions

/-- A command with nothing but its file. -/
def fileGrammar : Grammar (Option String) := ⟨fun _ => none, fun _ => none, fun v o => once path? o v⟩

/-! ### Commands -/

inductive Command where
  /-- Compile the entry method and run it. -/
  | run (file : String) (options : RunOptions)
  | interpret (file : String)
  /-- List the bytecode, and on request the machine code. -/
  | dump (file : String) (native : Bool) (format : DisasmFormat)
deriving DecidableEq, Repr

namespace Command

def names : List String := ["run", "interp", "dump", "help"]

def parse : List String → Except Stop Command
  | "run" :: words => do
    let o ← RunOptions.grammar.read .empty words
    return .run (← Grammar.accept o.file) o
  | "interp" :: words => do
    let file ← fileGrammar.read none words
    return .interpret (← Grammar.accept file)
  | "dump" :: words => do
    let o ← DumpOptions.grammar.read .empty words
    return .dump (← Grammar.accept o.file) o.native (o.format.getD .text)
  | ["help"] => .error .help
  | ["help", name] => if name ∈ names then .error .help else .error .usage
  | text :: _ =>
    match Word.ofChars text.toList with
    | .long "help" none | .short ('h' :: _) => .error .help
    | _ => .error .usage
  | [] => .error .usage

/-- The files that a command reads. -/
def files : Command → List String
  | .run file options => options.config.toList ++ [file]
  | .interpret file | .dump file _ _ => [file]

end Command

end StackMachine.CommandLine
