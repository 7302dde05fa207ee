import StackMachine.Program.Mnemonic
import StackMachine.Toml.Document

/-!
# Program files

A program file is a TOML document that lists methods with their bodies and says how to enter the program.  `Source` is
the document's content, `Runnable` the program that it stands for.

* Names are checked first, so that calls may refer to methods defined later.
* Then the bodies are read in order, then the entry is looked up, and last the receiver and the arguments are tagged.
-/

namespace StackMachine

structure MethodSource where
  name : String
  locals : Nat
  body : List String
deriving DecidableEq, Repr

structure Source where
  entry : String
  receiver : Option Int64
  args : List Int64
  methods : List MethodSource
deriving DecidableEq, Repr

namespace MethodSource

def ofFields? (fields : Toml.Fields) : Option MethodSource := do
  if !Toml.keysAmong fields ["name", "locals", "body"] then none
  let name ← Toml.field? fields "name" Toml.string? none
  let locals ← Toml.field? fields "locals" Toml.natural? (some 0)
  let body ← Toml.field? fields "body" (Toml.listOf? Toml.string?) none
  return ⟨name, locals, body⟩

/-- A method is a table, or an array of its name, locals and body, whose further elements are ignored. -/
def ofToml? : Toml → Option MethodSource
  | .table _ fields => ofFields? fields
  | .array _ (name :: locals :: body :: _) => do
    let name ← name.string?
    let locals ← locals.natural?
    let body ← Toml.listOf? Toml.string? body
    return ⟨name, locals, body⟩
  | _ => none

end MethodSource

namespace Source

def ofFields? (fields : Toml.Fields) : Option Source := do
  if !Toml.keysAmong fields ["entry", "receiver", "args", "methods"] then none
  let entry ← Toml.field? fields "entry" Toml.string? none
  let receiver ← Toml.field? fields "receiver" (fun v => v.integer?.map some) (some none)
  let args ← Toml.field? fields "args" (Toml.listOf? Toml.integer?) (some [])
  let methods ← Toml.field? fields "methods" (Toml.listOf? MethodSource.ofToml?) none
  return ⟨entry, receiver, args, methods⟩

def parse (text : String) : Except Toml.Error Source :=
  match Toml.parse text with
  | .error e => .error e
  | .ok fields =>
    match ofFields? fields with
    | some source => .ok source
    | none => .error .shape

end Source

/-! ### Building the program -/

inductive ProgramError where
  | parse (error : Toml.Error)
  | duplicateMethod (name : String)
  | unknownEntry (name : String)
  | body (method : String) (line : Nat) (error : LineError)
  | fixnumRange (n : Int64)
deriving DecidableEq, Repr

def ProgramError.message : ProgramError → String
  | .parse e => "failed to parse program: " ++ e.message
  | .duplicateMethod name => "method `" ++ name ++ "` is defined twice"
  | .unknownEntry name => "entry method `" ++ name ++ "` is not defined"
  | .body method line e => method ++ ":" ++ Decimal.ofNat line ++ ": " ++ e.message
  | .fixnumRange n => rangeMessage n

/-- A program together with how to enter it. -/
structure Runnable where
  program : Program
  entry : Nat
  receiver : Value
  args : List Value
deriving DecidableEq, Repr

namespace Source

/-- The first name that also belongs to an earlier method. -/
def repeatedName? (seen : List String) : List String → Option String
  | [] => none
  | name :: rest => if name ∈ seen then some name else repeatedName? (name :: seen) rest

def resolve (s : Source) (name : String) : Option Nat := s.methods.findIdx? fun m => m.name == name

/-- Reads the lines of a body; `line` is the number of the first. -/
def draft (resolve : String → Option Nat) (m : MethodSource) (line : Nat) (d : Draft) :
    List String → Except ProgramError Draft
  | [] => .ok d
  | text :: rest =>
    match Mnemonic.parseLine resolve d text with
    | .error e => .error (.body m.name line e)
    | .ok d => draft resolve m (line + 1) d rest

def method (s : Source) (m : MethodSource) : Except ProgramError Method :=
  (draft s.resolve m 1 .empty m.body).map fun d => d.method m.name m.locals

def fixnum (n : Int64) : Except ProgramError Value :=
  match Value.ofInt? n.toInt with
  | some v => .ok v
  | none => .error (.fixnumRange n)

def receiverValue (s : Source) : Except ProgramError Value :=
  match s.receiver with
  | some n => fixnum n
  | none => .ok .nil

def build (s : Source) : Except ProgramError Runnable :=
  match repeatedName? [] (s.methods.map MethodSource.name) with
  | some name => .error (.duplicateMethod name)
  | none => do
    let methods ← s.methods.mapM s.method
    match s.resolve s.entry with
    | none => .error (.unknownEntry s.entry)
    | some entry =>
      let receiver ← s.receiverValue
      let args ← s.args.mapM fixnum
      return ⟨⟨methods.toArray⟩, entry, receiver, args⟩

end Source

def Runnable.parse (text : String) : Except ProgramError Runnable :=
  match Source.parse text with
  | .error e => .error (.parse e)
  | .ok source => source.build

end StackMachine
