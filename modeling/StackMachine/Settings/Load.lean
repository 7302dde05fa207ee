import StackMachine.Files
import StackMachine.Settings
import StackMachine.Toml.Document

/-!
# Settings files

A settings file is a TOML document in which every key may be left out.  Keys that are not settings are refused, and so
are sizes that are not positive.
-/

namespace StackMachine.Settings

inductive LoadError where
  | read (path : String) (error : ReadError)
  | parse (path : String) (error : Toml.Error)
  | invalid (error : SettingsError)
deriving DecidableEq, Repr

def LoadError.message : LoadError → String
  | .read path e => e.at path
  | .parse path e => "failed to parse " ++ path ++ ": " ++ e.message
  | .invalid e => e.message

def keys : List String :=
  ["jit_mode", "code_buffer_size", "dump_disasm", "disasm_format", "trace_jit", "max_compile_depth"]

/-- The settings of a table; a missing key leaves the default. -/
def ofFields? (fields : Toml.Fields) : Option Settings := do
  if !Toml.keysAmong fields keys then none
  let d := Settings.default
  let mode ← Toml.field? fields "jit_mode" (Toml.name? JitMode.ofName?) (some d.mode)
  let bufferSize ← Toml.field? fields "code_buffer_size" Toml.natural? (some d.bufferSize)
  let dump ← Toml.field? fields "dump_disasm" Toml.boolean? (some d.dump)
  let format ← Toml.field? fields "disasm_format" (Toml.name? X86.DisasmFormat.ofName?) (some d.format)
  let trace ← Toml.field? fields "trace_jit" Toml.boolean? (some d.trace)
  let maxDepth ← Toml.field? fields "max_compile_depth" Toml.natural? (some d.maxDepth)
  return ⟨mode, bufferSize, dump, format, trace, maxDepth⟩

def parse (text : String) : Except Toml.Error Settings :=
  match Toml.parse text with
  | .error e => .error e
  | .ok fields =>
    match ofFields? fields with
    | some s => .ok s
    | none => .error .shape

def load (read : Reader) (path : String) : Except LoadError Settings :=
  match read.text path with
  | .error e => .error (.read path e)
  | .ok text =>
    match parse text with
    | .error e => .error (.parse path e)
    | .ok s =>
      match s.validate with
      | .error e => .error (.invalid e)
      | .ok s => .ok s

end StackMachine.Settings
