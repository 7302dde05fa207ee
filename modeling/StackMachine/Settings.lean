import StackMachine.X86.Disassembly

/-!
# Settings

What a user can choose about native compilation.  The size of the code buffer and the depth of nested compilation must
be positive; `validate` reports the first that is not.
-/

namespace StackMachine

inductive JitMode where
  | off | on | auto
deriving DecidableEq, Repr

namespace JitMode

def all : List JitMode := [off, on, auto]

def name : JitMode → String
  | off => "off" | on => "on" | auto => "auto"

def ofName? (s : String) : Option JitMode := all.find? fun m => m.name == s

def inspect : JitMode → String
  | off => "Off" | on => "On" | auto => "Auto"

end JitMode

namespace X86.DisasmFormat

def all : List DisasmFormat := [text, json]

def name : DisasmFormat → String
  | text => "text" | json => "json"

def ofName? (s : String) : Option DisasmFormat := all.find? fun f => f.name == s

def inspect : DisasmFormat → String
  | text => "Text" | json => "Json"

end X86.DisasmFormat

structure Settings where
  mode : JitMode
  /-- Bytes of executable memory. -/
  bufferSize : Nat
  /-- Whether everything placed is also disassembled. -/
  dump : Bool
  format : X86.DisasmFormat
  /-- Whether what the compiler does is reported. -/
  trace : Bool
  /-- How long a chain of methods may be compiled for one request. -/
  maxDepth : Nat
deriving DecidableEq, Repr

inductive SettingsError where
  | bufferSize
  | maxDepth
deriving DecidableEq, Repr

def SettingsError.message : SettingsError → String
  | .bufferSize => "code_buffer_size must be positive"
  | .maxDepth => "max_compile_depth must be positive"

namespace Settings

protected def default : Settings := ⟨.auto, 1048576, false, .text, false, 64⟩

def validate (s : Settings) : Except SettingsError Settings :=
  if s.bufferSize = 0 then .error .bufferSize
  else if s.maxDepth = 0 then .error .maxDepth
  else .ok s

/-- The form used in diagnostics. -/
def inspect (s : Settings) : String :=
  let flag (b : Bool) := if b then "true" else "false"
  "JitConfig \x7b jit_mode: " ++ s.mode.inspect ++ ", code_buffer_size: " ++ Decimal.ofNat s.bufferSize
    ++ ", dump_disasm: " ++ flag s.dump ++ ", disasm_format: " ++ s.format.inspect ++ ", trace_jit: " ++ flag s.trace
    ++ ", max_compile_depth: " ++ Decimal.ofNat s.maxDepth ++ " \x7d"

end Settings

end StackMachine
