import StackMachine.Native.Notice
import StackMachine.Text.Blank
import StackMachine.Text.Hex

/-!
# Outcomes

What a run of the program leaves behind: its standard output, the pieces of its error output and how it ended.

In a notice the characters that a terminal would act on are spelt out.
-/

namespace StackMachine.CommandLine

open Native (Notice)

inductive Exit where
  | success
  | failure
  /-- The arguments do not make a command. -/
  | usage
  /-- Something happened that is not provided for. -/
  | broken
  /-- The run was given up on the spot. -/
  | aborted
deriving DecidableEq, Repr

namespace Exit

/-- The exit code, for a run that ends with one. -/
def code? : Exit → Option Nat
  | success => some 0
  | failure => some 1
  | usage => some 2
  | broken => some 101
  | aborted => none

/-- The number of the signal that ends a run given up. -/
def signal? : Exit → Option Nat
  | aborted => some 6
  | _ => none

end Exit

/-- A piece of the error output. -/
inductive Piece where
  | text (s : String)
  | notice (n : Notice)
deriving DecidableEq, Repr

/-- Whether a character is spelt out in a notice. -/
def isSpeltOut (c : Char) : Bool :=
  c ∈ ['\x07', '\x08', '\x0c', '\x1b', '\x7f'] || (0x80 ≤ c.toNat && c.toNat ≤ 0x9f)

/-- The text for a character of a notice. -/
def spelt (c : Char) : String :=
  if !isSpeltOut c then String.singleton c
  else if c.toNat < 0x80 then "\\x" ++ Text.padLeft 2 '0' (Hex.digits c.toNat)
  else "\\u\x7b" ++ Hex.digits c.toNat ++ "\x7d"

def Piece.render : Piece → String
  | text s => s
  | notice n => n.level.name ++ " " ++ String.join (n.message.toList.map spelt) ++ "\n"

structure Outcome where
  stdout : String
  stderr : List Piece
  exit : Exit
deriving DecidableEq, Repr

namespace Outcome

def stderrText (o : Outcome) : String := String.join (o.stderr.map Piece.render)

def succeed (stdout : String) (stderr : List Piece) : Outcome := ⟨stdout, stderr, .success⟩

/-- The outcome of a run that stops with an error. -/
def fail (stdout : String) (stderr : List Piece) (message : String) : Outcome :=
  ⟨stdout, stderr ++ [.text ("error: " ++ message ++ "\n")], .failure⟩

end Outcome

end StackMachine.CommandLine
