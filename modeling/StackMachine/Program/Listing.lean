import StackMachine.Program.Basic
import StackMachine.Text.Blank

/-!
# Listings

The listing of a method is a header line followed by one line for each instruction of its linear sweep, with the
position in four columns.  A `send` shows its call site.  Where the sweep stops early the last line says why.
-/

namespace StackMachine

namespace Program

/-- The callee's name and the argument count of a call site. -/
def siteText (p : Program) (m : Method) (idx : UInt64) : String :=
  match m.site? idx with
  | some site =>
    ((p.method? site.callee).map Method.name).getD "?" ++ ", argc:" ++ Decimal.ofNat site.argc.toNat
  | none => "<bad calldata " ++ Decimal.ofNat idx.toNat ++ ">"

def insnText (p : Program) (m : Method) : Insn → String
  | .send idx => "send_without_block <" ++ p.siteText m idx ++ ">"
  | i => i.text

def insnLine (p : Program) (m : Method) (pc : Nat) (i : Insn) : String :=
  Text.padLeft 4 '0' (Decimal.ofNat pc) ++ " " ++ p.insnText m i ++ "\n"

def methodListing (p : Program) (m : Method) : String :=
  let header := "== " ++ m.name ++ " (locals: " ++ Decimal.ofNat m.locals ++ ", words: "
    ++ Decimal.ofNat m.code.size ++ ")\n"
  let sweep := m.sweep
  let lines := sweep.insns.map fun (pc, i) => p.insnLine m pc i
  let last := (sweep.error.map fun e => "!! " ++ e.message ++ "\n").toList
  String.join (header :: lines ++ last)

def listing (p : Program) (id : Nat) : Option String := (p.method? id).map p.methodListing

end Program

end StackMachine
