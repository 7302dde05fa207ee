import StackMachine.Bytecode.Sweep

/-!
# Programs

A program is a table of methods; a method is known by its index in the table.  A method has a name, a number of locals,
all of which are its parameters, an instruction stream and a table of call sites.  A call site fixes the callee and the
number of arguments, the receiver not counted.

`Draft` collects a method's stream and call sites piece by piece.
-/

namespace StackMachine

structure CallSite where
  callee : Nat
  argc : UInt64
deriving DecidableEq, Repr

structure Method where
  name : String
  locals : Nat
  code : Array UInt64
  sites : Array CallSite
deriving DecidableEq, Repr

namespace Method

/-- The text that stands for a method's index in messages. -/
def ref (id : Nat) : String := "#" ++ Decimal.ofNat id

def site? (m : Method) (idx : UInt64) : Option CallSite := m.sites[idx.toNat]?

def sweep (m : Method) : Sweep := Sweep.ofCode m.code

end Method

/-! ### Drafts -/

structure Draft where
  code : Array UInt64
  sites : Array CallSite
deriving DecidableEq, Repr

namespace Draft

def empty : Draft := ⟨#[], #[]⟩

/-- Appends a word as it is. -/
def word (d : Draft) (w : UInt64) : Draft := { d with code := d.code.push w }

def insn (d : Draft) (i : Insn) : Draft := { d with code := d.code ++ i.encode }

/-- Adds a call site and the `send` that refers to it. -/
def send (d : Draft) (site : CallSite) : Draft :=
  (Draft.mk d.code (d.sites.push site)).insn (.send (UInt64.ofNat d.sites.size))

def method (d : Draft) (name : String) (locals : Nat) : Method := ⟨name, locals, d.code, d.sites⟩

end Draft

/-! ### The method table -/

structure Program where
  methods : Array Method
deriving DecidableEq, Repr

namespace Program

def empty : Program := ⟨#[]⟩

def size (p : Program) : Nat := p.methods.size

def isEmpty (p : Program) : Bool := p.methods.isEmpty

def method? (p : Program) (id : Nat) : Option Method := p.methods[id]?

/-- The first method of that name. -/
def lookup (p : Program) (name : String) : Option Nat := p.methods.findIdx? fun m => m.name == name

end Program

end StackMachine
