import StackMachine.Text.Decimal
import StackMachine.Text.Hex

/-!
# Executable memory

A mapping of whole pages that is either writable or executable, never both.  A new mapping is writable and holds
zeros; while it is executable, writes are refused.

Only the bytes up to the last one written are stored.  `byteAt` is what a reader sees: every byte after them is zero.

Mappings and changes of their protection are made by the operating system, which may refuse.  A `Host` has its answers.
-/

namespace StackMachine.Native

inductive MemoryError where
  | allocationFailed
  | protectionFailed
  | invalidSize
  | notWritable
deriving DecidableEq, Repr

def MemoryError.message : MemoryError → String
  | .allocationFailed => "memory allocation failed"
  | .protectionFailed => "memory protection change failed"
  | .invalidSize => "invalid memory size"
  | .notWritable => "write to memory that is not writable"

inductive Protection where
  | readWrite | readExec
deriving DecidableEq, Repr

/-- What the operating system answers for one mapping. -/
structure Host where
  /-- The address of a mapping of that many bytes, if there is one. -/
  grant : Nat → Option UInt64
  /-- Whether it makes the first changes of protection that it is asked for; it makes all that follow. -/
  answers : List Bool

/-- Grants mappings of less than `limit` bytes at the address `base` and refuses no change of protection. -/
def Host.lending (base : UInt64) (limit : Nat) : Host := ⟨fun size => if size < limit then some base else none, []⟩

structure Memory where
  base : UInt64
  size : Nat
  protection : Protection
  stored : List UInt8
  /-- What the host will answer to the next changes of protection. -/
  answers : List Bool
deriving DecidableEq, Repr

namespace Memory

def pageSize : Nat := 4096

def pageAligned (size : Nat) : Nat := (size + (pageSize - 1)) / pageSize * pageSize

/-- Maps `size` bytes, rounded up to whole pages. -/
def allocate (host : Host) (size : Nat) : Except MemoryError Memory :=
  if size = 0 ∨ UInt64.size ≤ size + (pageSize - 1) then .error .invalidSize
  else
    match host.grant (pageAligned size) with
    | none => .error .allocationFailed
    | some base => .ok ⟨base, pageAligned size, .readWrite, [], host.answers⟩

def isWritable (m : Memory) : Bool := m.protection == .readWrite

def isExecutable (m : Memory) : Bool := m.protection == .readExec

/-- The host is asked only for a protection that the memory does not have. -/
def protect (m : Memory) (protection : Protection) : Except MemoryError Unit × Memory :=
  if m.protection = protection then (.ok (), m)
  else
    match m.answers with
    | [] => (.ok (), { m with protection := protection })
    | true :: later => (.ok (), { m with protection := protection, answers := later })
    | false :: later => (.error .protectionFailed, { m with answers := later })

def makeWritable (m : Memory) : Except MemoryError Unit × Memory := m.protect .readWrite

def makeExecutable (m : Memory) : Except MemoryError Unit × Memory := m.protect .readExec

def byteAt (m : Memory) (i : Nat) : UInt8 := m.stored.getD i 0

/-- The bytes of a range inside the mapping. -/
def read? (m : Memory) (offset len : Nat) : Option (List UInt8) :=
  if offset + len ≤ m.size then
    let present := (m.stored.drop offset).take len
    some (present ++ List.replicate (len - present.length) 0)
  else none

/-- Offset of a byte inside the mapping. -/
def offset? (m : Memory) (offset : Nat) : Option Nat := if offset < m.size then some offset else none

/-- How many bytes can be written from `offset` on. -/
def room (m : Memory) (offset : Nat) : Except MemoryError Nat :=
  if !m.isWritable then .error .notWritable
  else if m.size < offset then .error .invalidSize
  else .ok (m.size - offset)

/-- The first `offset` stored bytes, with zeros up to that length. -/
def front (m : Memory) (offset : Nat) : List UInt8 :=
  let present := m.stored.take offset
  present ++ List.replicate (offset - present.length) 0

/-- The range is checked before the protection. -/
def write (m : Memory) (offset : Nat) (data : List UInt8) : Except MemoryError Memory :=
  if m.size < offset + data.length then .error .invalidSize
  else if !m.isWritable then .error .notWritable
  else .ok { m with stored := m.front offset ++ data ++ m.stored.drop (offset + data.length) }

def Protection.inspect : Protection → String
  | .readWrite => "ReadWrite"
  | .readExec => "ReadExec"

/-- The form used in diagnostics. -/
def inspect (m : Memory) : String :=
  "ExecutableMemory \x7b ptr: " ++ Hex.ofWord m.base ++ ", size: " ++ Decimal.ofNat m.size ++ ", protection: "
    ++ Protection.inspect m.protection ++ " \x7d"

end Memory

end StackMachine.Native
