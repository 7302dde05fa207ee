import StackMachine.Value

/-!
# Frames

Native code runs on two arrays.  The value array grows upwards and holds, for each call, the arguments followed by a
header word.  The frame array grows downwards from the root frame and holds one record for each call:

* `sp`, the first free slot of the value array;
* `self`, the receiver;
* `ep`, the slot of the header word, so that the local with index `i` lies `i` slots below it;
* `method`, the index of the method.

The root frame belongs to no call and has no header.
-/

namespace StackMachine.Native

structure Frame where
  sp : Nat
  self : Value
  ep : Option Nat
  method : UInt64
deriving DecidableEq, Repr

def Frame.empty : Frame := ⟨0, .nil, none, 0xFFFFFFFFFFFFFFFF⟩

/-- The word between the arguments and what the callee puts on the value array. -/
def envHeader : Value := ⟨0⟩

/-! ### Layout in memory -/

namespace Layout

def wordSize : Nat := 8

/-- Byte offsets of a frame's fields. -/
def sp : Nat := 0

def self : Nat := 8

def ep : Nat := 16

def method : Nat := 24

def frameSize : Nat := 32

/-- Byte offset of the current frame's address in the execution context. -/
def cfp : Nat := 0

end Layout

/-! ### The two arrays -/

structure FrameStack where
  values : Array Value
  frames : Array Frame
  /-- Index of the current frame. -/
  current : Nat
deriving DecidableEq, Repr

namespace FrameStack

/-- Both arrays have at least one element; the root frame is the last. -/
def new (valueSlots frameSlots : Nat) : FrameStack :=
  ⟨Array.replicate (max valueSlots 1) .nil, Array.replicate (max frameSlots 1) .empty, max frameSlots 1 - 1⟩

/-- Values that one call can take up: the receiver, four arguments and the header. -/
def wordsPerFrame : Nat := 6

/-- Large enough for a chain of `depth` calls below an entry call with `entryArgs` arguments. -/
def forDepth (depth entryArgs : Nat) : FrameStack := new ((depth + 2) * wordsPerFrame + entryArgs) (depth + 2)

/-- Bytes that one array takes up at most. -/
def allocationLimit : Nat := 0x7FFFFFFFFFFFFFFF

/-- Whether both arrays can be allocated. -/
def fits (s : FrameStack) : Bool :=
  s.values.size * Layout.wordSize ≤ allocationLimit && s.frames.size * Layout.frameSize ≤ allocationLimit

def root (s : FrameStack) : Nat := s.frames.size - 1

/-- Number of frames pushed on the root frame. -/
def depth (s : FrameStack) : Nat := s.root - s.current

def frame (s : FrameStack) : Frame := s.frames.getD s.current .empty

/-- Writes consecutive values. -/
def writeValues (values : Array Value) (slot : Nat) : List Value → Array Value
  | [] => values
  | v :: vs => writeValues (values.setIfInBounds slot v) (slot + 1) vs

/-- Enters a call; refused when either array has no room left. -/
def push (s : FrameStack) (self : Value) (args : List Value) (method : UInt64) : Option FrameStack :=
  let slot := s.frame.sp
  let ep := slot + args.length
  if s.current = 0 ∨ s.values.size < ep + 1 then none
  else
    some ⟨writeValues s.values slot (args ++ [envHeader]),
      s.frames.setIfInBounds (s.current - 1) ⟨ep + 1, self, some ep, method⟩, s.current - 1⟩

/-- Leaves the current call; its values stay where they are. -/
def pop (s : FrameStack) : Option FrameStack :=
  if 0 < s.depth then some { s with current := s.current + 1 } else none

/-- The value `idx` slots below the current frame's header. -/
def local? (s : FrameStack) (idx : Nat) : Option Value :=
  match s.frame.ep with
  | some ep => if idx ≤ ep then s.values[ep - idx]? else none
  | none => none

end FrameStack

end StackMachine.Native
