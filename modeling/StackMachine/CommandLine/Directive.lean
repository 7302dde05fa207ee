import StackMachine.Native.Notice
import StackMachine.Text.Blank
import StackMachine.Text.Decimal
import StackMachine.Text.Pattern

/-!
# Directives

A directive says how much detail is shown of the notices from one source.  It is written `source[span{field}]=level`,
where every part but one can be missing.

* A level alone is about every source; a source alone shows everything.
* A part in brackets restricts a directive.  Notices do not belong to spans, so that a directive with the name of a
  span, or with a value for a field, is accepted and is about no notice.  One that only names a field is about the
  notices that have this field.

Blanks at either end are passed over when the marks are looked for.  Positions are counted in bytes from the first
character that is not blank, but the parts between the marks are cut out of the text with its blanks.  With blanks in
front every part is therefore displaced, and a part can begin or end inside a character; this is
`DirectiveError.broken`.
-/

namespace StackMachine.CommandLine

open Native (Level)

structure Directive where
  /-- The source that it is about; the empty one is about everything. -/
  source : String
  /-- A field that notices must have. -/
  field : Option String
  /-- Rank of the most detailed level shown. -/
  rank : Nat
deriving DecidableEq, Repr

inductive DirectiveError where
  | invalid
  /-- A part begins or ends inside a character. -/
  | broken
deriving DecidableEq, Repr

namespace Directive

/-- The rank of a level's name in any case, or of its number. -/
def rank? (text : String) : Option Nat :=
  match Decimal.uint64? text.toList with
  | some n => if n ≤ 5 then some n.toNat else none
  | none =>
    let name := text.toUpper
    if name = "OFF" then some 0
    else ([Level.error, .warn, .info, .debug, .trace].find? fun l => l.name == name).map Level.rank

def startsSource (c : Char) : Bool := c ∈ ['-', ':', '_'] || Text.isAlphanumeric c

/-! ### Parts of the text -/

/-- What follows the first `n` bytes, if they are whole characters. -/
def dropBytes? : Nat → List Char → Option (List Char)
  | 0, cs => some cs
  | _ + 1, [] => none
  | n + 1, c :: cs => if c.utf8Size ≤ n + 1 then dropBytes? (n + 1 - c.utf8Size) cs else none
termination_by _ cs => cs.length

/-- The first `n` bytes, if they are whole characters. -/
def takeBytes? : Nat → List Char → Option (List Char)
  | 0, _ => some []
  | _ + 1, [] => none
  | n + 1, c :: cs =>
    if c.utf8Size ≤ n + 1 then (takeBytes? (n + 1 - c.utf8Size) cs).map (c :: ·) else none
termination_by _ cs => cs.length

/-- The part of a text from byte `start` on. -/
def tail (text : List Char) (start : Nat) : Except DirectiveError (List Char) :=
  match dropBytes? start text with
  | some cs => .ok cs
  | none => .error .broken

/-- The part of a text from byte `start` to byte `stop`. -/
def cut (text : List Char) (start stop : Nat) : Except DirectiveError (List Char) :=
  match (dropBytes? start text).bind (takeBytes? (stop - start)) with
  | some cs => .ok cs
  | none => .error .broken

/-! ### Fields -/

structure Field where
  name : String
  hasValue : Bool
deriving DecidableEq, Repr

/-- A value is a number or a pattern. -/
def isValue (cs : List Char) : Bool := (Decimal.int? cs).isSome || Decimal.isReal cs || Pattern.accepts cs

/-- Reads a field's name and perhaps, after an equals sign, its value; a second equals sign ends the value. -/
def Field.parse? (text : List Char) : Option Field :=
  if text.isEmpty then none
  else
    let name := text.takeWhile (· ≠ '=')
    match text.drop name.length with
    | [] => some ⟨String.ofList name, false⟩
    | _ :: rest => if isValue (rest.takeWhile (· ≠ '=')) then some ⟨String.ofList name, true⟩ else none

/-! ### Reading -/

/-- Where the reader stands; a number is the byte where the part at hand starts. -/
inductive Place where
  | start
  /-- In a source, or a level that stands alone. -/
  | head
  | span (start : Nat)
  | field (start : Nat)
  /-- Behind a field. -/
  | closing
  /-- Behind the brackets. -/
  | closed
  | level (start : Nat)
deriving DecidableEq, Repr

structure Reading where
  place : Place
  source : String
  /-- Whether a span is named. -/
  inSpan : Bool
  field : Option Field
deriving DecidableEq, Repr

def Reading.start : Reading := ⟨.start, "", false, none⟩

/-- Takes the character `c` at byte `i`. -/
def Reading.step (text : List Char) (r : Reading) (i : Nat) (c : Char) : Except DirectiveError Reading := do
  match r.place with
  | .start =>
    if c = '[' then return { r with place := .span (i + 1) }
    else if startsSource c then return { r with place := .head }
    else throw .invalid
  | .head =>
    if c = '=' then return { r with place := .level (i + 1), source := String.ofList (← cut text 0 i) }
    else if c = '[' then return { r with place := .span (i + 1), source := String.ofList (← cut text 0 i) }
    else return r
  | .span start =>
    if c = ']' then
      let _ ← cut text start i
      return { r with place := .closed, inSpan := true }
    else if c = '\x7b' then
      let name ← cut text start i
      return { r with place := .field (i + 1), inSpan := !name.isEmpty }
    else return r
  | .field start =>
    if c = '\x7d' then
      match Field.parse? (← cut text start i) with
      | some field => return { r with place := .closing, field := some field }
      | none => throw .invalid
    else return r
  | .closing => if c = ']' then return { r with place := .closed } else throw .invalid
  | .closed => if c = '=' then return { r with place := .level (i + 1) } else throw .invalid
  | .level _ => return r

/-- Takes all characters, the first of which is at byte `i`. -/
def Reading.run (text : List Char) (r : Reading) (i : Nat) : List Char → Except DirectiveError Reading
  | [] => .ok r
  | c :: cs => do Reading.run text (← r.step text i c) (i + c.utf8Size) cs

/-- The directive with this rank, unless it is about no notice. -/
def Reading.directive? (r : Reading) (rank : Nat) : Option Directive :=
  match r.inSpan, r.field with
  | true, _ | _, some ⟨_, true⟩ => none
  | false, field => some ⟨r.source, field.map Field.name, rank⟩

/-- Ends the reading. -/
def Reading.finish (text : List Char) (r : Reading) : Except DirectiveError (Option Directive) := do
  match r.place with
  | .head =>
    match rank? (String.ofList text) with
    | some rank => return some ⟨"", none, rank⟩
    | none => return some ⟨String.ofList text, none, Level.trace.rank⟩
  | .closed => return r.directive? Level.trace.rank
  | .level start =>
    let level ← tail text start
    if level.isEmpty then return r.directive? Level.trace.rank
    else
      match rank? (String.ofList level) with
      | some rank => return r.directive? rank
      | none => throw .invalid
  | .start | .span _ | .field _ | .closing => throw .invalid

/-- Reads a directive; `none` is one that is about no notice. -/
def parse (text : List Char) : Except DirectiveError (Option Directive) := do
  (← Reading.start.run text 0 (Text.trim text)).finish text

end Directive

end StackMachine.CommandLine
