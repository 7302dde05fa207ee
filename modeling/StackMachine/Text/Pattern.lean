import StackMachine.Text.Blank
import StackMachine.Text.Letter

/-!
# Patterns

A pattern is a regular expression.  Nothing is matched against one here; `Pattern.accepts` says which texts are
patterns.

* The constructs are groups, alternatives, repetitions, classes in brackets, escapes and flags.  Texts come without
  closing braces, so that whatever an opening brace would start never ends, and is refused.
* There are no tables of character properties: what needs one (`\w`, `\p`, `\b`, ignoring the case of a character) is
  refused, unless the flag `u` is off and ASCII is meant.  With that flag off a pattern may not match parts of a
  character.
* Constructs are nested at most `nestingLimit` deep.

The text is read from left to right.  `Reading` holds the groups and classes that are still open.
-/

namespace StackMachine.Pattern

/-! ### Flags -/

structure Flags where
  /-- Characters rather than bytes are matched. -/
  unicode : Bool
  ignoreCase : Bool
  /-- Blanks and comments in the pattern are skipped. -/
  verbose : Bool
deriving DecidableEq, Repr

namespace Flags

def standard : Flags := ⟨true, false, false⟩

/-- Whether a list of flags turns one on or off; those after a hyphen are turned off. -/
def state (items : List Char) (flag : Char) : Option Bool :=
  if (items.takeWhile (· ≠ '-')).contains flag then some true
  else if items.contains flag then some false
  else none

def apply (f : Flags) (items : List Char) : Flags :=
  ⟨(state items 'u').getD f.unicode, (state items 'i').getD f.ignoreCase, (state items 'x').getD f.verbose⟩

end Flags

/-- Takes flags up to a colon or a closing parenthesis, which is also returned.  None may stand twice, and a hyphen must
stand before one. -/
def takeFlags? (seen : List Char) : List Char → Option ((List Char × Char) × List Char)
  | [] => none
  | c :: cs =>
    if c == ':' || c == ')' then if seen.head? == some '-' then none else some ((seen.reverse, c), cs)
    else if ['i', 'm', 's', 'U', 'u', 'R', 'x', '-'].contains c && !seen.contains c then takeFlags? (c :: seen) cs
    else none

/-- Whether characters are matched in either case, which needs a table of them. -/
def Flags.foldsCase (f : Flags) : Bool := f.unicode && f.ignoreCase

/-- Drops blanks, and comments from a number sign to the end of the line. -/
def skipVerbose (inComment : Bool) : List Char → List Char
  | [] => []
  | c :: cs =>
    if inComment then skipVerbose (c != '\n') cs
    else if Text.isBlank c then skipVerbose false cs
    else if c == '#' then skipVerbose true cs
    else c :: cs

def Flags.skip (f : Flags) (cs : List Char) : List Char := if f.verbose then skipVerbose false cs else cs

/-- Looks ahead.  Blanks are skipped where they do not count, and so is one number sign, but not the comment behind
it. -/
def Flags.peek? (f : Flags) (cs : List Char) : Option Char :=
  if !f.verbose then cs.head?
  else
    match cs.filter (!Text.isBlank ·) with
    | ['#'] | [] => cs.head?
    | '#' :: c :: _ => some c
    | c :: _ => some c

/-! ### Single characters -/

inductive Primitive where
  /-- A character, and whether it is written as a byte. -/
  | literal (c : Char) (byte : Bool)
  /-- A class with a letter of its own. -/
  | shorthand (negated : Bool)
  /-- A condition on the position, and whether it is about words. -/
  | position (word : Bool)
deriving DecidableEq, Repr

def hexValue? (c : Char) : Option Nat :=
  if '0' ≤ c && c ≤ '9' then some (c.toNat - '0'.toNat)
  else if 'a' ≤ c && c ≤ 'f' then some (c.toNat - 'a'.toNat + 10)
  else if 'A' ≤ c && c ≤ 'F' then some (c.toNat - 'A'.toNat + 10)
  else none

/-- Takes exactly `k` hexadecimal digits; `n` is the value of those before. -/
def takeHex? (f : Flags) : (k n : Nat) → List Char → Option (Nat × List Char)
  | 0, n, cs => some (n, cs)
  | k + 1, n, cs =>
    match f.skip cs with
    | [] => none
    | c :: cs => (hexValue? c).bind fun d => takeHex? f k (16 * n + d) cs

/-- Takes the character with a code of `k` hexadecimal digits. -/
def takeCode? (f : Flags) (k : Nat) (cs : List Char) : Option (Primitive × List Char) := do
  let (n, cs) ← takeHex? f k 0 cs
  if n.isValidChar then return (.literal (Char.ofNat n) (k == 2), cs) else none

/-- Whether a backslash makes an ordinary character of this one. -/
def isEscapable (c : Char) : Bool := c.toNat < 0x80 && !c.isAlphanum && c != '<' && c != '>'

/-- The control characters that have a letter of their own. -/
def controls : List (Char × Char) :=
  [('a', '\x07'), ('f', '\x0c'), ('t', '\t'), ('n', '\n'), ('r', '\r'), ('v', '\x0b')]

/-- Takes an escape after its backslash. -/
def takeEscape? (f : Flags) : List Char → Option (Primitive × List Char)
  | [] => none
  | c :: cs =>
    if c == 'x' then takeCode? f 2 cs
    else if c == 'u' then takeCode? f 4 cs
    else if c == 'U' then takeCode? f 8 cs
    else if ['d', 's', 'w'].contains c then some (.shorthand false, cs)
    else if ['D', 'S', 'W'].contains c then some (.shorthand true, cs)
    else if isEscapable c then some (.literal c false, cs)
    else if ['A', 'z'].contains c then some (.position false, cs)
    else if ['b', 'B', '<', '>'].contains c then some (.position true, cs)
    else (controls.lookup c).map fun control => (.literal control false, cs)

/-- Whether a single character can stand outside a class. -/
def Primitive.allowed (f : Flags) : Primitive → Bool
  | literal c byte => !f.foldsCase && (f.unicode || !(byte && 0x80 ≤ c.toNat))
  | shorthand negated => !f.unicode && !negated
  | position word => !(word && f.unicode)

/-- Whether a single character can stand in a class. -/
def Primitive.allowedInClass (f : Flags) : Primitive → Bool
  | literal c _ => !f.foldsCase && (f.unicode || c.toNat < 0x80)
  | shorthand negated => !f.unicode && !negated
  | position _ => false

/-! ### Heights -/

/-- A sequence of constructs: how many, and the height of the highest. -/
structure Tally where
  count : Nat
  highest : Nat
deriving DecidableEq, Repr

namespace Tally

def empty : Tally := ⟨0, 0⟩

def add (t : Tally) (height : Nat) : Tally := ⟨t.count + 1, Nat.max t.highest height⟩

/-- Two or more constructs make a construct of their own. -/
def height (t : Tally) : Nat := if t.count ≤ 1 then t.highest else t.highest + 1

end Tally

def nestingLimit : Nat := 250

/-! ### Classes -/

/-- An open bracket: the height of what stands before the last set operation, the items since then, and whether nothing
but hyphens has been read. -/
structure Bracket where
  left : Option Nat
  items : Tally
  fresh : Bool
deriving DecidableEq, Repr

namespace Bracket

def empty : Bracket := ⟨none, .empty, true⟩

def add (b : Bracket) (height : Nat) : Bracket := { b with items := b.items.add height, fresh := false }

/-- The height of the set read so far. -/
def height (b : Bracket) : Nat :=
  match b.left with
  | some left => Nat.max left b.items.height + 1
  | none => b.items.height

/-- Starts the right side of a set operation. -/
def operate (b : Bracket) : Bracket := ⟨some b.height, .empty, false⟩

/-- Opens a bracket after its first character.  What is negated holds bytes that are parts of characters, so that it has
to be a set of characters. -/
def open? (f : Flags) (cs : List Char) : Option (Bracket × List Char) :=
  match f.skip cs with
  | '^' :: cs => if f.unicode then some (empty, cs) else none
  | cs => some (empty, cs)

end Bracket

def asciiNames : List String :=
  ["alnum", "alpha", "ascii", "blank", "cntrl", "digit", "graph", "lower", "print", "punct", "space", "upper", "word",
    "xdigit"]

/-- Takes the name of an ASCII class after its opening bracket, and says whether it is negated. -/
def takeAscii? : List Char → Option (Bool × List Char)
  | ':' :: cs =>
    let (negated, cs) := match cs with
      | '^' :: cs => (true, cs)
      | cs => (false, cs)
    let name := cs.takeWhile (· ≠ ':')
    match cs.drop name.length with
    | ':' :: ']' :: rest => if asciiNames.contains (String.ofList name) then some (negated, rest) else none
    | _ => none
  | _ => none

def takeItem? (f : Flags) : List Char → Option (Primitive × List Char)
  | '\\' :: cs => takeEscape? f cs
  | c :: cs => some (.literal c false, cs)
  | [] => none

/-- Takes a single character or a range.  A hyphen before a closing bracket or before another hyphen makes no range. -/
def takeRange? (f : Flags) (cs : List Char) : Option (List Char) := do
  let (first, cs) ← takeItem? f cs
  match f.skip cs with
  | '-' :: rest =>
    if f.peek? rest == some ']' || f.peek? rest == some '-' then
      if first.allowedInClass f then some ('-' :: rest) else none
    else
      let (last, cs) ← takeItem? f (f.skip rest)
      match first, last with
      | .literal a _, .literal b _ =>
        if a.toNat ≤ b.toNat && first.allowedInClass f && last.allowedInClass f then some cs else none
      | _, _ => none
  | cs => if first.allowedInClass f then some cs else none

/-! ### Groups -/

/-- A list of alternatives: those that are complete, and the last one.  A repetition takes the construct before it, of
height `last`, if there is one. -/
structure Branches where
  complete : Tally
  items : Tally
  last : Option Nat
deriving DecidableEq, Repr

namespace Branches

def empty : Branches := ⟨.empty, .empty, none⟩

def add (b : Branches) (height : Nat) : Branches := { b with items := b.items.add height, last := some height }

/-- Flags are a construct that cannot be repeated. -/
def addFlags (b : Branches) : Branches := { b with items := b.items.add 0, last := none }

def repeat? (b : Branches) : Option Branches :=
  b.last.map fun h =>
    { b with items := ⟨b.items.count, Nat.max b.items.highest (h + 1)⟩, last := some (h + 1) }

def next (b : Branches) : Branches := ⟨b.complete.add b.items.height, .empty, none⟩

def height (b : Branches) : Nat := b.next.complete.height

end Branches

/-- What surrounds an open group. -/
structure Outer where
  branches : Branches
  flags : Flags
deriving DecidableEq, Repr

structure Reading where
  flags : Flags
  branches : Branches
  /-- The open groups, innermost first. -/
  outer : List Outer
  /-- The open brackets, innermost first. -/
  brackets : List Bracket
  /-- The names of groups. -/
  names : List (List Char)
deriving DecidableEq, Repr

namespace Reading

def start : Reading := ⟨.standard, .empty, [], [], []⟩

def add (r : Reading) (height : Nat) : Reading := { r with branches := r.branches.add height }

def openGroup (r : Reading) (flags : Flags) : Reading :=
  { r with flags := flags, branches := .empty, outer := ⟨r.branches, r.flags⟩ :: r.outer }

def closeGroup? (r : Reading) : Option Reading :=
  match r.outer with
  | [] => none
  | o :: outer =>
    some { r with flags := o.flags, branches := o.branches.add (r.branches.height + 1), outer := outer }

/-- Opens a group whose name and a closing angle come next. -/
def named? (r : Reading) (cs : List Char) : Option (Reading × List Char) :=
  let name := cs.takeWhile (· ≠ '>')
  let isNameChar (c : Char) : Bool := ['_', '.', '[', ']'].contains c || Text.isAlphanumeric c
  let startsName := match name with
    | c :: _ => c == '_' || Text.isAlphabetic c
    | [] => false
  match cs.drop name.length with
  | _ :: rest =>
    if startsName && name.all isNameChar && !r.names.contains name then
      some ({ r.openGroup r.flags with names := name :: r.names }, rest)
    else none
  | [] => none

/-- Sets flags, or opens a group with flags of its own. -/
def flagged? (r : Reading) (cs : List Char) : Option (Reading × List Char) := do
  let ((items, stop), rest) ← takeFlags? [] cs
  let flags := r.flags.apply items
  if stop == ':' then return (r.openGroup flags, rest)
  else if items.isEmpty then none
  else return ({ r with flags := flags, branches := r.branches.addFlags }, rest)

/-- Reads what follows an opening parenthesis.  Looking ahead or behind is not possible. -/
def group? (r : Reading) (cs : List Char) : Option (Reading × List Char) :=
  match r.flags.skip cs with
  | '?' :: '=' :: _ | '?' :: '!' :: _ | '?' :: '<' :: '=' :: _ | '?' :: '<' :: '!' :: _ => none
  | '?' :: 'P' :: '<' :: cs | '?' :: '<' :: cs => r.named? cs
  | '?' :: cs => r.flagged? cs
  | cs => some (r.openGroup r.flags, cs)

/-- One step outside brackets.  A question mark right behind a repetition belongs to it. -/
def outside? (r : Reading) : List Char → Option (Reading × List Char)
  | [] => none
  | '(' :: cs => r.group? cs
  | ')' :: cs => r.closeGroup?.map fun r => (r, cs)
  | '|' :: cs => some ({ r with branches := r.branches.next }, cs)
  | '[' :: cs => (Bracket.open? r.flags cs).map fun (b, cs) => ({ r with brackets := [b] }, cs)
  | '{' :: _ => none
  | '\\' :: cs => do
    let (p, cs) ← takeEscape? r.flags cs
    if p.allowed r.flags then return (r.add 0, cs) else none
  | c :: cs =>
    if c == '?' || c == '*' || c == '+' then
      let rest := match cs with
        | '?' :: cs => cs
        | cs => cs
      r.branches.repeat?.map fun b => ({ r with branches := b }, rest)
    else if c == '^' || c == '$' then some (r.add 0, cs)
    else if c == '.' then if r.flags.unicode then some (r.add 0, cs) else none
    else if (Primitive.literal c false).allowed r.flags then some (r.add 0, cs)
    else none

/-- Closes the bracket `b`, which is the innermost. -/
def closeBracket (r : Reading) (b : Bracket) : List Bracket → Reading
  | [] => { r.add (b.height + 1) with brackets := [] }
  | o :: outer => { r with brackets := o.add (b.height + 1) :: outer }

/-- One step inside the bracket `b`. -/
def inside? (r : Reading) (b : Bracket) (outer : List Bracket) (cs : List Char) : Option (Reading × List Char) :=
  let within (b : Bracket) (cs : List Char) : Option (Reading × List Char) :=
    some ({ r with brackets := b :: outer }, cs)
  match cs with
  | [] => none
  | ']' :: rest =>
    if b.fresh && b.items.count == 0 then
      if r.flags.foldsCase then none else within (b.add 0) rest
    else some (r.closeBracket b outer, rest)
  | '[' :: rest =>
    match takeAscii? rest with
    | some (negated, rest) =>
      if r.flags.foldsCase || (negated && !r.flags.unicode) then none else within (b.add 0) rest
    | none => (Bracket.open? r.flags rest).map fun (inner, rest) => ({ r with brackets := inner :: b :: outer }, rest)
  | '&' :: '&' :: rest | '~' :: '~' :: rest => within b.operate rest
  | '-' :: rest =>
    if b.fresh then
      if r.flags.foldsCase then none else within { b with items := b.items.add 0 } rest
    else if rest.head? == some '-' then within b.operate (rest.drop 1)
    else (takeRange? r.flags cs).bind (within (b.add 0))
  | _ => (takeRange? r.flags cs).bind (within (b.add 0))

def step? (r : Reading) (cs : List Char) : Option (Reading × List Char) :=
  match r.flags.skip cs, r.brackets with
  | [], _ => some (r, [])
  | cs, [] => r.outside? cs
  | cs, b :: outer => r.inside? b outer cs

/-- Reads to the end of the text. -/
def run? (r : Reading) (cs : List Char) : Option Reading :=
  match cs with
  | [] => some r
  | cs =>
    match r.step? cs with
    | none => none
    | some (r, rest) => if rest.length < cs.length then run? r rest else none
termination_by cs.length

/-- Whether everything has been closed. -/
def isComplete (r : Reading) : Bool := r.outer.isEmpty && r.brackets.isEmpty && r.branches.height ≤ nestingLimit

end Reading

def accepts (text : List Char) : Bool :=
  match Reading.start.run? text with
  | some r => r.isComplete
  | none => false

end StackMachine.Pattern
