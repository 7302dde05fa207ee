import StackMachine.Text.Decimal
import StackMachine.Toml.Scalar

/-!
# TOML documents

A document is read in two steps.  `statements` cuts the text into key/value pairs and headers; `ofStatements` builds
the table that they describe, or finds that two of them contradict each other.
-/

namespace StackMachine.Toml

/-- A line of a document: a key with its value, the header of a table, or the header of an array's next element. -/
inductive Statement where
  | pair (path : List String) (key : String) (v : Toml)
  | table (path : List String) (key : String)
  | element (path : List String) (key : String)
deriving Repr

def Statement.key : Statement → String
  | .pair _ key _ | .table _ key | .element _ key => key

namespace Scan

/-! ### Repetition -/

/-- Applies a scanner as long as it succeeds and takes something off the text. -/
def many (p : Scanner α) (cs : List Char) : List α × List Char :=
  match p cs with
  | some (a, rest) =>
    if rest.length < cs.length then
      let (as, rest) := many p rest
      (a :: as, rest)
    else ([], cs)
  | none => ([], cs)
termination_by cs.length

/-- Items divided by commas; a comma that no item follows is left where it is. -/
def commaSeparated (p : Scanner α) (cs : List Char) : List α × List Char :=
  match p cs with
  | some (a, rest) =>
    let next : Scanner α := fun cs => (char ',' cs).bind p
    let (as, rest) := many next rest
    (a :: as, rest)
  | none => ([], cs)

/-! ### Keys -/

def bareKey (cs : List Char) : Option (String × List Char) :=
  match cs.takeWhile isBareKeyChar with
  | [] => none
  | key => some (String.ofList key, cs.dropWhile isBareKeyChar)

/-- One part of a key, with the blanks around it. -/
def keyPart (cs : List Char) : Option (String × List Char) :=
  let cs := skipWs cs
  ((shortString cs).or (bareKey cs)).map fun (key, rest) => (key, skipWs rest)

/-- Longer dotted keys and deeper nests of values are refused. -/
def nestingLimit : Nat := 80

/-- A key as the path to its table and its last part. -/
def key (cs : List Char) : Option ((List String × String) × List Char) :=
  match keyPart cs with
  | none => none
  | some (first, rest) =>
    let next : Scanner String := fun cs => (char '.' cs).bind keyPart
    let (more, rest) := many next rest
    let parts := first :: more
    match parts.getLast? with
    | some last => if parts.length < nestingLimit then some ((parts.dropLast, last), rest) else none
    | none => none

/-! ### Values -/

def array (item : Scanner Toml) (cs : List Char) : Option (Toml × List Char) := do
  let spaced : Scanner Toml := fun cs =>
    (item (skipBlank false cs)).map fun (v, rest) => (v, skipBlank false rest)
  let (items, rest) := commaSeparated spaced cs
  let rest := if items.isEmpty then rest else (char ',' rest).getD rest
  let rest ← char ']' (skipBlank false rest)
  return (.array false items, rest)

abbrev Pair := (List String × String) × Toml

def pair (item : Scanner Toml) (cs : List Char) : Option (Pair × List Char) := do
  let (key, rest) ← key cs
  let rest ← char '=' rest
  let (v, rest) ← item (skipWs rest)
  return ((key, v), rest)

def inlineTable (item : Scanner Toml) (cs : List Char) : Option (Toml × List Char) := do
  let spaced : Scanner Pair := fun cs => (pair item cs).map fun (p, rest) => (p, skipWs rest)
  let (pairs, rest) := commaSeparated spaced cs
  let fields ← pairs.foldlM (fun fields ((path, key), v) => insertPair path key v .inline fields) []
  let rest ← char '\x7d' (skipWs rest)
  return (.table .inline fields, rest)

def number (cs : List Char) : Option (Toml × List Char) :=
  match datetime cs with
  | some rest => some (.datetime, rest)
  | none =>
    match float cs with
    | some rest => some (.float, rest)
    | none => (integer cs).map fun (n, rest) => (.integer n, rest)

/-- A value in which arrays and inline tables are nested at most `depth` deep. -/
def value (depth : Nat) (cs : List Char) : Option (Toml × List Char) :=
  match cs with
  | '[' :: rest =>
    match depth with
    | 0 => none
    | depth + 1 => array (value depth) rest
  | '\x7b' :: rest =>
    match depth with
    | 0 => none
    | depth + 1 => inlineTable (value depth) rest
  | 't' :: 'r' :: 'u' :: 'e' :: rest => some (.boolean true, rest)
  | 'f' :: 'a' :: 'l' :: 's' :: 'e' :: rest => some (.boolean false, rest)
  | cs => ((string cs).map fun (s, rest) => (.string s, rest)).or (number cs)

/-! ### Statements -/

def header (cs : List Char) : Option (Statement × List Char) := do
  let ((path, key), rest) ← key cs
  let rest ← char ']' rest
  return (.table path key, ← lineEnd rest)

def elementHeader (cs : List Char) : Option (Statement × List Char) := do
  let ((path, key), rest) ← key cs
  let rest ← char ']' rest
  let rest ← char ']' rest
  return (.element path key, ← lineEnd rest)

/-- A line that holds at most a comment gives no statement. -/
def statement (cs : List Char) : Option (Option Statement × List Char) :=
  match skipWs cs with
  | '[' :: '[' :: rest => (elementHeader rest).map fun (s, rest) => (some s, rest)
  | '[' :: rest => (header rest).map fun (s, rest) => (some s, rest)
  | cs =>
    match lineEnd cs with
    | some rest => some (none, rest)
    | none => do
      let (((path, key), v), rest) ← pair (value (nestingLimit - 1)) cs
      return (some (.pair path key v), ← lineEnd rest)

end Scan

/-! ### Errors -/

/-- Why a text is no document: a line that cannot be read, or a statement that contradicts an earlier one. -/
inductive Error where
  | syntaxError (line : Nat)
  | conflict (key : String)
  | shape
deriving DecidableEq, Repr

def Error.message : Error → String
  | .syntaxError line => "TOML parse error at line " ++ Decimal.ofNat line
  | .conflict key => "TOML parse error: `" ++ key ++ "` cannot be defined here"
  | .shape => "TOML parse error: unexpected keys or types"

/-- Cuts a text into statements. -/
def statements (line : Nat) (cs : List Char) : Except Error (List Statement) :=
  match cs with
  | [] => .ok []
  | cs =>
    match Scan.statement cs with
    | none => .error (.syntaxError line)
    | some (s, rest) =>
      if rest.length < cs.length then
        let taken := cs.take (cs.length - rest.length)
        match statements (line + taken.count '\n') rest with
        | .error e => .error e
        | .ok more => .ok (s.toList ++ more)
      else .error (.syntaxError line)
termination_by cs.length

/-! ### The table of a document -/

/-- The table under construction and the path to where pairs are added. -/
structure Builder where
  root : Fields
  current : List String

namespace Builder

def empty : Builder := ⟨[], []⟩

def add? (b : Builder) : Statement → Option Builder
  | .pair path key v =>
    (modifyAt false b.current (insertPair path key v) .header b.root).map fun root => { b with root := root }
  | .table path key =>
    (modifyAt false path (fun _ => openTable key) .header b.root).map fun root => ⟨root, path ++ [key]⟩
  | .element path key =>
    (modifyAt false path (fun _ => openElement key) .header b.root).map fun root => ⟨root, path ++ [key]⟩

def add (b : Builder) (s : Statement) : Except Error Builder :=
  match b.add? s with
  | some b => .ok b
  | none => .error (.conflict s.key)

end Builder

def ofStatements (ss : List Statement) : Except Error Fields :=
  (ss.foldlM Builder.add Builder.empty).map Builder.root

/-- A byte order mark may stand before the first line. -/
def dropMark : List Char → List Char
  | '\uFEFF' :: cs => cs
  | cs => cs

def parse (text : String) : Except Error Fields :=
  match statements 1 (dropMark text.toList) with
  | .error e => .error e
  | .ok ss => ofStatements ss

end StackMachine.Toml
