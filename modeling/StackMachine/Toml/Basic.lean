/-!
# TOML data

The values of a TOML document.  A table remembers how it came to be, because that decides what may still be added to
it:

* an *inline* table is complete where it is written;
* a *header* table was opened by its own header and takes key/value pairs only below that header;
* an *implied* table was named on the way to another header, and may get a header of its own later;
* a *dotted* table was named by a dotted key, and further dotted keys may add to it.

An array of tables grows by one element with each of its headers; any other array is complete.
-/

namespace StackMachine

inductive TableKind where
  | inline | header | implied | dotted
deriving DecidableEq, Repr

inductive Toml where
  | string (s : String)
  | integer (n : Int64)
  | float
  | datetime
  | boolean (b : Bool)
  | array (growing : Bool) (items : List Toml)
  | table (kind : TableKind) (fields : List (String × Toml))
deriving Repr

namespace Toml

/-- The fields of a table, in the order in which they first appeared. -/
abbrev Fields := List (String × Toml)

def lookup (fields : Fields) (key : String) : Option Toml := List.lookup key fields

/-- Replaces the value of a key that is present. -/
def replace (fields : Fields) (key : String) (v : Toml) : Fields :=
  fields.map fun (k, old) => if k = key then (k, v) else (k, old)

/-! ### Reading typed values -/

def string? : Toml → Option String
  | string s => some s
  | _ => none

def integer? : Toml → Option Int64
  | integer n => some n
  | _ => none

/-- An integer that is not negative. -/
def natural? : Toml → Option Nat
  | integer n => if 0 ≤ n.toInt then some n.toInt.toNat else none
  | _ => none

def boolean? : Toml → Option Bool
  | boolean b => some b
  | _ => none

/-- An array all of whose elements can be read. -/
def listOf? (read : Toml → Option α) : Toml → Option (List α)
  | array _ items => items.mapM read
  | _ => none

/-- The value of a key that may be missing. -/
def field? (fields : Fields) (key : String) (read : Toml → Option α) (missing : Option α) : Option α :=
  match lookup fields key with
  | some v => read v
  | none => missing

/-- Whether every key is one of those expected. -/
def keysAmong (fields : Fields) (keys : List String) : Bool := fields.all fun (k, _) => keys.contains k

/-- One of a few names, written as a string or as a table whose only key is the name and whose value is empty. -/
def name? (ofName? : String → Option α) : Toml → Option α
  | string s => ofName? s
  | table _ [(s, table _ [])] | table _ [(s, array _ [])] => ofName? s
  | _ => none

/-! ### Building tables -/

/-- Whether dotted keys may add to a table of this kind. -/
def TableKind.isOpen : TableKind → Bool
  | .implied | .dotted => true
  | .inline | .header => false

/-- Changes the table at the end of a path, making the tables on the way that are missing.  The last element stands for
an array of tables.  Along a dotted key (`dotted`) only tables without a header can be passed. -/
def modifyAt (dotted : Bool) : List String → (TableKind → Fields → Option Fields) → TableKind → Fields → Option Fields
  | [], change, kind, fields => change kind fields
  | key :: path, change, _, fields =>
    match lookup fields key with
    | none =>
      let kind : TableKind := if dotted then .dotted else .implied
      (modifyAt dotted path change kind []).map fun inner => fields ++ [(key, table kind inner)]
    | some (table kind inner) =>
      if kind = .inline ∨ (dotted ∧ !TableKind.isOpen kind) then none
      else (modifyAt dotted path change kind inner).map fun inner => replace fields key (table kind inner)
    | some (array true items) =>
      match items.getLast? with
      | some (table kind inner) =>
        (modifyAt dotted path change kind inner).map fun inner =>
          replace fields key (array true (items.dropLast ++ [table kind inner]))
      | _ => none
    | some _ => none

/-- Adds a key/value pair.  A dotted key must end in a table made by dotted keys, a plain one must not. -/
def insertPair (path : List String) (key : String) (v : Toml) : TableKind → Fields → Option Fields :=
  modifyAt true path fun kind fields =>
    if (kind == .dotted) == path.isEmpty then none
    else if (lookup fields key).isSome then none
    else some (fields ++ [(key, v)])

/-- Opens a table under its own header, once. -/
def openTable (key : String) (fields : Fields) : Option Fields :=
  match lookup fields key with
  | none => some (fields ++ [(key, table .header [])])
  | some (table .implied inner) => some (replace fields key (table .header inner))
  | some _ => none

/-- Adds an element to an array of tables. -/
def openElement (key : String) (fields : Fields) : Option Fields :=
  match lookup fields key with
  | none => some (fields ++ [(key, array true [table .header []])])
  | some (array true items) => some (replace fields key (array true (items ++ [table .header []])))
  | some _ => none

end Toml

end StackMachine
