import StackMachine.Toml.Basic
import StackMachine.Word

/-!
# Scalars of TOML

Scanners take the front of a text and return what they read with the rest.  Those here read blanks and comments,
strings, numbers and dates.

The values of floats and dates are not kept: nothing that is read from a document takes one.
-/

namespace StackMachine.Toml

abbrev Scanner (α : Type) := List Char → Option (α × List Char)

namespace Scan

/-! ### Characters -/

def isWs (c : Char) : Bool := c == ' ' || c == '\t'

def isControl (c : Char) : Bool := c.toNat < 0x20 || c.toNat == 0x7F

/-- What a comment may hold. -/
def isCommentChar (c : Char) : Bool := c == '\t' || !isControl c

/-- What a literal string may hold besides its delimiter. -/
def isLiteralChar (c : Char) : Bool := c != '\'' && (c == '\t' || !isControl c)

/-- What a basic string may hold unescaped. -/
def isBasicChar (c : Char) : Bool := c != '"' && c != '\\' && (c == '\t' || !isControl c)

def isBareKeyChar (c : Char) : Bool := c.isAlphanum || c == '-' || c == '_'

def isHexDigit (c : Char) : Bool := c.isDigit || ('a' ≤ c && c ≤ 'f') || ('A' ≤ c && c ≤ 'F')

def isOctDigit (c : Char) : Bool := '0' ≤ c && c ≤ '7'

def isBinDigit (c : Char) : Bool := c == '0' || c == '1'

def digitValue (c : Char) : Nat :=
  if c.isDigit then c.toNat - '0'.toNat
  else if 'a' ≤ c then c.toNat - 'a'.toNat + 10
  else c.toNat - 'A'.toNat + 10

def ofDigits (base : Nat) (ds : List Char) : Nat := ds.foldl (fun n d => base * n + digitValue d) 0

/-! ### Blanks -/

def skipWs (cs : List Char) : List Char := cs.dropWhile isWs

def newline : List Char → Option (List Char)
  | '\n' :: cs => some cs
  | '\r' :: '\n' :: cs => some cs
  | _ => none

def skipComment : List Char → List Char
  | '#' :: cs => cs.dropWhile isCommentChar
  | cs => cs

/-- The rest of a line: blanks, perhaps a comment, and the end of the line or of the text. -/
def lineEnd (cs : List Char) : Option (List Char) :=
  match skipComment (skipWs cs) with
  | [] => some []
  | cs => newline cs

/-- Blanks, line ends and comments. -/
def skipBlank (inComment : Bool) : List Char → List Char
  | '\r' :: '\n' :: cs => skipBlank false cs
  | c :: cs =>
    if inComment && isCommentChar c then skipBlank true cs
    else if c == '\n' || isWs c then skipBlank false cs
    else if c == '#' then skipBlank true cs
    else c :: cs
  | [] => []

/-! ### Strings -/

/-- The character of a code point, which must be a Unicode scalar value. -/
def unicode (ds : List Char) : Option Char :=
  let n := ofDigits 16 ds
  if ds.all isHexDigit ∧ n.isValidChar then some (Char.ofNat n) else none

def escape : Char → Option Char
  | 'b' => some '\x08'
  | 't' => some '\t'
  | 'n' => some '\n'
  | 'f' => some '\x0C'
  | 'r' => some '\r'
  | '"' => some '"'
  | '\\' => some '\\'
  | _ => none

/-- Puts a character in front of what the rest of a string reads as. -/
def consChar (c : Option Char) (rest : Option (List Char × List Char)) : Option (List Char × List Char) := do
  let c ← c
  let (s, cs) ← rest
  return (c :: s, cs)

/-- A basic string after its opening quote. -/
def basicBody : Scanner (List Char)
  | '"' :: cs => some ([], cs)
  | '\\' :: 'u' :: a :: b :: c :: d :: cs => consChar (unicode [a, b, c, d]) (basicBody cs)
  | '\\' :: 'U' :: a :: b :: c :: d :: e :: f :: g :: h :: cs =>
    consChar (unicode [a, b, c, d, e, f, g, h]) (basicBody cs)
  | '\\' :: c :: cs => consChar (escape c) (basicBody cs)
  | c :: cs => if isBasicChar c then consChar (some c) (basicBody cs) else none
  | [] => none

/-- A multi-line basic string after its opening quotes and first line end.  Up to two quotes may stand before the
closing three.  A backslash at the end of a line removes all blanks up to the next character (`trim`). -/
def mlBasicBody (trim : Bool) : Scanner (List Char)
  | '"' :: '"' :: '"' :: '"' :: '"' :: cs => some (['"', '"'], cs)
  | '"' :: '"' :: '"' :: '"' :: cs => some (['"'], cs)
  | '"' :: '"' :: '"' :: cs => some ([], cs)
  | '\r' :: '\n' :: cs => if trim then mlBasicBody true cs else consChar (some '\n') (mlBasicBody false cs)
  | '\\' :: 'u' :: a :: b :: c :: d :: cs => consChar (unicode [a, b, c, d]) (mlBasicBody false cs)
  | '\\' :: 'U' :: a :: b :: c :: d :: e :: f :: g :: h :: cs =>
    consChar (unicode [a, b, c, d, e, f, g, h]) (mlBasicBody false cs)
  | '\\' :: c :: cs =>
    if (newline (skipWs (c :: cs))).isSome then mlBasicBody true cs
    else consChar (escape c) (mlBasicBody false cs)
  | c :: cs =>
    if trim && (c == '\n' || isWs c) then mlBasicBody true cs
    else if c == '"' || c == '\n' || isBasicChar c then consChar (some c) (mlBasicBody false cs)
    else none
  | [] => none

/-- A multi-line literal string after its opening quotes and first line end. -/
def mlLiteralBody : Scanner (List Char)
  | '\'' :: '\'' :: '\'' :: '\'' :: '\'' :: cs => some (['\'', '\''], cs)
  | '\'' :: '\'' :: '\'' :: '\'' :: cs => some (['\''], cs)
  | '\'' :: '\'' :: '\'' :: cs => some ([], cs)
  | '\r' :: '\n' :: cs => consChar (some '\n') (mlLiteralBody cs)
  | c :: cs =>
    if c == '\'' || c == '\n' || isLiteralChar c then consChar (some c) (mlLiteralBody cs) else none
  | [] => none

/-- A literal string after its opening quote. -/
def literalBody (cs : List Char) : Option (List Char × List Char) :=
  match cs.dropWhile isLiteralChar with
  | '\'' :: rest => some (cs.takeWhile isLiteralChar, rest)
  | _ => none

/-- A string of one line. -/
def shortString : Scanner String
  | '"' :: cs => (basicBody cs).map fun (s, rest) => (String.ofList s, rest)
  | '\'' :: cs => (literalBody cs).map fun (s, rest) => (String.ofList s, rest)
  | _ => none

/-- A line end right after the opening quotes is not part of a multi-line string. -/
def dropNewline (cs : List Char) : List Char := (newline cs).getD cs

def string : Scanner String
  | '"' :: '"' :: '"' :: cs => (mlBasicBody false (dropNewline cs)).map fun (s, rest) => (String.ofList s, rest)
  | '\'' :: '\'' :: '\'' :: cs => (mlLiteralBody (dropNewline cs)).map fun (s, rest) => (String.ofList s, rest)
  | cs => shortString cs

/-! ### Numbers -/

/-- Digits after the first; an underscore may stand between two of them. -/
def moreDigits (isDigit : Char → Bool) : List Char → List Char × List Char
  | '_' :: c :: cs =>
    if isDigit c then
      let (ds, rest) := moreDigits isDigit cs
      (c :: ds, rest)
    else ([], '_' :: c :: cs)
  | c :: cs =>
    if isDigit c then
      let (ds, rest) := moreDigits isDigit cs
      (c :: ds, rest)
    else ([], c :: cs)
  | [] => ([], [])

def digits (isDigit : Char → Bool) : Scanner (List Char)
  | c :: cs => if isDigit c then some (let (ds, rest) := moreDigits isDigit cs; (c :: ds, rest)) else none
  | [] => none

/-- Whether a minus sign, and the text after an optional sign. -/
def sign : List Char → Bool × List Char
  | '-' :: cs => (true, cs)
  | '+' :: cs => (false, cs)
  | cs => (false, cs)

/-- Decimal digits without a leading zero. -/
def decimal : Scanner (List Char)
  | '0' :: cs => some (['0'], cs)
  | cs => digits Char.isDigit cs

def integer (cs : List Char) : Option (Int64 × List Char) :=
  let radix (base : Nat) (isDigit : Char → Bool) (cs : List Char) : Option (Int64 × List Char) := do
    let (ds, rest) ← digits isDigit cs
    return (← Word.int64? (ofDigits base ds), rest)
  match cs with
  | '0' :: 'x' :: cs => radix 16 isHexDigit cs
  | '0' :: 'o' :: cs => radix 8 isOctDigit cs
  | '0' :: 'b' :: cs => radix 2 isBinDigit cs
  | cs => do
    let (negative, cs) := sign cs
    let (ds, rest) ← decimal cs
    let n : Int := ofDigits 10 ds
    return (← Word.int64? (if negative then -n else n), rest)

/-- The digits after a decimal point, if there is one. -/
def fraction : List Char → Option (List Char × List Char)
  | '.' :: cs => digits Char.isDigit cs
  | _ => none

/-- The exponent, if there is one. -/
def exponent : List Char → Option (Int × List Char)
  | c :: cs =>
    if c == 'e' || c == 'E' then do
      let (negative, cs) := sign cs
      let (ds, rest) ← digits Char.isDigit cs
      let n : Int := ofDigits 10 ds
      return (if negative then -n else n, rest)
    else none
  | [] => none

/-- Whether `m · 10 ^ e` rounds to a finite number in double precision. -/
def isFinite (m : Nat) (e : Int) : Bool :=
  let limit := Nat.pow 2 1024 - Nat.pow 2 970
  let magnitude : Int := (Nat.toDigits 10 m).length + e
  if m = 0 || magnitude < 300 then true
  else if 320 < magnitude then false
  else if 0 ≤ e then m * Nat.pow 10 e.toNat < limit
  else m < limit * Nat.pow 10 (-e).toNat

/-- A number with a fraction, an exponent or both; too large a positive number is refused. -/
def decimalFloat (cs : List Char) : Option (List Char) := do
  let (negative, cs) := sign cs
  let (ds, cs) ← decimal cs
  let (fs, cs, hasFraction) := match fraction cs with
    | some (fs, rest) => (fs, rest, true)
    | none => ([], cs, false)
  let (e, cs, hasExponent) := match exponent cs with
    | some (e, rest) => (e, rest, true)
    | none => (0, cs, false)
  if (hasFraction || hasExponent) && (negative || isFinite (ofDigits 10 (ds ++ fs)) (e - fs.length)) then
    return cs
  else none

def specialFloat (cs : List Char) : Option (List Char) :=
  match (sign cs).2 with
  | 'i' :: 'n' :: 'f' :: cs => some cs
  | 'n' :: 'a' :: 'n' :: cs => some cs
  | _ => none

def float (cs : List Char) : Option (List Char) := (decimalFloat cs).or (specialFloat cs)

/-! ### Dates and times -/

/-- Exactly `n` digits for a number in a range. -/
def fixedDigits (n low high : Nat) (cs : List Char) : Option (Nat × List Char) :=
  let ds := cs.take n
  let value := ofDigits 10 ds
  if ds.length = n ∧ ds.all Char.isDigit ∧ low ≤ value ∧ value ≤ high then some (value, cs.drop n) else none

def char (c : Char) : List Char → Option (List Char)
  | d :: cs => if c = d then some cs else none
  | [] => none

def daysIn (year month : Nat) : Nat :=
  if month = 2 then if year % 4 = 0 ∧ (year % 100 ≠ 0 ∨ year % 400 = 0) then 29 else 28
  else if month = 4 ∨ month = 6 ∨ month = 9 ∨ month = 11 then 30
  else 31

def date (cs : List Char) : Option (List Char) := do
  let (year, cs) ← fixedDigits 4 0 9999 cs
  let cs ← char '-' cs
  let (month, cs) ← fixedDigits 2 1 12 cs
  let cs ← char '-' cs
  let (_, cs) ← fixedDigits 2 1 (daysIn year month) cs
  return cs

def time (cs : List Char) : Option (List Char) := do
  let (_, cs) ← fixedDigits 2 0 23 cs
  let cs ← char ':' cs
  let (_, cs) ← fixedDigits 2 0 59 cs
  let cs ← char ':' cs
  let (_, cs) ← fixedDigits 2 0 60 cs
  match cs with
  | '.' :: c :: rest => if c.isDigit then return rest.dropWhile Char.isDigit else none
  | '.' :: [] => none
  | cs => return cs

def offset : List Char → Option (List Char)
  | 'Z' :: cs | 'z' :: cs => some cs
  | c :: cs =>
    if c == '+' || c == '-' then do
      let (_, cs) ← fixedDigits 2 0 23 cs
      let cs ← char ':' cs
      let (_, cs) ← fixedDigits 2 0 59 cs
      return cs
    else none
  | [] => none

/-- A date, a time of day, or both with perhaps an offset from universal time. -/
def datetime (cs : List Char) : Option (List Char) :=
  match date cs with
  | none => time cs
  | some cs =>
    match cs with
    | c :: rest =>
      if c == 'T' || c == 't' || c == ' ' then
        match time rest with
        | some rest => some ((offset rest).getD rest)
        | none => some cs
      else some cs
    | [] => some cs

end Scan

end StackMachine.Toml
