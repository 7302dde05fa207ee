/-!
# Files

The program reads whole files as UTF-8 text.  How a path leads to bytes is left to a `Reader`.
-/

namespace StackMachine

/-- Why a path gives no text. -/
inductive ReadError where
  | notFound
  | directory
  | notDirectory
  | nameTooLong
  | notText
deriving DecidableEq, Repr

def ReadError.message : ReadError → String
  | .notFound => "No such file or directory (os error 2)"
  | .directory => "Is a directory (os error 21)"
  | .notDirectory => "Not a directory (os error 20)"
  | .nameTooLong => "File name too long (os error 36)"
  | .notText => "stream did not contain valid UTF-8"

/-- What is said of a path that cannot be read. -/
def ReadError.at (path : String) (e : ReadError) : String := "failed to read " ++ path ++ ": " ++ e.message

abbrev Reader := String → Except ReadError ByteArray

def Reader.text (read : Reader) (path : String) : Except ReadError String :=
  match read path with
  | .error e => .error e
  | .ok bytes =>
    match String.fromUTF8? bytes with
    | some s => .ok s
    | none => .error .notText

end StackMachine
