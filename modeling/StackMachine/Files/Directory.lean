import StackMachine.Files

/-!
# A directory

A working directory as a list of files and of folders, each with the names that lead to it; what a file lies in is a
folder too.  A path is followed name by name: what it passes through has to be a folder, a name has at most `nameLimit`
bytes, and the whole path is shorter than `pathLimit`.  Outside the directory only the usual folders of a system and its
null device are known.
-/

namespace StackMachine

structure Directory where
  files : List (List String × ByteArray)
  folders : List (List String)

namespace Directory

def nameLimit : Nat := 255

def pathLimit : Nat := 4096

/-- The names on a path.  An empty one, as at the end of a path with a final slash, stands for where it is. -/
def names (path : String) : List String := (path.splitOn "/").map fun name => if name.isEmpty then "." else name

/-- The directory with these files, named by their paths. -/
def ofFiles (files : List (String × ByteArray)) : Directory :=
  ⟨files.map fun (path, bytes) => ((names path).filter (· ≠ "."), bytes), []⟩

/-- The file with exactly these names. -/
def file? (d : Directory) (place : List String) : Option ByteArray := d.files.lookup place

/-- Whether these names lead to a folder. -/
def isFolder (d : Directory) (place : List String) : Bool :=
  place.isEmpty || d.folders.contains place
    || d.files.any fun (name, _) => place.length < name.length && place.isPrefixOf name

/-- Whether a name moves within what is already known. -/
def isDots (name : String) : Bool := name = "." || name = ".."

/-- What becomes of names above the directory, where nothing is known. -/
def above (names : List String) : ReadError :=
  match names.find? (!isDots ·) with
  | none => .directory
  | some name => if nameLimit < name.utf8ByteSize then .nameTooLong else .notFound

/-- Follows names from the place that `place` leads to. -/
def follow (d : Directory) (place : List String) : List String → Except ReadError ByteArray
  | [] =>
    match d.file? place with
    | some bytes => .ok bytes
    | none => .error .directory
  | name :: rest =>
    if !d.isFolder place then .error .notDirectory
    else if name = "." then follow d place rest
    else if name = ".." then
      if place.isEmpty then .error (above rest) else follow d place.dropLast rest
    else if nameLimit < name.utf8ByteSize then .error .nameTooLong
    else
      let next := place ++ [name]
      if d.isFolder next || (d.file? next).isSome then follow d next rest else .error .notFound

/-- What is known outside. -/
def root : Directory :=
  ⟨[(["dev", "null"], .empty)],
    ["bin", "boot", "etc", "home", "lib", "media", "mnt", "opt", "proc", "root", "run", "sbin", "srv", "sys", "tmp",
      "usr", "var"].map fun name => [name]⟩

/-- Reads the file at a path, which starts at the root if it begins with a slash. -/
def read (d : Directory) : Reader := fun path =>
  if pathLimit ≤ path.utf8ByteSize then .error .nameTooLong
  else if path.startsWith "/" then root.follow [] (names path)
  else d.follow [] (names path)

end Directory

end StackMachine
