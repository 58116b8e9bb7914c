/-!
The directory that a program runs in, and how a path finds a file there. A path is read one name at
a time: a point stays where it is, two points go back, and any other name goes on to what bears it.
Only a directory can be left by a further step.
-/
namespace ViewUpkeep

inductive FileError where
  | missing
  | notADirectory
  | isADirectory
  | nameTooLong
  /-- A path holds the character that ends texts for the operating system. -/
  | nulInPath
deriving DecidableEq, Repr

def FileError.message : FileError → String
  | .missing => "No such file or directory (os error 2)"
  | .notADirectory => "Not a directory (os error 20)"
  | .isADirectory => "Is a directory (os error 21)"
  | .nameTooLong => "File name too long (os error 36)"
  | .nulInPath => "file name contained an unexpected NUL byte"

namespace Path

/-- The names between the slashes; the second argument is the name being read, backwards. -/
def namesFrom : List Char → List Char → List String
  | [], name => [String.ofList name.reverse]
  | c :: cs, name =>
    if c = '/' then String.ofList name.reverse :: namesFrom cs [] else namesFrom cs (c :: name)

/-- The names of a path, which are empty before a first, after a last and between two slashes. -/
def names (path : String) : List String := namesFrom path.toList []

def steps (path : String) : List String := (names path).filter fun n => n ≠ "" && n ≠ "."

def nameLimit : Nat := 255

def pathLimit : Nat := 4095

end Path

/-- Files by the names that lead to them from the directory. -/
abbrev Directory := List (List String × String)

namespace Directory

def ofFiles (files : List (String × String)) : Directory :=
  files.map fun f => (Path.steps f.1, f.2)

def file? (d : Directory) (place : List String) : Option String :=
  (d.find? fun f => f.1 = place).map Prod.snd

def isDirectory (d : Directory) (place : List String) : Bool :=
  place.isEmpty || d.any fun f => place.isPrefixOf f.1 && f.1 ≠ place

def contents (d : Directory) (place : List String) : Except FileError String :=
  match d.file? place with
  | some text => .ok text
  | none => .error (if d.isDirectory place then .isADirectory else .missing)

/-- What becomes of names that lead on from outside. Nothing is known there but that one can stay
and go back. -/
def outside (names : List String) : FileError :=
  if names.all fun n => n = "" || n = "." || n = ".." then .isADirectory else .missing

def follow (d : Directory) (place : List String) : List String → Except FileError String
  | [] => d.contents place
  | name :: rest =>
    if (d.file? place).isSome then .error .notADirectory
    else if !d.isDirectory place then .error .missing
    else if name = "" || name = "." then d.follow place rest
    else if name = ".." then
      if place.isEmpty then .error (outside rest) else d.follow place.dropLast rest
    else if Path.nameLimit < name.utf8ByteSize then .error .nameTooLong
    else d.follow (place ++ [name]) rest

def read (d : Directory) (path : String) : Except FileError String :=
  if path.toList.contains '\x00' then .error .nulInPath
  else if Path.pathLimit < path.utf8ByteSize then .error .nameTooLong
  else if path = "" then .error .missing
  else if path.toList.head? = some '/' then .error (outside (Path.names path))
  else d.follow [] (Path.names path)

end Directory

end ViewUpkeep
