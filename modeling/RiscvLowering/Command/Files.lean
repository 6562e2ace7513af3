/-!
# Files

What a command asks of files: to read the text of a path and to write it, either of which may fail.
`Directory` is a directory that holds files only, with the paths that lead from it.
-/

namespace RiscvLowering

/-- Why a file cannot be read or written. -/
inductive FileError where
  /-- The system refuses, for a reason that it words and numbers. -/
  | system (reason : String) (code : Nat)
  /-- The bytes of the file are no text. -/
  | notText
deriving DecidableEq

namespace FileError

def notFound : FileError := system "No such file or directory" 2

def notDirectory : FileError := system "Not a directory" 20

def isDirectory : FileError := system "Is a directory" 21

def message : FileError → String
  | system reason code => reason ++ " (os error " ++ code.repr ++ ")"
  | notText => "stream did not contain valid UTF-8"

end FileError

/-- A directory that holds files only, by name. -/
structure Directory where
  files : List (String × String)
deriving DecidableEq

namespace Directory

/-- Where a path leads. -/
inductive Place where
  | directory
  /-- To a name in the directory, which need not be that of a file. -/
  | name (name : String)
  | nowhere (e : FileError)
deriving DecidableEq

def text? (d : Directory) (name : String) : Option String := d.files.lookup name

/-- Follows the names of a path from the directory on. -/
def follow (d : Directory) : List String → Place
  | [] => .directory
  | name :: rest =>
    if name = "" ∨ name = "." then d.follow rest
    else if rest = [] then .name name
    else if (d.text? name).isSome then .nowhere .notDirectory
    else .nowhere .notFound

/-- Where a path leads. The directories around this one are directories, too, but hold nothing. -/
def place (d : Directory) (path : String) : Place :=
  let names := (path.splitOn "/").filter (fun n => n ≠ "" ∧ n ≠ ".")
  if path.startsWith "/" ∨ names.head? = some ".." then
    if names.all (· = "..") then .directory else .nowhere .notFound
  else d.follow (path.splitOn "/")

def read (d : Directory) (path : String) : Except FileError String :=
  match d.place path with
  | .directory => .error .isDirectory
  | .nowhere e => .error e
  | .name name =>
    match d.text? name with
    | some text => .ok text
    | none => .error .notFound

/-- The directory with a text written to a path. No file is made under a path that ends as that of a
directory does. -/
def write (d : Directory) (path text : String) : Except FileError Directory :=
  match d.place (String.ofList (path.toList.reverse.dropWhile (· = '/')).reverse) with
  | .directory => .error .isDirectory
  | .nowhere e => .error e
  | .name name =>
    if path.endsWith "/" then .error .isDirectory
    else .ok ⟨(name, text) :: d.files.filter (·.1 ≠ name)⟩

/-- The files that are new in a directory or hold another text than before. -/
def changes (before after : Directory) : List (String × String) :=
  after.files.filter fun (name, text) => before.text? name ≠ some text

end Directory

end RiscvLowering
