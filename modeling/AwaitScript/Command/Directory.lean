import AwaitScript.Text.Quoted

/-!
A working directory: files and the folders they are in. A path leads from folder to folder, and only its
last part may be the name of something else. Nothing is known of the folders above.
-/

namespace AwaitScript

abbrev Bytes := List UInt8

inductive PathError where
  | missing (path : Text)
  | isDirectory (path : Text)
  | notDirectory (path : Text)
deriving DecidableEq, Repr

def PathError.message : PathError → String
  | missing path => "[Errno 2] No such file or directory: " ++ quoted path
  | isDirectory path => "[Errno 21] Is a directory: " ++ quoted path
  | notDirectory path => "[Errno 20] Not a directory: " ++ quoted path

/-- Names from the working directory down. A place above it starts with `..`, and a place below the root
with the slash. -/
abbrev Location := List Text

structure Directory where
  files : List (Location × Bytes)
  folders : List Location := []
deriving DecidableEq, Repr

def Location.root : Location := ["/"]

def Location.enter (here : Location) (name : Text) : Location :=
  if name = "." then here
  else if name = ".." then
    if here.all (· = "..") then here ++ [name] else if here = root then here else here.dropLast
  else here ++ [name]

namespace Directory

def find? (d : Directory) (location : Location) : Option Bytes :=
  (d.files.find? fun file => file.1 = location).map Prod.snd

/-- The folders are the working directory and those above it, those that are listed, and all that anything
is in. -/
def isFolder (d : Directory) (location : Location) : Bool :=
  location.all (fun name => name = ".." || name = "/") ||
    d.folders.any (fun folder => location.isPrefixOf folder) ||
    d.files.any fun file => location.isPrefixOf file.1 && location ≠ file.1

def names (path : Text) : List Text := (path.splitOn (.scalar '/')).filter (· ≠ [])

/-- Goes through some names, each of which is looked up in a folder. -/
def follow (d : Directory) (path : Text) (here : Location) : List Text → Except PathError Location
  | [] => .ok here
  | name :: names =>
    if d.isFolder here then follow d path (here.enter name) names
    else if (d.find? here).isSome then .error (.notDirectory path)
    else .error (.missing path)

def resolve (d : Directory) (path : Text) : Except PathError Location :=
  if path = [] then .error (.missing path)
  else follow d path (if path.head? = some (.scalar '/') then .root else []) (names path)

def endsInSlash (path : Text) : Bool := path.getLast? = some (.scalar '/')

def read (d : Directory) (path : Text) : Except PathError Bytes := do
  let location ← d.resolve path
  if d.isFolder location then throw (.isDirectory path)
  match d.find? location with
  | none => throw (.missing path)
  | some bytes => if endsInSlash path then throw (.notDirectory path) else return bytes

def put (d : Directory) (location : Location) (bytes : Bytes) : Directory :=
  if (d.find? location).isSome then
    { d with files := d.files.map fun file => (file.1, if file.1 = location then bytes else file.2) }
  else { d with files := d.files ++ [(location, bytes)] }

def write (d : Directory) (path : Text) (bytes : Bytes) : Except PathError Directory := do
  let location ← d.resolve path
  if d.isFolder location || endsInSlash path then throw (.isDirectory path)
  return d.put location bytes

def changes (before d : Directory) : List (Location × Bytes) :=
  d.files.filter fun file => !before.files.contains file

end Directory
end AwaitScript
