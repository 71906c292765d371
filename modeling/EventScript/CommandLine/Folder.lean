import EventScript.Width

namespace EventScript.CommandLine

/-- A path without its empty and `.` components. -/
structure Path where
  isAbsolute : Bool
  parts : List String
  deriving DecidableEq, Repr

namespace Path

def splitParts (cs : List Char) : List String :=
  ((cs.splitOn '/').map String.ofList).filter fun part => part != "" && part != "."

def ofText (text : String) : Path := ⟨text.toList.head? == some '/', splitParts text.toList⟩

def toText (p : Path) : String :=
  let body := "/".intercalate p.parts
  if p.isAbsolute then "/" ++ body else if p.parts.isEmpty then "." else body

def name (p : Path) : String := p.parts.getLast?.getD ""

/-- The name without its last suffix, and that suffix with its dot. A dot that starts or ends the
name makes no suffix. -/
def splitName (p : Path) : String × String :=
  let cs := p.name.toList
  let after := cs.reverse.takeWhile (· != '.')
  let before := cs.length - after.length - 1
  if after.length < cs.length ∧ 0 < before ∧ !after.isEmpty then
    (String.ofList (cs.take before), String.ofList (cs.drop before))
  else (p.name, "")

def stem (p : Path) : String := p.splitName.1

def suffix (p : Path) : String := p.splitName.2

def child (p : Path) (name : String) : Path := { p with parts := p.parts ++ [name] }

def withName (p : Path) (name : String) : Path := { p with parts := p.parts.dropLast ++ [name] }

end Path

inductive FileError where
  | notFound
  | notFolder
  | isFolder
  | alreadyThere
  | nameTooLong
  | nulInPath
  deriving DecidableEq, Repr

def FileError.message : FileError → String
  | notFound => "No such file or directory"
  | notFolder => "Not a directory"
  | isFolder => "Is a directory"
  | alreadyThere => "File exists"
  | nameTooLong => "File name too long"
  | nulInPath => "embedded null byte"

/-- Where a file or folder is: its components from the working folder on. Those of an absolute path
start with a slash. -/
abbrev Place := List String

structure Folder where
  files : List (Place × Bytes) := []
  folders : List Place := []

inductive Node where
  | file (bytes : Bytes)
  | folder
  | missing

namespace Folder

def root : String := "/"

def parentPart : String := ".."

/-- The working folder, the root and all that is above them are there without being listed. -/
def isFolder (f : Folder) (place : Place) : Bool :=
  place.all (· == parentPart) || place == [root] || f.folders.contains place

def nodeAt (f : Folder) (place : Place) : Node :=
  if f.isFolder place then .folder
  else match f.files.find? (·.1 == place) with
    | some (_, bytes) => .file bytes
    | none => .missing

def parent (place : Place) : Place :=
  if place == [root] then place
  else if place.all (· == parentPart) then place ++ [parentPart]
  else place.dropLast

def maxNameSize : Nat := 255

def step (f : Folder) (place : Place) (part : String) : Except FileError Place :=
  match f.nodeAt place with
  | .missing => .error .notFound
  | .file _ => .error .notFolder
  | .folder =>
    if maxNameSize < part.utf8ByteSize then .error .nameTooLong
    else if part == parentPart then .ok (parent place)
    else .ok (place ++ [part])

def start (p : Path) : Place := if p.isAbsolute then [root] else []

def locate (f : Folder) (p : Path) : Except FileError Place :=
  if p.parts.any (·.toList.contains '\x00') then .error .nulInPath
  else p.parts.foldlM f.step (start p)

def read (f : Folder) (p : Path) : Except FileError Bytes := do
  match f.nodeAt (← f.locate p) with
  | .file bytes => return bytes
  | .folder => .error .isFolder
  | .missing => .error .notFound

def contains (f : Folder) (p : Path) : Except FileError Bool :=
  match f.locate p with
  | .ok place =>
    match f.nodeAt place with
    | .missing => .ok false
    | _ => .ok true
  | .error .nameTooLong => .error .nameTooLong
  | .error _ => .ok false

def setFile (f : Folder) (place : Place) (bytes : Bytes) : Folder :=
  if f.files.any (·.1 == place) then
    { f with files := f.files.map fun old => if old.1 == place then (place, bytes) else old }
  else { f with files := f.files ++ [(place, bytes)] }

def write (f : Folder) (p : Path) (bytes : Bytes) : Except FileError Folder := do
  let place ← f.locate p
  match f.nodeAt place with
  | .folder => .error .isFolder
  | _ => return f.setFile place bytes

def makePart (f : Folder) (place : Place) (part : String) (isLast : Bool) :
    Folder × Except FileError Place :=
  match f.step place part with
  | .error e => (f, .error e)
  | .ok next =>
    match f.nodeAt next with
    | .folder => (f, .ok next)
    | .file _ => (f, .error (if isLast then .alreadyThere else .notFolder))
    | .missing => ({ f with folders := f.folders ++ [next] }, .ok next)

def makeParts (f : Folder) (place : Place) : List String → Folder × Except FileError Unit
  | [] => (f, .ok ())
  | part :: rest =>
    match f.makePart place part rest.isEmpty with
    | (f, .error e) => (f, .error e)
    | (f, .ok next) => makeParts f next rest

def make (f : Folder) (p : Path) : Folder × Except FileError Unit :=
  if p.parts.any (·.toList.contains '\x00') then (f, .error .nulInPath)
  else f.makeParts (start p) p.parts

def ofFiles (files : List (Path × Bytes)) : Folder :=
  files.foldl (fun f (p, bytes) =>
    let lying := (f.make { p with parts := p.parts.dropLast }).1
    match lying.write p bytes with
    | .ok f => f
    | .error _ => lying) {}

def changes (old f : Folder) : List (Place × Bytes) :=
  f.files.filter fun file => !old.files.contains file

end Folder

end EventScript.CommandLine
