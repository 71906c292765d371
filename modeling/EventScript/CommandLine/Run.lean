import EventScript.CommandLine.Arguments
import EventScript.CommandLine.Event
import EventScript.Source.Printer

/-!
A run of the command line: arguments and a folder in; a status, reports, tables and the folder
afterwards out. A file that fails does not stop the others, unless its failure ends the run. Then the
files that no worker has taken up yet are cancelled.
-/

namespace EventScript.CommandLine

structure Table where
  title : String
  columns : List String
  rows : List (List String)

structure Session where
  folder : Folder
  events : List Event := []

/-- Work on one file. What was written before a failure stays. -/
abbrev Work := ExceptT Failure (StateM Session)

namespace Work

def report (events : List Event) : Work Unit :=
  modify fun s => { s with events := s.events ++ events }

def ofScript {α : Type} (result : Except Error α) : Work α :=
  ExceptT.mk (pure (result.mapError .script))

def ofFile {α : Type} (result : Except FileError α) : Work α :=
  ExceptT.mk (pure (result.mapError .file))

end Work

def unifyLineEnds : List Char → List Char
  | [] => []
  | '\r' :: '\n' :: rest => '\n' :: unifyLineEnds rest
  | '\r' :: rest => '\n' :: unifyLineEnds rest
  | c :: rest => c :: unifyLineEnds rest

def decodeText? (bytes : Bytes) : Option String :=
  (String.fromUTF8? ⟨bytes.toArray⟩).map fun text => String.ofList (unifyLineEnds text.toList)

def encodeText (text : String) : Bytes := text.toUTF8.data.toList

namespace Work

def readBytes (p : Path) : Work Bytes := do ofFile ((← get).folder.read p)

def contains (p : Path) : Work Bool := do ofFile ((← get).folder.contains p)

def readText (p : Path) : Work String := do
  match decodeText? (← readBytes p) with
  | some text => return text
  | none => throw .encoding

def write (p : Path) (bytes : Bytes) : Work Unit := do
  let folder ← ofFile ((← get).folder.write p bytes)
  modify fun s => { s with folder }

def makeFolder (p : Path) : Work Unit := do
  let (folder, result) := (← get).folder.make p
  modify fun s => { s with folder }
  ofFile result

def parse (text : String) : Work Script := do
  report (Event.ofParse text)
  ofScript (Script.parse text)

def assemble (s : Script) (limit : Nat) : Work Assembled := do
  report (Event.ofAssemble s limit)
  ofScript (s.assemble limit)

def disassemble (data : Bytes) (seeds : List Seed) (target : Option Target) (limit : Nat) :
    Work Script := do
  report (Event.ofDisassemble data seeds target limit)
  ofScript (Script.disassemble data seeds target limit)

def verify (s : Script) (data : Bytes) (limit : Nat) : Work Unit := do
  report (Event.ofAssemble s limit)
  ofScript (s.verify data limit)

def entryFileName (p : Path) : String := p.stem ++ ".entries.json"

def readEntryFile (p : Path) : Work (Option EntryFile) := do
  let beside := p.withName (entryFileName p)
  if ← contains beside then
    let text ← readText beside
    return some (← ExceptT.mk (pure ((EntryFile.parse text).mapError .entryFile)))
  return none

end Work

namespace Request

def limit (r : Request) : Nat := r.maxPasses.toNat

def outFolder (r : Request) : Path := Path.ofText r.outdir

def savedEntryFile (s : Script) (a : Assembled) : EntryFile :=
  ⟨s.target, a.entries.map fun (entry, address) => (entry, (address : Int))⟩

def assembleFile (r : Request) (p : Path) : Work (List Path) := do
  Work.report [.assembling p.name]
  Work.makeFolder r.outFolder
  let script ← Work.parse (← Work.readText p)
  let a ← Work.assemble script r.limit
  let bytecode := r.outFolder.child (p.stem ++ ".bin")
  let entryFile := r.outFolder.child (Work.entryFileName p)
  Work.write bytecode a.bytes
  let text ← Work.ofScript ((savedEntryFile script a).print.mapError .numeral)
  Work.write entryFile (encodeText text)
  return [bytecode, entryFile]

/-- The seeds and the target for a bytecode file. Those of the command line win over its entry file;
without either, reading starts at the first byte. -/
def sources (r : Request) (saved : Option EntryFile) : List Seed × Option Target :=
  match saved with
  | some f =>
    (f.entries.map fun (entry, offset) => (some entry, offset), r.target.or (some f.target))
  | none => (if r.seeds.isEmpty then [(none, 0)] else r.seeds, r.target)

def savedEntries (r : Request) (p : Path) : Work (Option EntryFile) :=
  if r.seeds.isEmpty then Work.readEntryFile p else return none

def writeSource (r : Request) (p : Path) (data : Bytes) (seeds : List Seed) (target : Option Target) :
    Work (List Path) := do
  let script ← Work.disassemble data seeds target defaultPasses
  if r.verify then Work.verify script data defaultPasses
  let source := r.outFolder.child (p.stem ++ ".asm")
  let text ← Work.ofScript script.print
  Work.write source (encodeText text)
  return [source]

/-- Writes the source of a bytecode file. A file without a target is a stage of its name. -/
def disassembleFile (r : Request) (p : Path) : Work (List Path) := do
  Work.report [.disassembling p.name]
  Work.makeFolder r.outFolder
  let data ← Work.readBytes p
  let saved ← r.savedEntries p
  if let some f := saved then
    Work.report [.readEntries f.entries.length (Work.entryFileName p)]
  let (seeds, target) := r.sources saved
  r.writeSource p data seeds (target.or (some (.stage p.stem)))

structure Summary where
  size : Nat
  blocks : Nat
  entries : Nat
  deriving DecidableEq, Repr

def isBytecode (p : Path) : Bool := p.suffix.toLower == ".bin"

def checkFile (r : Request) (p : Path) : Work Summary := do
  if isBytecode p then
    let data ← Work.readBytes p
    let (seeds, target) := r.sources (← r.savedEntries p)
    let script ← Work.disassemble data seeds target r.limit
    Work.verify script data r.limit
    return ⟨data.length, script.blocks.length, script.entries.length⟩
  let script ← Work.parse (← Work.readText p)
  let a ← Work.assemble script r.limit
  return ⟨a.bytes.length, script.blocks.length, a.entries.length⟩

end Request

def endsRun {α : Type} : Except Failure α → Bool
  | .error failure => failure.endsRun
  | .ok _ => false

/-- Works on the files one after the other. Once the run has `ended`, only the next `taken` of them are
still worked on. -/
def runFiles {α : Type} (work : Path → Work α) :
    Nat → Bool → Session → List Path → Session × List (Path × Except Failure α)
  | _, _, session, [] => (session, [])
  | taken, ended, session, p :: rest =>
    if ended && taken == 0 then (session, [])
    else
      let (result, session) := (work p).run.run session
      let (session, results) := runFiles work (taken - 1) (ended || endsRun result) session rest
      (session, (p, result) :: results)

structure Outcome where
  status : Except Failure Nat
  events : List Event := []
  tables : List Table := []
  folder : Folder

def fatal? {α : Type} (results : List (Path × Except Failure α)) : Option Failure :=
  results.findSome? fun
    | (_, .error failure) => if failure.endsRun then some failure else none
    | (_, .ok _) => none

def statusOf {α : Type} (results : List (Path × Except Failure α)) : Nat :=
  if results.any fun (_, result) => !result.toBool then 1 else 0

def failedEvent (folder : Folder) (activity : Option String) (p : Path) (failure : Failure) :
    Event :=
  .failed activity p.name failure ((folder.read p).toOption.bind decodeText?)

def writtenEvents (activity : String) (folder : Folder)
    (results : List (Path × Except Failure (List Path))) : List Event :=
  results.flatMap fun
    | (_, .ok paths) => paths.map .wrote
    | (p, .error failure) => [failedEvent folder (some activity) p failure]

def checkRow (name : String) : Except Failure Request.Summary → List String
  | .ok s => [name, toString s.size, toString s.blocks, toString s.entries, "ok"]
  | .error _ => [name, "-", "-", "-", "failed"]

def checkTable (results : List (Path × Except Failure Request.Summary)) : Table where
  title := "Check"
  columns := ["File", "Size", "Blocks", "Entries", "Status"]
  rows := results.map fun (p, result) => checkRow p.name result

def checkEvents (folder : Folder) (results : List (Path × Except Failure Request.Summary)) :
    List Event :=
  results.filterMap fun
    | (_, .ok _) => none
    | (p, .error failure) => some (failedEvent folder none p failure)

namespace Table

def widths (t : Table) : List Nat :=
  (t.columns :: t.rows).foldl (fun ws row => ws.zipWith max (row.map String.length))
    (t.columns.map fun _ => 0)

def rowText (widths : List Nat) (row : List String) : String :=
  "  ".intercalate
    ((widths.zip row).map fun (w, cell) => String.ofList (cell.toList.rightpad w ' '))

def toText (t : Table) : String :=
  "\n".intercalate (t.title :: (t.columns :: t.rows).map (rowText t.widths))

end Table

def formsText (c : Command) : String :=
  "\n".intercalate (c.shapes.map fun shape =>
    if shape.isEmpty then "-" else ", ".intercalate (shape.map Slot.describe))

def commandRow (verbose : Bool) (c : Command) : List String :=
  ["0x" ++ Text.hexPadded 2 c.code.toNat, c.name, c.category.name,
    if verbose then formsText c else toString c.shapes.length ++ " form(s)"]

def commandTable (verbose : Bool) (category : Option Category) : Table where
  title := "Commands"
  columns := ["Code", "Name", "Category", "Operands"]
  rows := (Command.all.filter fun c => category.all (· == c.category)).map (commandRow verbose)

namespace Request

def finish {α : Type} (session : Session) (results : List (Path × Except Failure α))
    (events : List Event) (tables : List Table) : Outcome :=
  match fatal? results with
  | some failure => { status := .error failure, events := session.events, folder := session.folder }
  | none =>
    { status := .ok (statusOf results), events := session.events ++ events, tables,
      folder := session.folder }

def batch {α : Type} (work : Path → Work α)
    (say : Folder → List (Path × Except Failure α) → List Event)
    (tables : List (Path × Except Failure α) → List Table) (folder : Folder) (taken : Nat)
    (paths : List Path) : Outcome :=
  let (session, results) := runFiles work taken false ⟨folder, []⟩ paths
  finish session results (say session.folder results) (tables results)

/-- Does what is asked for. The first `taken` files are worked on even if one of them ends the run. -/
def execute (r : Request) (folder : Folder) (taken : Nat) : Outcome :=
  let paths := r.files.map Path.ofText
  match r.action with
  | .assemble => batch r.assembleFile (writtenEvents "assembling") (fun _ => []) folder taken paths
  | .disassemble => batch r.disassembleFile (writtenEvents "disassembling") (fun _ => []) folder taken paths
  | .check => batch r.checkFile checkEvents (fun results => [checkTable results]) folder taken paths
  | .opcodes => { status := .ok 0, tables := [commandTable r.verbose r.category], folder }

def paths (r : Request) : List Path :=
  let files := r.files.map Path.ofText
  let beside := files.map fun p => p.withName (Work.entryFileName p)
  let made := files.flatMap fun p =>
    [p.stem ++ ".bin", Work.entryFileName p, p.stem ++ ".asm"].map r.outFolder.child
  (files ++ beside ++ r.outFolder :: made).flatMap fun p =>
    (List.range p.parts.length).map fun n => { p with parts := p.parts.take (n + 1) }

/-- The outcome with the reports that were asked for: progress only if verbose. If nothing else is
said, all files are taken up before the first of them is done. -/
def run (r : Request) (folder : Folder) (taken : Nat := r.files.length) : Outcome :=
  let outcome := r.execute folder taken
  { outcome with events := outcome.events.filter fun e => r.verbose || e.level == .error }

end Request

def usage : String :=
  "commands: " ++ ", ".intercalate (Action.all.map Action.name)
    ++ "\noptions: "
    ++ ", ".intercalate ((Action.all.flatMap Action.settings).eraseDups.map Setting.long)

def run (arguments : List String) (folder : Folder) (taken : Nat := arguments.length) : Outcome :=
  match parse arguments with
  | .error stop => { status := .ok stop.status, folder }
  | .ok request => request.run folder taken

end EventScript.CommandLine
