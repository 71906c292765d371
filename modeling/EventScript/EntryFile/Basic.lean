import EventScript.EntryFile.Json
import EventScript.Model.Entry

namespace EventScript

structure EntryFile where
  target : Target
  entries : EntryTable
  deriving DecidableEq, Repr

inductive EntryFileError where
  | json (error : JsonError)
  | notObject
  | noTarget
  | targetNotText
  | target (error : TargetError)
  | entriesNotObject
  | entry (error : EntryError)
  | offset (error : Text.NumeralError)
  | offsetNotNumber
  | offsetInfinite
  | offsetUndefined
  deriving DecidableEq, Repr

namespace EntryFile

def targetKey : String := "target"

def entriesKey : String := "entries"

end EntryFile

def EntryFileError.message : EntryFileError → String
  | json .malformed => "malformed document"
  | json (.numeral e) | offset e => e.message
  | notObject => "the document is not an object"
  | noTarget => Text.display EntryFile.targetKey
  | targetNotText => "the target is not a string"
  | target e => e.message
  | entriesNotObject => "the entries are not an object"
  | entry e => e.message
  | offsetNotNumber => "an offset is not a number"
  | offsetInfinite => "an offset is infinite"
  | offsetUndefined => "cannot convert float NaN to integer"

namespace EntryFile

/-- Offsets may be numbers of any kind, truth values, or decimal numerals. -/
def offset : Json → Except EntryFileError Int
  | .bool value => .ok (if value then 1 else 0)
  | .integer value => .ok value
  | .decimal value =>
    match value.truncate with
    | some n => .ok n
    | none => .error .offsetInfinite
  | .infinity => .error .offsetInfinite
  | .notANumber => .error .offsetUndefined
  | .string text => (Text.Numeral.parse .decimal text).mapError .offset
  | .null | .array _ | .object _ => .error .offsetNotNumber

def readEntry (member : String × Json) : Except EntryFileError (EntryPoint × Int) := do
  let entry ← (EntryPoint.parse member.1).mapError .entry
  return (entry, ← offset member.2)

def readTarget (members : List (String × Json)) : Except EntryFileError Target :=
  match Json.get? members targetKey with
  | none => .error .noTarget
  | some (.string text) => (Target.parse text).mapError .target
  | some _ => .error .targetNotText

def readEntries (members : List (String × Json)) : Except EntryFileError EntryTable :=
  match Json.get? members entriesKey with
  | none => .ok []
  | some (.object entries) => (entries.mapM readEntry).map EntryTable.ofList
  | some _ => .error .entriesNotObject

def parse (text : String) : Except EntryFileError EntryFile := do
  match ← (Json.parse text).mapError .json with
  | .object members =>
    let target ← readTarget members
    return ⟨target, ← readEntries members⟩
  | _ => .error .notObject

def sortedEntries (f : EntryFile) : EntryTable := f.entries.mergeSort fun a b => a.1.savedLe b.1

def writeEntry (entry : EntryPoint × Int) : String :=
  "\n    " ++ Json.writeString entry.1.toText ++ ": " ++ toString entry.2

def writeEntries (entries : EntryTable) : String :=
  if entries.isEmpty then "\x7b\x7d"
  else "\x7b" ++ ",".intercalate (entries.map writeEntry) ++ "\n  \x7d"

def toText (f : EntryFile) : String :=
  "\x7b\n  " ++ Json.writeString targetKey ++ ": " ++ Json.writeString f.target.toText ++ ",\n  "
    ++ Json.writeString entriesKey ++ ": " ++ writeEntries f.sortedEntries ++ "\n\x7d\n"

/-- Writes an entry file, unless one of its numbers has too many digits. -/
def print (f : EntryFile) : Except Text.NumeralError String :=
  if f.entries.all fun (entry, offset) => entry.isWritable && Text.Numeral.isWritable offset then
    .ok f.toText
  else .error .unwritable

end EntryFile

end EventScript
