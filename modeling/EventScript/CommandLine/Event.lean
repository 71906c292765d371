import EventScript.CommandLine.Folder
import EventScript.EntryFile.Basic
import EventScript.Recovery.Disassemble
import EventScript.Source.Build

namespace EventScript.CommandLine

inductive Failure where
  | script (error : Error)
  | entryFile (error : EntryFileError)
  | file (error : FileError)
  | encoding

namespace Failure

/-- The failure is none of a single file but ends the whole run. -/
def endsRun : Failure → Bool
  | script (.fault (.unnamedTarget _)) | script (.fault (.unknownAtom _)) => false
  | script (.fault _) => true
  | entryFile .notObject | entryFile .targetNotText | entryFile .entriesNotObject
  | entryFile .offsetNotNumber | entryFile .offsetInfinite => true
  | _ => false

def detail (f : Failure) (source : Option String := none) : String :=
  match f with
  | script e => e.describe source
  | entryFile e => e.message
  | file e => e.message
  | encoding => "not UTF-8 text"

end Failure

inductive Level where
  | debug
  | error
  deriving DecidableEq, Repr

def Level.name : Level → String
  | debug => "DEBUG"
  | error => "ERROR"

inductive Event where
  | assembling (file : String)
  | disassembling (file : String)
  | parsed (blocks entries : Nat)
  | widened (pass pointers : Nat)
  | settled (passes size : Nat)
  | assembled (blocks size : Nat)
  | decoded (instructions starts : Nat)
  | recovered (blocks : Nat)
  | pinned (pointers : Nat)
  | stable (rounds : Nat)
  | readEntries (count : Nat) (file : String)
  | wrote (path : Path)
  | failed (activity : Option String) (file : String) (failure : Failure) (source : Option String)

namespace Event

def level : Event → Level
  | failed .. => .error
  | _ => .debug

def failureText (activity : Option String) (file detail : String) : String :=
  (activity.elim "" fun verb => "Error " ++ verb ++ " ") ++ file ++ ": " ++ detail

def text : Event → String
  | assembling file => "Assembling " ++ file ++ "…"
  | disassembling file => "Disassembling " ++ file ++ "…"
  | parsed blocks entries =>
    "parsed " ++ toString blocks ++ " block(s), " ++ toString entries ++ " entry point(s)"
  | widened pass pointers =>
    "pass " ++ toString pass ++ " widened " ++ toString pointers ++ " operand(s)"
  | settled passes size =>
    "layout settled after " ++ toString passes ++ " pass(es): " ++ toString size ++ " bytes"
  | assembled blocks size =>
    "assembled " ++ toString blocks ++ " block(s) into " ++ toString size ++ " bytes"
  | decoded instructions starts =>
    "decoded " ++ toString instructions ++ " instruction(s) from " ++ toString starts ++ " start(s)"
  | recovered blocks => "recovered " ++ toString blocks ++ " block(s)"
  | pinned pointers => "pinned " ++ toString pointers ++ " address width(s)"
  | stable rounds => "address widths stable after " ++ toString rounds ++ " round(s)"
  | readEntries count file => "read " ++ toString count ++ " entry point(s) from " ++ file
  | wrote path => "  → " ++ path.toText
  | failed activity file failure source => failureText activity file (failure.detail source)

def ofPasses (passes : List Code) : List Event :=
  passes.mapIdx fun index c =>
    match c.growing.length with
    | 0 => .settled (index + 1) c.size
    | grown => .widened (index + 1) grown

def ofLayout (s : Script) (limit : Nat) : List Event :=
  match s.lower with
  | .ok code => ofPasses (code.passes limit)
  | .error _ => []

def ofParse (text : String) : List Event :=
  match Script.parse text with
  | .ok s => [.parsed s.blocks.length s.entries.length]
  | .error _ => []

def ofAssemble (s : Script) (limit : Nat) : List Event :=
  ofLayout s limit ++ match s.assemble limit with
    | .ok a => [.assembled s.blocks.length a.bytes.length]
    | .error _ => []

def ofPins (s : Script) (limit : Nat) (round : Nat) : Nat → List Pin → List Event
  | 0, _ => []
  | rounds + 1, pins =>
    let loose := s.loosen pins
    ofLayout loose limit ++ match loose.layout limit with
      | .error _ => []
      | .ok l =>
        match s.missingPins pins l with
        | [] => [.stable round]
        | missing =>
          .pinned missing.length :: ofPins s limit (round + 1) rounds (pins ++ missing)

def ofDisassemble (data : Bytes) (seeds : List Seed) (target : Option Target) (limit : Nat) :
    List Event :=
  match Recovery.ofSeeds data seeds with
  | .error _ => []
  | .ok r =>
    .decoded r.code.length r.startCount :: match Script.recover r seeds target with
      | .error _ => []
      | .ok s => .recovered s.blocks.length :: ofPins s limit 1 s.pinRounds []

end Event

end EventScript.CommandLine
