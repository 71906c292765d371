import EventScript.Recovery.Structure
import EventScript.Bytecode.Layout

namespace EventScript

structure SeedError where
  text : String
  cause : EntryError
  deriving DecidableEq, Repr

def SeedError.message (e : SeedError) : String :=
  "bad entry " ++ Text.display e.text ++ ": " ++ e.cause.message

def Seed.parse (text : String) : Except SeedError Seed := do
  let after := text.toList.reverse.takeWhile (· != '=')
  let role := (text.toList.reverse.drop (after.length + 1)).reverse
  let entry ←
    if text.toList.contains '=' then
      ((EntryPoint.parse (String.ofList role)).map some).mapError (SeedError.mk text)
    else pure none
  let offset ← (Text.Numeral.parse .prefixed (String.ofList after.reverse)).mapError fun e =>
    SeedError.mk text (.numeral e)
  return (entry, offset)

namespace CommandLine

inductive Setting where
  | help
  | verbose
  | outdir
  | jobs
  | maxPasses
  | entry
  | target
  | verify
  | category
  deriving DecidableEq, Repr

namespace Setting

def short? : Setting → Option Char
  | help => some 'h'
  | verbose => some 'v'
  | outdir => some 'o'
  | jobs => some 'j'
  | _ => none

def long : Setting → String
  | help => "--help"
  | verbose => "--verbose"
  | outdir => "--outdir"
  | jobs => "--jobs"
  | maxPasses => "--max-passes"
  | entry => "--entry"
  | target => "--target"
  | verify => "--verify"
  | category => "--category"

def takesValue : Setting → Bool
  | help | verbose | verify => false
  | _ => true

end Setting

inductive Action where
  | assemble
  | disassemble
  | check
  | opcodes
  deriving DecidableEq, Repr

namespace Action

def name : Action → String
  | assemble => "assemble"
  | disassemble => "disassemble"
  | check => "check"
  | opcodes => "opcodes"

def all : List Action := [assemble, disassemble, check, opcodes]

def ofName? (name : String) : Option Action := all.find? (·.name == name)

def takesFiles : Action → Bool
  | opcodes => false
  | _ => true

def settings (a : Action) : List Setting :=
  [.help, .verbose, .outdir, .jobs, .maxPasses] ++ match a with
    | assemble => []
    | disassemble => [.entry, .target, .verify]
    | check => [.entry, .target]
    | opcodes => [.category]

end Action

structure Request where
  action : Action
  verbose : Bool := false
  outdir : String := ""
  maxPasses : Int := defaultPasses
  seeds : List Seed := []
  target : Option Target := none
  verify : Bool := false
  category : Option Category := none
  files : List String := []
  deriving DecidableEq, Repr

inductive Stop where
  | help
  | usage
  deriving DecidableEq, Repr

def Stop.status : Stop → Nat
  | help => 0
  | usage => 2

inductive Attached where
  | nothing
  | equals (text : String)
  | joined (text : String)
  deriving DecidableEq, Repr

inductive Argument where
  | value (text : String)
  | separator
  | option (setting : Setting) (attached : Attached)
  | unknown
  deriving DecidableEq, Repr

def splitEquals (text : String) : String × Attached :=
  match text.toList.span (· != '=') with
  | (name, _ :: value) => (String.ofList name, .equals (String.ofList value))
  | (name, []) => (String.ofList name, .nothing)

def settingNamed? (settings : List Setting) (name : String) : Option Setting :=
  settings.find? fun s => s.long == name || s.short?.any fun c => String.ofList ['-', c] == name

def settingOfShort? (settings : List Setting) (c : Char) : Option Setting :=
  settings.find? (·.short? == some c)

/-- A minus sign and digits, with a point between or before them or without one. A line end may
follow. -/
def isNegativeNumber (cs : List Char) : Bool :=
  match cs with
  | '-' :: body =>
    let body := if body.getLast? == some '\n' then body.dropLast else body
    match body.span Text.isDecimal with
    | (whole, []) => !whole.isEmpty
    | (_, '.' :: fraction) => !fraction.isEmpty && fraction.all Text.isDecimal
    | _ => false
  | _ => false

def classify (settings : List Setting) (text : String) : Except Stop Argument :=
  let (name, attached) := splitEquals text
  match text.toList, settingNamed? settings text, settingNamed? settings name with
  | '-' :: _ :: _, some s, _ => .ok (.option s .nothing)
  | '-' :: _ :: _, none, some s => .ok (.option s attached)
  | '-' :: '-' :: _, none, none =>
    match settings.filter fun s => name.toList.isPrefixOf s.long.toList with
    | [s] => .ok (.option s attached)
    | [] => .ok (if text.toList.contains ' ' then .value text else .unknown)
    | _ => .error .usage
  | '-' :: c :: rest, none, none =>
    match settingOfShort? settings c with
    | some s => .ok (.option s (.joined (String.ofList rest)))
    | none =>
      if isNegativeNumber text.toList || text.toList.contains ' ' then .ok (.value text)
      else .ok .unknown
  | _, _, _ => .ok (.value text)

def classifyAll (settings : List Setting) : List String → Except Stop (List Argument)
  | [] => .ok []
  | "--" :: rest => .ok (.separator :: rest.map .value)
  | text :: rest => do
    let first ← classify settings text
    return first :: (← classifyAll settings rest)

/-- The options that one argument stands for: flags, and at most one option with a value, which may
still have to come. `isStrange` if it ends with letters that are no options. -/
structure Expansion where
  flags : List Setting := []
  last : Option (Setting × Option String) := none
  isStrange : Bool := false

/-- The short options that are joined to a flag. Nothing may be attached to a flag by an equals
sign. -/
def cluster (settings : List Setting) (flag : Setting) : List Char → Option Expansion
  | [] => some { flags := [flag] }
  | c :: rest =>
    match settingOfShort? settings c with
    | none => if c == '-' then none else some { flags := [flag], isStrange := true }
    | some s =>
      if s.takesValue then
        let value := match rest with
          | [] => none
          | '=' :: text => some (String.ofList text)
          | text => some (String.ofList text)
        some { flags := [flag], last := some (s, value) }
      else if rest.head? == some '=' then none
      else (cluster settings s rest).map fun e => { e with flags := flag :: e.flags }

def expand (settings : List Setting) (s : Setting) (attached : Attached) : Option Expansion :=
  if s.takesValue then
    some { last := some (s, match attached with
      | .nothing => none
      | .equals text | .joined text => some text) }
  else match attached with
    | .nothing => some { flags := [s] }
    | .equals _ => none
    | .joined text => cluster settings s text.toList

namespace Request

def setFlag (r : Request) : Setting → Except Stop Request
  | .help => .error .help
  | .verbose => .ok { r with verbose := true }
  | .verify => .ok { r with verify := true }
  | _ => .ok r

def valueOf {ε α : Type} (result : Except ε α) : Except Stop α := result.mapError fun _ => .usage

def setValue (r : Request) (s : Setting) (text : String) : Except Stop Request :=
  match s with
  | .outdir => .ok { r with outdir := text }
  | .jobs => do
    let _ ← valueOf (Text.Numeral.parse .decimal text)
    return r
  | .maxPasses => do return { r with maxPasses := ← valueOf (Text.Numeral.parse .decimal text) }
  | .entry => do return { r with seeds := r.seeds ++ [← valueOf (Seed.parse text)] }
  | .target => do return { r with target := some (← valueOf (Target.parse text)) }
  | .category =>
    match Category.ofName? text with
    | some c => .ok { r with category := some c }
    | none => .error .usage
  | _ => .ok r

end Request

inductive FilePlace where
  | before
  | inside
  | after
  deriving DecidableEq, Repr

/-- Takes the arguments one after the other. What has no place is noted and is bad usage in the end,
unless help is asked for first. -/
def process (r : Request) (place : FilePlace) (misplaced : Bool) (arguments : List Argument) :
    Except Stop Request :=
  match arguments with
  | [] => if misplaced || (r.action.takesFiles && r.files.isEmpty) then .error .usage else .ok r
  | .unknown :: rest => process r (if place = .before then .before else .after) true rest
  | .separator :: rest =>
    process r place (misplaced || !r.action.takesFiles || place == .after) rest
  | .value text :: rest =>
    if r.action.takesFiles && place != .after then
      process { r with files := r.files ++ [text] } .inside misplaced rest
    else process r place true rest
  | .option s attached :: rest =>
    let place := if place = .before then .before else FilePlace.after
    match expand r.action.settings s attached with
    | none => .error .usage
    | some ⟨flags, none, isStrange⟩ => do
      process (← flags.foldlM Request.setFlag r) place (misplaced || isStrange) rest
    | some ⟨flags, some (s, some text), _⟩ => do
      process (← (← flags.foldlM Request.setFlag r).setValue s text) place misplaced rest
    | some ⟨flags, some (s, none), _⟩ =>
      match rest with
      | .value text :: rest => do
        process (← (← flags.foldlM Request.setFlag r).setValue s text) place misplaced rest
      | _ => .error .usage
termination_by arguments.length

def parseAction (a : Action) (arguments : List String) : Except Stop Request := do
  process { action := a } .before false (← classifyAll a.settings arguments)

/-- Reads a whole command line. Before the action, only help can be asked for. -/
def parse : List String → Except Stop Request
  | [] => .error .usage
  | "--" :: _ => .error .usage
  | text :: rest => do
    match ← classify [.help] text with
    | .value name =>
      match Action.ofName? name with
      | some a => parseAction a rest
      | none => .error .usage
    | .option s attached =>
      .error (if (expand [.help] s attached).isSome then .help else .usage)
    | .unknown =>
      match parse rest with
      | .error stop => .error stop
      | .ok _ => .error .usage
    | .separator => .error .usage

end CommandLine

end EventScript
