import EventScript.Text.Numeral

namespace EventScript

inductive StageEvent where
  | prologue
  | startup
  | dead
  | pose
  | timeCycle
  | timeUp
  deriving DecidableEq, Repr

namespace StageEvent

def name : StageEvent → String
  | prologue => "prologue"
  | startup => "startup"
  | dead => "dead"
  | pose => "pose"
  | timeCycle => "time_cycle"
  | timeUp => "time_up"

def all : List StageEvent := [prologue, startup, dead, pose, timeCycle, timeUp]

def ofName? (s : String) : Option StageEvent := all.find? (·.name == s)

end StageEvent

inductive EntryPoint where
  | event (event : StageEvent)
  | interact (object : Int)
  | library (index : Int)
  deriving DecidableEq, Repr

inductive EntryError where
  | unknownRole (role : String)
  | wrongKey (role : String) (key : Option Int)
  | numeral (error : Text.NumeralError)
  deriving DecidableEq, Repr

def EntryError.message : EntryError → String
  | unknownRole role => "unknown entry point role " ++ Text.display role
  | wrongKey role key =>
    let told (shown : String) := "entry point " ++ Text.display role ++ " has a wrong key: " ++ shown
    match key with
    | some k =>
      if Text.Numeral.isWritable k then told (toString k) else Text.NumeralError.unwritable.message
    | none => told "None"
  | numeral error => error.message

namespace EntryPoint

def interactRole : String := "interact"

def libraryRole : String := "lib"

def role : EntryPoint → String
  | event e => e.name
  | interact _ => interactRole
  | library _ => libraryRole

def key : EntryPoint → Option Int
  | event _ => none
  | interact k | library k => some k

def isStageEvent : EntryPoint → Bool
  | library _ => false
  | _ => true

def isWritable (e : EntryPoint) : Bool := e.key.all Text.Numeral.isWritable

def toText (e : EntryPoint) : String :=
  match e.key with
  | some k => e.role ++ ":" ++ toString k
  | none => e.role

def make (role : String) (key : Option Int) : Except EntryError EntryPoint :=
  if role == interactRole then
    match key with
    | some k => .ok (.interact k)
    | none => .error (.wrongKey role key)
  else if role == libraryRole then
    match key with
    | some k => .ok (.library k)
    | none => .error (.wrongKey role key)
  else match StageEvent.ofName? role, key with
    | some e, none => .ok (.event e)
    | some _, some _ => .error (.wrongKey role key)
    | none, _ => .error (.unknownRole role)

/-- Reads `startup`, `interact:20` or `lib:3`. A colon with nothing after it counts for nothing. -/
def parse (text : String) : Except EntryError EntryPoint :=
  let (role, rest) := text.toList.span (· != ':')
  let role := String.ofList role
  match rest.drop 1 with
  | [] => make role none
  | key => match Text.Numeral.parse .prefixed (String.ofList key) with
    | .ok k => make role (some k)
    | .error e => .error (.numeral e)

def roleRank : EntryPoint → Nat
  | event e => e.ctorIdx
  | interact _ => 6
  | library _ => 7

def tableLe (a b : EntryPoint) : Bool :=
  a.roleRank < b.roleRank || (a.roleRank == b.roleRank && a.key.getD 0 ≤ b.key.getD 0)

def savedLe (a b : EntryPoint) : Bool :=
  a.role < b.role || (a.role == b.role && a.key.getD 0 ≤ b.key.getD 0)

end EntryPoint

abbrev EntryTable := List (EntryPoint × Int)

namespace EntryTable

def put (t : EntryTable) (entry : EntryPoint) (offset : Int) : EntryTable :=
  if t.any (·.1 == entry) then t.map fun p => if p.1 == entry then (entry, offset) else p
  else t ++ [(entry, offset)]

/-- Of an entry point that is given twice, the last offset counts. -/
def ofList (pairs : List (EntryPoint × Int)) : EntryTable :=
  pairs.foldl (fun t (entry, offset) => t.put entry offset) []

end EntryTable

inductive Target where
  | globals
  | stage (name : String)
  deriving DecidableEq, Repr

structure TargetError where
  text : String
  deriving DecidableEq, Repr

def TargetError.message (e : TargetError) : String :=
  "bad target " ++ Text.display e.text ++ ": expected 'globals' or 'stage:NAME'"

namespace Target

def isGlobals : Target → Bool
  | globals => true
  | stage _ => false

def toText : Target → String
  | globals => "globals"
  | stage name => "stage:" ++ name

def parse (text : String) : Except TargetError Target :=
  if text == "globals" then .ok .globals
  else
    let (kind, rest) := text.toList.span (· != ':')
    match rest.drop 1 with
    | [] => .error ⟨text⟩
    | name => if kind == "stage".toList then .ok (.stage (String.ofList name)) else .error ⟨text⟩

end Target

end EventScript
