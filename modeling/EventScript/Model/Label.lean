import EventScript.Diagnostic
import EventScript.Model.Entry

namespace EventScript

inductive ResolutionCause where
  | undefinedLabel (name : String)
  | duplicateLabel (name : String)
  | missingTarget
  | duplicateTarget
  | duplicateEntry (entry : EntryPoint)
  | stageEventInGlobals
  | libraryInStage
  deriving DecidableEq, Repr

structure ResolutionError where
  cause : ResolutionCause
  span : Option Span
  deriving DecidableEq, Repr

namespace ResolutionCause

def reason : ResolutionCause → String
  | undefinedLabel _ => "UndefinedLabel"
  | duplicateLabel _ => "DuplicateLabel"
  | missingTarget => "MissingTarget"
  | duplicateTarget => "DuplicateTarget"
  | duplicateEntry _ => "DuplicateEntryPoint"
  | stageEventInGlobals | libraryInStage => "ScopeMismatch"

def message : ResolutionCause → String
  | undefinedLabel name => "undefined label: '" ++ name ++ "'"
  | duplicateLabel name => "label is defined more than once: '" ++ name ++ "'"
  | missingTarget =>
    "missing target specifier: the script must begin with .stage or .globals"
  | duplicateTarget => "duplicate target specifier"
  | duplicateEntry entry => "duplicate entry point '" ++ entry.toText ++ "'"
  | stageEventInGlobals => "globals scripts cannot define stage events"
  | libraryInStage => "stage scripts cannot define library functions"

def isWritable : ResolutionCause → Bool
  | duplicateEntry entry => entry.isWritable
  | _ => true

def label? : ResolutionCause → Option String
  | undefinedLabel name | duplicateLabel name => some name
  | _ => none

end ResolutionCause

def ResolutionError.diagnostic (e : ResolutionError) : Diagnostic where
  kind := "resolution error"
  reason := e.cause.reason
  message := e.cause.message
  span := e.span

/-- A block, and a place among its items. -/
structure Binding where
  block : Nat
  offset : Nat
  deriving DecidableEq, Repr

structure LabelTable where
  bindings : List (String × Binding) := []
  references : List (String × Option Span) := []
  deriving DecidableEq, Repr

namespace LabelTable

def get? (t : LabelTable) (name : String) : Option Binding :=
  (t.bindings.find? (·.1 == name)).map (·.2)

def contains (t : LabelTable) (name : String) : Bool := (t.get? name).isSome

def names (t : LabelTable) : List String := t.bindings.map (·.1)

def declare (t : LabelTable) (name : String) (binding : Binding) (span : Option Span) :
    Except ResolutionError LabelTable :=
  if t.contains name then .error ⟨.duplicateLabel name, span⟩
  else .ok { t with bindings := t.bindings ++ [(name, binding)] }

def reference (t : LabelTable) (name : String) (span : Option Span) : LabelTable :=
  { t with references := t.references ++ [(name, span)] }

/-- Fails at the first reference that names no declared label. -/
def resolveAll (t : LabelTable) : Except ResolutionError Unit :=
  match t.references.find? fun (name, _) => !t.contains name with
  | some (name, span) => .error ⟨.undefinedLabel name, span⟩
  | none => .ok ()

def resolve (t : LabelTable) (name : String) : Except ResolutionError Binding :=
  match t.get? name with
  | some binding => .ok binding
  | none => .error ⟨.undefinedLabel name, none⟩

end LabelTable

end EventScript
