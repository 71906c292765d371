import EventScript.Model.Label
import EventScript.Model.Operand

namespace EventScript

structure Block where
  label : String
  items : List Item := []

/-- A block of items that no label precedes; its label is not printed. -/
def Block.isSynthetic (b : Block) : Bool := b.label.toList.head? == some '$'

structure Script where
  target : Target
  blocks : List Block := []
  entries : List (EntryPoint × String) := []
  labels : LabelTable := {}

namespace Script

def addBlock (s : Script) (label : String) (span : Option Span := none) :
    Except ResolutionError Script := do
  let labels ← s.labels.declare label ⟨s.blocks.length, 0⟩ span
  return { s with labels, blocks := s.blocks ++ [⟨label, []⟩] }

def addItem (s : Script) (block : Nat) (item : Item) : Script :=
  { s with blocks := s.blocks.modify block fun b => { b with items := b.items ++ [item] } }

def clearBlock (s : Script) (block : Nat) : Script :=
  { s with blocks := s.blocks.modify block fun b => { b with items := [] } }

/-- An entry point can be given once, and only in the scope it belongs to: library functions to the
globals, all others to a stage. -/
def addEntry (s : Script) (entry : EntryPoint) (label : String) (span : Option Span := none) :
    Except ResolutionError Script :=
  if s.entries.any (·.1 == entry) then .error ⟨.duplicateEntry entry, span⟩
  else if entry.isStageEvent && s.target.isGlobals then .error ⟨.stageEventInGlobals, span⟩
  else if !entry.isStageEvent && !s.target.isGlobals then .error ⟨.libraryInStage, span⟩
  else .ok { s with entries := s.entries ++ [(entry, label)] }

def addReference (s : Script) (name : String) (span : Option Span := none) : Script :=
  { s with labels := s.labels.reference name span }

def entryPoints (s : Script) : List (EntryPoint × String) :=
  s.entries.mergeSort fun a b => a.1.tableLe b.1

def items (s : Script) : List Item := s.blocks.flatMap (·.items)

/-- Equality of scripts, with spans, label bindings and the order of the entries left aside. -/
def same (s t : Script) : Bool :=
  s.target == t.target
    && s.blocks.length == t.blocks.length
    && (s.blocks.zip t.blocks).all (fun (b, c) => b.label == c.label
      && b.items.length == c.items.length && (b.items.zip c.items).all fun (i, j) => i.same j)
    && s.entries.length == t.entries.length
    && s.entries.all t.entries.contains

end Script

end EventScript
