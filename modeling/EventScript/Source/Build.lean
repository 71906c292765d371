import EventScript.Model.Script
import EventScript.Source.Item

namespace EventScript

open SourceItem (failAt)

def invalidOperand {α : Type} (opcode : String) (index : Nat) (span : Option Span)
    (fault : OperandFault) : Except Error α :=
  .error (.parse ⟨.invalidOperand opcode index fault, span⟩)

namespace MessageCommand

def addText (done : List MessageCommand) (bytes : Bytes) (span commandSpan : Option Span) :
    List MessageCommand :=
  let start := done ++ [⟨MessageOp.textName, [.text bytes span], commandSpan⟩]
  match done.getLast? with
  | some ⟨op, [.text before s], cs⟩ =>
    if op == MessageOp.textName then
      let joined := s.map fun a => a.joinOption span
      done.dropLast ++ [⟨op, [.text (before ++ bytes) joined], cs⟩]
    else start
  | _ => start

def dropWidth : Operand → Operand
  | .int value _ span => .int value none span
  | o => o

/-- Checks the commands of a message from `index` on and joins neighbouring runs of text. Empty runs
are dropped. -/
def normalize (opcode : String) :
    Nat → List MessageCommand → List MessageCommand → Except Error (List MessageCommand)
  | _, done, [] => .ok done
  | index, done, command :: rest =>
    if command.op == MessageOp.textName then
      match command.args with
      | .text bytes span :: _ =>
        if bytes.isEmpty then normalize opcode (index + 1) done rest
        else match bytes.find? fun b => !MessageOp.isTextByte b with
          | some b => invalidOperand opcode index command.span (.commandByte b)
          | none => normalize opcode (index + 1) (addText done bytes span command.span) rest
      | _ :: _ => .error (.fault .notText)
      | [] => .error (.fault .missingText)
    else
      let shapes := ((MessageOp.ofName? command.op).map (·.shapes)).getD []
      match Shape.choose Slot.acceptsField command.op shapes command.args with
      | .error e =>
        invalidOperand opcode index command.span (.messageMismatch command.op e.cause)
      | .ok _ =>
        normalize opcode (index + 1)
          (done ++ [{ command with args := command.args.map dropWidth }]) rest

end MessageCommand

inductive EntrySlot where
  | label
  | integer

namespace EntrySlot

def check (name : String) (span : Span) :
    List EntrySlot → Nat → List Operand → Except Error Unit
  | [], _, [] => .ok ()
  | [], index, extra :: _ => invalidOperand ("." ++ name) index extra.span .tooMany
  | _ :: _, index, [] => invalidOperand ("." ++ name) index (some span) .tooFew
  | .label :: slots, index, o :: os =>
    match o with
    | .label _ none false _ => check name span slots (index + 1) os
    | .label _ (some _) false s => invalidOperand ("." ++ name) index s .labelWidth
    | _ => invalidOperand ("." ++ name) index o.span .notLabel
  | .integer :: slots, index, o :: os =>
    match o with
    | .int .. => check name span slots (index + 1) os
    | _ => invalidOperand ("." ++ name) index o.span .notInteger

end EntrySlot

def Data.takes (width : Width) : Operand → Bool
  | .int .. => true
  | .text .. => width == .byte
  | .label _ _ isElse _ | .offset _ _ isElse _ => width == .long && !isElse
  | _ => false

def Data.check (width : Width) : Nat → List Operand → Except Error Unit
  | _, [] => .ok ()
  | index, o :: os =>
    if Data.takes width o then Data.check width (index + 1) os
    else invalidOperand ("." ++ width.directive) index o.span (.unsupportedValue width.directive)

namespace Target

def isDirective (name : String) : Bool := name == "stage" || name == "globals"

def ofDirective (name : String) (operands : List Operand) (span : Span) : Except Error Target :=
  if name == "globals" then
    match operands with
    | [] => .ok .globals
    | o :: _ => invalidOperand ".globals" 0 o.span .tooMany
  else
    match operands with
    | [.text bytes _] => .ok (.stage (Text.decodeText bytes))
    | .text _ _ :: o :: _ => invalidOperand ".stage" 1 o.span .tooMany
    | _ => failAt .missingStageName span

end Target

namespace Script

/-- Adds an item to the last block. Items that precede every label get a block of their own. -/
def addSourceItem (s : Script) (item : Item) : Except Error Script := do
  let s ← if s.blocks.isEmpty then s.addBlock ("$" ++ toString s.blocks.length) else pure s
  return s.addItem (s.blocks.length - 1) item

def addReferences (s : Script) (operands : List Operand) : Script :=
  operands.foldl (fun s o => match o with
    | .label name _ _ span => s.addReference name span
    | _ => s) s

def addData (s : Script) (width : Width) (values : List Operand) (span : Span) :
    Except Error Script := do
  if values.isEmpty then invalidOperand ("." ++ width.directive) 0 (some span) .noValues
  Data.check width 0 values
  (s.addReferences values).addSourceItem (.data ⟨width, values, some span⟩)

def addEntryAt (s : Script) (entry : EntryPoint) (label : Option Operand) (span : Span) :
    Except Error Script :=
  match label with
  | some (.label name _ _ labelSpan) => (s.addReference name labelSpan).addEntry entry name span
  | _ => .ok s

def addDirective (s : Script) (name : String) (operands : List Operand) (span : Span) :
    Except Error Script :=
  if Target.isDirective name then .error (.resolution ⟨.duplicateTarget, some span⟩)
  else if let some event := StageEvent.ofName? name then do
    EntrySlot.check name span [.label] 0 operands
    s.addEntryAt (.event event) operands.getLast? span
  else if name == EntryPoint.interactRole || name == EntryPoint.libraryRole then do
    EntrySlot.check name span [.integer, .label] 0 operands
    match operands with
    | .int key _ _ :: rest =>
      let entry := if name == EntryPoint.libraryRole then .library key else .interact key
      s.addEntryAt entry rest.getLast? span
    | _ => .ok s
  else if let some width := Width.ofDirective? name then s.addData width operands span
  else failAt (.unknownDirective name) span

/-- The operands of a command, checked and brought to the form that the model keeps: references in
else slots are marked, messages are normalized. -/
def commandOperands (c : Command) (operands : List Operand) (span : Span) :
    Except Error (List Operand) :=
  if c.layout == .message then
    match operands with
    | .message commands messageSpan :: rest => do
      let commands ← MessageCommand.normalize c.name 0 [] commands
      return .message commands messageSpan :: rest
    | _ => .ok operands
  else match c.shapeOf operands with
    | .error e =>
      let place := match operands[e.index]? with
        | some o => o.span
        | none => some span
      invalidOperand c.name e.index place (.mismatch e.cause)
    | .ok shape => .ok (operands.mapIdx fun index o =>
        if shape.slotAt index == some .elsePointer then o.markElse else o)

def checkTerminators (opcode : String) : Nat → List Operand → Except Error Unit
  | _, [] => .ok ()
  | index, o :: os =>
    if o.isTerminator then invalidOperand opcode index o.span .terminator
    else checkTerminators opcode (index + 1) os

def addStatement (s : Script) (opcode : String) (operands : List Operand) (span : Span) :
    Except Error Script :=
  match Command.ofName? opcode with
  | none => failAt (.unknownCommand opcode) span
  | some c => do
    let operands ← commandOperands c operands span
    if c.layout == .terminated then checkTerminators opcode 1 (operands.drop 1)
    (s.addReferences (Operand.walkAll operands)).addSourceItem
      (.instruction ⟨opcode, operands, some span⟩)

def addSource (s : Script) : SourceItem → Except Error Script
  | .label name span => s.addBlock name span
  | .directive name operands span => s.addDirective name operands span
  | .statement opcode operands span => s.addStatement opcode operands span

def ofItems : List SourceItem → Except Error Script
  | .directive name operands span :: rest => do
    if !Target.isDirective name then throw (.resolution ⟨.missingTarget, some span⟩)
    let target ← Target.ofDirective name operands span
    let script ← rest.foldlM addSource { target }
    script.labels.resolveAll
    return script
  | item :: _ => .error (.resolution ⟨.missingTarget, some item.span⟩)
  | [] => .error (.resolution ⟨.missingTarget, none⟩)

def parse (text : String) : Except Error Script := do
  ofItems (← SourceItem.parse text)

end Script

end EventScript
