import EventScript.Model.Operand
import EventScript.Vocabulary.Command
import EventScript.Vocabulary.MessageOp
import EventScript.Vocabulary.Operator

namespace EventScript

namespace Operand

def isInt : Operand → Bool
  | int .. => true
  | _ => false

def isReference : Operand → Bool
  | label .. | offset .. => true
  | _ => false

/-- Whether the operand has a value: not an else target, nor a compound assignment. -/
def isExpression : Operand → Bool
  | label _ _ isElse _ | offset _ _ isElse _ => !isElse
  | expr op _ _ => !Operator.isAssignment op
  | int .. => true
  | _ => false

/-- Whether the operand is stored as the bytes that close the argument list of an animation: -1 in
any width, or 255 in eight bits. -/
def isTerminator : Operand → Bool
  | expr op [int value _ _] _ => op == "i8" && (value == -1 || value == 255)
  | int value width _ => value == -1 || (value == 255 && width == some .byte)
  | _ => false

end Operand

namespace Slot

def accepts : Slot → Operand → Bool
  | atom a, .atom name _ => name == a.name
  | literal value, .int v _ _ => v == value
  | expr _, o | variadic, o => o.isExpression
  | assignable, .expr op _ _ => Operator.isAssignable op
  | update, .expr op _ _ => Operator.isAssignment op
  | integer, .int .. => true
  | pointer, o => o.isReference && !o.isElse
  | elsePointer, o => o.isReference
  | message, .message .. => true
  | text, .text .. => true
  | _, _ => false

/-- Whether the operand can stand in this slot of a message command. A forced width has to be that
of the slot. -/
def acceptsField : Slot → Operand → Bool
  | field f, .int _ width _ => width == none || width == some f.width
  | literal value, .int v width _ => v == value && (width == none || width == some .byte)
  | format, .text bytes _ => !bytes.contains MessageOp.formatCode
  | _, _ => false

def expectation (slots : List (Option Slot)) : String :=
  let seen := ((slots.filterMap id).map describe).foldl
    (fun seen text => if seen.contains text then seen else seen ++ [text]) []
  let shown := if 6 < seen.length then seen.take 6 ++ ["..."] else seen
  if shown.isEmpty then "nothing" else " or ".intercalate shown

end Slot

inductive MismatchCause where
  | tooMany (name : String)
  | unexpected (slots : List (Option Slot))
  | notEnough (name : String) (slots : List (Option Slot))
  | unknownOperator (name : String)
  | within (op : String) (cause : MismatchCause)

def MismatchCause.detail : MismatchCause → String
  | tooMany name => "too many operands for '" ++ name ++ "'"
  | unexpected slots => "expected " ++ Slot.expectation slots
  | notEnough name slots =>
    "not enough operands for '" ++ name ++ "': expected " ++ Slot.expectation slots
  | unknownOperator name => "unrecognized expression operator '" ++ name ++ "'"
  | within op cause => "in '" ++ op ++ "': " ++ cause.detail

structure Mismatch where
  index : Nat
  cause : MismatchCause

namespace Shape

def narrow (check : Slot → Operand → Bool) (name : String) :
    List Shape → Nat → List Operand → Except Mismatch (List Shape)
  | live, _, [] => .ok live
  | live, index, operand :: operands =>
    let slots := live.map (slotAt · index)
    let survivors := live.filter fun shape => (shape.slotAt index).any (check · operand)
    if slots.all Option.isNone then .error ⟨index, .tooMany name⟩
    else if survivors.isEmpty then .error ⟨index, .unexpected slots⟩
    else narrow check name survivors (index + 1) operands

/-- The first shape that accepts all operands. -/
def choose (check : Slot → Operand → Bool) (name : String) (shapes : List Shape)
    (operands : List Operand) : Except Mismatch Shape := do
  let live ← narrow check name shapes 0 operands
  match live.find? fun shape => shape.minOperands ≤ operands.length with
  | some shape => .ok shape
  | none => .error ⟨operands.length, .notEnough name (live.map (slotAt · operands.length))⟩

end Shape

mutual

def Operand.checkExpression : Operand → Except Mismatch Unit
  | .expr op args _ =>
    match Operator.ofName? op with
    | none => .error ⟨0, .unknownOperator op⟩
    | some o =>
      match Shape.choose Slot.accepts op o.shapes args with
      | .error e => .error ⟨e.index, .within op e.cause⟩
      | .ok _ => Operand.checkExpressions args
  | _ => .ok ()

def Operand.checkExpressions : List Operand → Except Mismatch Unit
  | [] => .ok ()
  | o :: os => do
    o.checkExpression
    Operand.checkExpressions os

end

def Operator.shapeOf (o : Operator) (args : List Operand) : Except Mismatch Shape :=
  Shape.choose Slot.accepts o.name o.shapes args

namespace Command

def checkOperands : Nat → List Operand → Except Mismatch Unit
  | _, [] => .ok ()
  | index, o :: os =>
    match o.checkExpression with
    | .error e => .error ⟨index, e.cause⟩
    | .ok _ => checkOperands (index + 1) os

def shapeOf (c : Command) (operands : List Operand) : Except Mismatch Shape := do
  let shape ← Shape.choose Slot.accepts c.name c.shapes operands
  checkOperands 0 operands
  return shape

end Command

end EventScript
