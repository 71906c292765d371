import EventScript.Bytecode.Piece
import EventScript.Model.Script

namespace EventScript

-- Powers are those of the core library, whatever else is imported.
attribute [local instance (2000)] instPowNat

/-- Where an operand stands: the labels of its script, its site and the span of its item. -/
structure Placement where
  labels : LabelTable
  site : Site
  span : Option Span

namespace Placement

def fail {α : Type} (p : Placement) (cause : EncodeCause) (span : Option Span := none) :
    Except Error α :=
  .error (.encode ⟨cause, span.or p.span⟩)

def atOperand (p : Placement) (index : Nat) : Placement :=
  { p with site := { p.site with operand := index } }

def lowerInt (p : Placement) (value : Int) (width : Option Width) (span : Option Span) :
    Except Error ItemCode :=
  let stored := width.getD (.ofLiteral value)
  let limit := width.getD .long
  if Bytes.fits value limit.bytes then .ok [.bytes (stored.constant value)]
  else p.fail (.tooWide value limit.bits) span

/-- A tagged address. That of a label is left open; it starts out narrow unless a width is
forced. -/
def lowerPointer (p : Placement) : Operand → Except Error ItemCode
  | .offset value width _ span =>
    let stored := width.getD (.ofAddress value)
    if 0 ≤ value ∧ value < 2 ^ stored.bits then .ok [.bytes (stored.constant value)]
    else p.fail (.offsetTooWide value stored.bits) span
  | .label name width _ span =>
    match p.labels.get? name with
    | some binding =>
      .ok [.pointer ⟨name, binding.block, width.getD .byte, width.isSome, p.site, span.or p.span⟩]
    | none => p.fail (.undefinedLabel name) span
  | o => p.fail (.notExpression o.className) o.span

/-- An operand in its slot. `expression` is what it is lowered to as an expression. -/
def lowerSlot (p : Placement) (slot : Slot) (o : Operand) (expression : Except Error ItemCode) :
    Except Error ItemCode :=
  match slot, o with
  | .pointer, _ | .elsePointer, _ => p.lowerPointer o
  | .text, .text bytes span =>
    if bytes.contains 0 then p.fail .nulInString span else .ok [.bytes (bytes ++ [0])]
  | .atom a, _ => .ok [.bytes (Width.long.constant a.code)]
  | _, _ => expression

mutual

def lowerExpr (p : Placement) : Operand → Except Error ItemCode
  | .int value width span => p.lowerInt value width span
  | .label name width isElse span =>
    (p.lowerPointer (.label name width isElse span)).map (.bytes [Operator.addressCode] :: ·)
  | .offset value width isElse span =>
    (p.lowerPointer (.offset value width isElse span)).map (.bytes [Operator.addressCode] :: ·)
  | .expr op args span =>
    match Operator.constantWidth? op, args with
    | some width, [.int value _ argSpan] => p.lowerInt value (some width) argSpan
    | _, _ =>
      match Operator.ofName? op with
      | none => p.fail (.noExpression op) span
      | some operator =>
        match operator.shapeOf args with
        | .error _ => p.fail (.noExpression op) span
        | .ok shape => do
          let parts := lowerArgs p shape args
          let stored ← (if operator.isReversed then parts.reverse else parts).mapM id
          return .bytes [operator.code] :: stored.flatten
  | .atom name _ =>
    match Atom.ofName? name with
    | some a => .ok [.bytes (Width.long.constant a.code)]
    | none => .error (.fault (.unknownAtom name))
  | .text _ span => p.fail (.notExpression "Text") span
  | .message _ span => p.fail (.notExpression "Message") span

def lowerArgs (p : Placement) : Shape → List Operand → List (Except Error ItemCode)
  | slot :: slots, o :: os => p.lowerSlot slot o (lowerExpr p o) :: lowerArgs p slots os
  | _, _ => []

end

def lowerFixed (p : Placement) : Nat → Shape → List Operand → Except Error ItemCode
  | index, slot :: slots, o :: os => do
    let here := p.atOperand index
    let first ← here.lowerSlot slot o (here.lowerExpr o)
    let rest ← lowerFixed p (index + 1) slots os
    return first ++ rest
  | _, _, _ => .ok []

def lowerTail (p : Placement) (terminated : Bool) : Nat → List Operand → Except Error ItemCode
  | _, [] => .ok []
  | index, o :: os => do
    let here := p.atOperand index
    if terminated && o.isTerminator then here.fail (.terminator here.site) o.span
    let first ← here.lowerExpr o
    let rest ← lowerTail p terminated (index + 1) os
    return first ++ rest

def lowerField (p : Placement) (f : Field) (value : Int) (span : Option Span) :
    Except Error Bytes :=
  let low : Int := if f.signed then -(2 ^ (f.width.bits - 1)) else 0
  let high : Int := if f.signed then 2 ^ (f.width.bits - 1) else 2 ^ f.width.bits
  let packed := Bytes.pack value f.width.bytes
  if low ≤ value ∧ value < high then .ok (if f.bigEndian then packed.reverse else packed)
  else p.fail (.fieldRange value f) span

def lowerMessageArg (p : Placement) : Slot → Operand → Except Error Bytes
  | .format, .text bytes _ => .ok (bytes ++ [MessageOp.formatCode])
  | .literal _, .int value _ _ => .ok (Bytes.pack value 1)
  | .field f, .int value _ span => p.lowerField f value span
  | _, _ => .ok []

def lowerMessageCommand (p : Placement) (c : MessageCommand) : Except Error Bytes :=
  if c.op == MessageOp.textName then
    match c.args with
    | .text bytes _ :: _ =>
      if bytes.all MessageOp.isTextByte then .ok bytes else p.fail .commandByteInText c.span
    | _ :: _ => .error (.fault .notText)
    | [] => .error (.fault .missingText)
  else
    match MessageOp.ofName? c.op with
    | none => p.fail (.noMessageCommand c.op) c.span
    | some m =>
      match Shape.choose Slot.acceptsField c.op m.shapes c.args with
      | .error _ => p.fail (.noMessageCommand c.op) c.span
      | .ok shape => do
        let fields ← (shape.zip c.args).mapM fun (slot, arg) => p.lowerMessageArg slot arg
        return m.code :: fields.flatten

def lowerMessage (p : Placement) (commands : List MessageCommand) (span : Option Span) :
    Except Error ItemCode := do
  let parts ← commands.mapM p.lowerMessageCommand
  let body := parts.flatten ++ [MessageOp.endByte]
  if MessageOp.maxBodySize < body.length then p.fail (.messageTooLarge body.length) span
  return [.endWord, .bytes body]

def terminator : Bytes := Width.byte.constant (-1)

def lowerOperands (p : Placement) (c : Command) (shape : Shape) (operands : List Operand) :
    Except Error ItemCode := do
  let fixed := shape.minOperands
  let start ← p.lowerFixed 0 (shape.take fixed) operands
  if !shape.isVariadic then return start
  let tail ← p.lowerTail (c.layout == .terminated) fixed (operands.drop fixed)
  let count := operands.length - fixed
  return match c.layout with
    | .counted => start ++ .bytes ((Width.ofLiteral count).constant count) :: tail
    | .terminated => start ++ tail ++ [.bytes terminator]
    | _ => start ++ tail

def lowerCommand (p : Placement) (c : Command) (operands : List Operand) :
    Except Error ItemCode :=
  match c.layout with
  | .message =>
    match operands with
    | .message commands span :: _ => p.lowerMessage commands span
    | _ => p.fail (.noMessage c.name)
  | layout =>
    match c.shapeOf operands with
    | .error e => p.fail (.noShape c.name e.cause)
    | .ok shape =>
      match layout, operands with
      | .assignment, [destination, value] => do
        let second ← (p.atOperand 1).lowerExpr value
        let first ← (p.atOperand 0).lowerExpr destination
        return second ++ first
      | .sized, _ => (p.lowerOperands c shape operands).map (.sizeWord p.site p.span :: ·)
      | _, _ => p.lowerOperands c shape operands

end Placement

def Instruction.lower (labels : LabelTable) (i : Instruction) : Except Error ItemCode :=
  let p : Placement := ⟨labels, ⟨i.opcode, 0⟩, i.span⟩
  match Command.ofName? i.opcode with
  | none => p.fail (.unknownCommand i.opcode)
  | some c => (p.lowerCommand c i.operands).map (.bytes [c.code] :: ·)

/-- One value of a data item. Strings end with a zero byte; addresses take 32 bits. -/
def Data.lowerValue (labels : LabelTable) (d : Data) : Operand → Except Error Piece
  | .text bytes _ => .ok (.bytes (bytes ++ [0]))
  | .int value _ span =>
    if Bytes.fits value d.width.bytes then .ok (.bytes (Bytes.pack value d.width.bytes))
    else .error (.encode ⟨.tooWide value d.width.bits, span.or d.span⟩)
  | .label name _ _ span =>
    match labels.get? name with
    | some binding => .ok (.blockWord binding.block)
    | none => .error (.encode ⟨.undefinedLabel name, span.or d.span⟩)
  | .offset value _ _ _ => .ok (.bytes (Bytes.pack value 4))
  | o => .error (.encode ⟨.notData o.className d.width, o.span.or d.span⟩)

def Data.lower (labels : LabelTable) (d : Data) : Except Error ItemCode :=
  d.values.mapM (d.lowerValue labels)

def Item.lower (labels : LabelTable) : Item → Except Error ItemCode
  | .instruction i => i.lower labels
  | .data d => d.lower labels

namespace Script

def lowerBlocks (s : Script) : Except Error Code :=
  s.blocks.mapM fun b => b.items.mapM (·.lower s.labels)

/-- The code of a script. A pointer whose width is left open has to lead to a block, since the width
depends on where that is. -/
def lower (s : Script) : Except Error Code := do
  let code ← s.lowerBlocks
  if code.pointers.all fun p => p.forced || p.block < code.length then return code
  throw (.fault .missingBlock)

end Script

end EventScript
