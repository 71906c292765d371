import EventScript.Bytecode.Cursor
import EventScript.Bytecode.Lower

namespace EventScript

def Operand.ofConstant (value : Int) (width : Width) : Operand :=
  .int value (if width = .ofLiteral value then none else some width) none

def Slot.selectedBy (value : Int) (width : Width) : Slot → Bool
  | atom a => width == .long && value == a.code
  | literal v => value == v
  | _ => false

namespace Decoder

def literal : Decoder Operand := do
  let (width, bytes) ← constant
  return .ofConstant bytes.signed width

def pointer (size : Nat) (isCode isElse : Bool) : Decoder Operand := do
  let start ← offset
  let (width, bytes) ← constant
  let target := bytes.unsigned
  if isCode && size < target then fail (.jumpOutside target size) start
  return .offset target (some width) isElse none

structure Reading where
  selector : Decoder (Int × Width)
  ofSelector : Int → Width → Operand
  operand : Nat → Slot → Decoder Operand

def finished (live : List Shape) : Option Shape :=
  live.find? fun
    | [] | .variadic :: _ => true
    | _ => false

/-- Reads the operands from `index` on of one of the forms in `live`, which hold the slots still to
be read, `limit` at most. Returns the operands and what is left of the form: nothing or a variadic
tail. -/
def walk (reading : Reading) (name : String) :
    Nat → Nat → List Shape → Decoder (List Operand × Shape)
  | 0, _, live => return ([], live.head?.getD [])
  | limit + 1, index, live =>
    match finished live with
    | some shape => return ([], shape)
    | none => do
      let slots := live.filterMap List.head?
      if slots.any Slot.isSelector then
        let start ← offset
        let (value, width) ← reading.selector
        let chosen := live.filter fun shape => shape.head?.any (Slot.selectedBy value width)
        match chosen.head?.bind List.head? with
        | none => fail (.selector value index name) start
        | some slot =>
          let operand := match slot with
            | .atom a => Operand.atom a.name none
            | _ => reading.ofSelector value width
          let (operands, shape) ← walk reading name limit (index + 1) (chosen.map List.tail)
          return (operand :: operands, shape)
      else
        match slots.head? with
        | none => return ([], [])
        | some slot =>
          let operand ← reading.operand index slot
          let (operands, shape) ← walk reading name limit (index + 1) (live.map List.tail)
          return (operand :: operands, shape)

def walkShapes (reading : Reading) (name : String) (shapes : List Shape) :
    Decoder (List Operand × Shape) :=
  walk reading name ((shapes.map List.length).foldl max 0) 0 shapes

def operandWith (size : Nat) (expression : Slot → Decoder Operand) (name : String) (index : Nat)
    (slot : Slot) : Decoder Operand := do
  let start ← offset
  let operand ← match slot with
    | .pointer => pointer size true false
    | .elsePointer => pointer size true true
    | .integer => literal
    | .text => do return .text (← takeUntil 0) none
    | _ => expression slot
  if !slot.accepts operand then fail (.wrongOperand index name slot) start
  return operand

def readingWith (size : Nat) (expression : Slot → Decoder Operand) (name : String) : Reading where
  selector := do
    let (width, bytes) ← constant
    return (bytes.signed, width)
  ofSelector := .ofConstant
  operand := operandWith size expression name

/-- An expression in a buffer of `size` bytes. The first argument bounds its depth; the number of
bytes left is always enough. -/
def expression (size : Nat) : Nat → Slot → Decoder Operand
  | 0, _ => do fail (.truncated 1 (← offset)) (← offset)
  | depth + 1, slot => do
    let start ← offset
    if ((← get).rest.head?.bind Width.ofTag?).isSome then literal
    else
      let code ← byte
      if code == Operator.addressCode then pointer size (slot == .expr .event) false
      else
        match Operator.ofCode? code with
        | none => fail (.unknownOperator code) start
        | some op =>
          let reading := readingWith size (expression size depth) op.name
          if op.isReversed then
            let slots := (op.shapes.head?.getD []).zipIdx
            let args ← slots.reverse.mapM fun (slot, index) => reading.operand index slot
            return .expr op.name args.reverse none
          else
            let (args, _) ← walkShapes reading op.name op.shapes
            return .expr op.name args none

def messageField : Slot → Decoder Operand
  | .field f => do
    let bytes ← take f.width.bytes
    let stored : Bytes := if f.bigEndian then bytes.reverse else bytes
    return .int (if f.signed then stored.signed else stored.unsigned) none none
  | .format => do return .text (← takeUntil MessageOp.formatCode) none
  | _ => return .int 0 none none

def messageReading : Reading where
  selector := do return (Bytes.signed [← byte], .byte)
  ofSelector value _ := .int value none none
  operand _ slot := messageField slot

def textCommand (bytes : Bytes) : List MessageCommand :=
  if bytes.isEmpty then [] else [⟨MessageOp.textName, [.text bytes none], none⟩]

def messageBody : Nat → Decoder (List MessageCommand)
  | 0 => do fail (.truncated 1 (← offset)) (← offset)
  | limit + 1 => do
    let text ← takeWhile MessageOp.isTextByte
    let start ← offset
    let code ← byte
    if code == MessageOp.endByte then return textCommand text
    match MessageOp.ofCode? code with
    | none => fail (.unknownMessageOp code) start
    | some m =>
      let (args, _) ← walkShapes messageReading m.name m.shapes
      let commands ← messageBody limit
      return textCommand text ++ ⟨m.name, args, none⟩ :: commands

def message : Decoder Operand := do
  let wordStart ← offset
  let stop := (← take 4).unsigned
  let start ← offset
  let commands ← messageBody ((← get).rest.length + 1)
  let actual ← offset
  if MessageOp.maxBodySize < actual - start then fail .messageTooLong start
  if stop != actual then fail (.messageEnd stop actual) wordStart
  return .message commands none

def countedTail (operand : Nat → Decoder Operand) : Nat → Nat → Decoder (List Operand)
  | 0, _ => return []
  | count + 1, index => do
    let first ← operand index
    return first :: (← countedTail operand count (index + 1))

def sizedTail (operand : Nat → Decoder Operand) (stop : Nat) : Nat → Nat → Decoder (List Operand)
  | 0, _ => return []
  | limit + 1, index => do
    if stop ≤ (← offset) then return []
    let first ← operand index
    return first :: (← sizedTail operand stop limit (index + 1))

/-- The tail that goes on up to the terminator. The second argument bounds the number of its
operands. -/
def terminatedTail (operand : Nat → Decoder Operand) (name : String) :
    Nat → Nat → Decoder (List Operand)
  | 0, _ => do fail (.truncated 1 (← offset)) (← offset)
  | limit + 1, index => do
    if (← get).rest.take 2 == Placement.terminator then
      skip 2
      return []
    let start ← offset
    let first ← operand index
    if first.isTerminator then fail (.argumentTerminator name) start
    return first :: (← terminatedTail operand name limit (index + 1))

def operands (size : Nat) (c : Command) : Decoder (List Operand) := do
  let depth := (← get).rest.length
  let expression := expression size depth
  let reading := readingWith size expression c.name
  let tail (index : Nat) := reading.operand index .variadic
  let start ← offset
  match c.layout with
  | .message => return [← message]
  | .assignment =>
    let value ← expression (.expr .value)
    match value with
    | .expr op _ _ => if Operator.isAssignment op then return [value]
    | _ => pure ()
    if !value.isExpression then fail .valueNotExpression (← offset)
    return [← reading.operand 0 .assignable, value]
  | .plain => return (← walkShapes reading c.name c.shapes).1
  | .sized =>
    let stored := (← take 2).unsigned
    let (fixed, rest) ← walkShapes reading c.name c.shapes
    if rest.isEmpty then return fixed
    if Piece.maxArgumentSize < stored then fail (.argumentsTooLarge stored) start
    let others ← sizedTail tail (start + stored) stored fixed.length
    let stop ← offset
    if stop != start + stored then fail (.argumentSize stored (stop - start)) start
    return fixed ++ others
  | .counted =>
    let (fixed, rest) ← walkShapes reading c.name c.shapes
    if rest.isEmpty then return fixed
    let start ← offset
    let (width, bytes) ← constant
    let count := bytes.signed
    if count < 0 || width != .ofLiteral count then fail (.argumentCount count) start
    return fixed ++ (← countedTail tail count.toNat fixed.length)
  | .terminated =>
    let (fixed, rest) ← walkShapes reading c.name c.shapes
    if rest.isEmpty then return fixed
    return fixed ++ (← terminatedTail tail c.name (depth + 1) fixed.length)

def instruction (size : Nat) : Decoder Instruction := do
  let start ← offset
  let code ← byte
  match Command.ofCode? code with
  | none => fail (.unknownCommand code) start
  | some c => return ⟨c.name, ← operands size c, none⟩

end Decoder

def Instruction.decode (data : Bytes) (offset : Nat) : Except DecodeError (Instruction × Nat) := do
  let (i, c) ← (Decoder.instruction data.length).run ⟨data.drop offset, offset⟩
  return (i, c.offset - offset)

end EventScript
