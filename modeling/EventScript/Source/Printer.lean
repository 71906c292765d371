import EventScript.Error
import EventScript.Model.Script
import EventScript.Text.Literal

namespace EventScript

def MessageCommand.colourName : String := "rgba"

def Operand.number? : Operand → Option Int
  | .int value _ _ | .offset value _ _ _ => some value
  | _ => none

def elseText (isElse : Bool) (text : String) : String := if isElse then "else " ++ text else text

def colourText (value : Int) (text : String) : String :=
  if 0 ≤ value then "0x" ++ Text.hexPadded 8 value.toNat else text

mutual

def Operand.toText : Operand → String
  | .int value width _ => toString value ++ Width.suffixText width
  | .atom name _ => "@" ++ name
  | .text bytes _ => Text.quote bytes
  | .label name width isElse _ => elseText isElse ("*" ++ name ++ Width.suffixText width)
  | .offset value width isElse _ =>
    elseText isElse ("*0x" ++ Text.hexInt value ++ Width.suffixText width)
  | .expr op args _ =>
    if args.isEmpty then op else op ++ "(" ++ ", ".intercalate (Operand.toTexts args) ++ ")"
  | .message commands _ => ",\n\t\t".intercalate (MessageCommand.toTexts commands)

def Operand.toTexts : List Operand → List String
  | [] => []
  | o :: os => o.toText :: Operand.toTexts os

def MessageCommand.toText : MessageCommand → String
  | ⟨op, args, _⟩ =>
    let texts := Operand.toTexts args
    if op == MessageOp.textName then texts.headD ""
    else if args.isEmpty then op
    else if op == MessageCommand.colourName then
      let colour := colourText ((args.head?.bind Operand.number?).getD 0) (texts.headD "")
      op ++ "(" ++ colour ++ ")"
    else op ++ "(" ++ ", ".intercalate texts ++ ")"

def MessageCommand.toTexts : List MessageCommand → List String
  | [] => []
  | c :: cs => c.toText :: MessageCommand.toTexts cs

end

mutual

/-- The first part of an operand that no source text stands for. -/
def Operand.unprintable? : Operand → Option Error
  | .int value _ _ => if Text.Numeral.isWritable value then none else some (.numeral .unwritable)
  | .expr _ args _ => Operand.anyUnprintable? args
  | .message commands _ => MessageCommand.anyUnprintable? commands
  | _ => none

def Operand.anyUnprintable? : List Operand → Option Error
  | [] => none
  | o :: os => o.unprintable?.or (Operand.anyUnprintable? os)

def MessageCommand.unprintable? : MessageCommand → Option Error
  | ⟨op, args, _⟩ =>
    if op == MessageOp.textName then
      match args with
      | .text .. :: _ => none
      | _ :: _ => some (.fault .notText)
      | [] => some (.fault .missingText)
    else if op == MessageCommand.colourName then
      match args with
      | .int value width span :: _ =>
        if 0 ≤ value then none else Operand.unprintable? (.int value width span)
      | .offset .. :: _ | [] => none
      | _ :: _ => some (.fault .notInteger)
    else Operand.anyUnprintable? args

def MessageCommand.anyUnprintable? : List MessageCommand → Option Error
  | [] => none
  | c :: cs => c.unprintable?.or (MessageCommand.anyUnprintable? cs)

end

namespace Item

def operands : Item → List Operand
  | instruction i => i.operands
  | data d => d.values

def toText : Item → String
  | instruction i =>
    match i.operands with
    | [] | [.message [] _] => "\t" ++ i.opcode
    | operands => "\t" ++ i.opcode ++ "\t" ++ ", ".intercalate (Operand.toTexts operands)
  | data d =>
    "\t." ++ d.width.directive ++ "\t" ++ ", ".intercalate (Operand.toTexts d.values)

def unprintable? (item : Item) : Option Error := Operand.anyUnprintable? item.operands

def print (item : Item) : Except Error String :=
  match item.unprintable? with
  | some error => .error error
  | none => .ok item.toText

end Item

def Block.fallsThrough (b : Block) : Bool :=
  match b.items.getLast? with
  | none => true
  | some (.instruction i) => !(Command.ofName? i.opcode).any (·.endsFlow)
  | some (.data _) => false

/-- The lines of a block. An empty line sets it off from a block that does not run into it. -/
def Block.lines (previous : Option Block) (b : Block) : List String :=
  let gap := if b.isSynthetic then previous.isNone else previous.all fun p => !p.fallsThrough
  (if gap then [""] else []) ++ (if b.isSynthetic then [] else [b.label ++ ":"])
    ++ b.items.map Item.toText

def EntryPoint.line (entry : EntryPoint) (label : String) : String :=
  match entry.key with
  | some key => "." ++ entry.role ++ "\t" ++ toString key ++ ", *" ++ label
  | none => "." ++ entry.role ++ "\t*" ++ label

def Target.line : Target → String
  | globals => ".globals"
  | stage name => ".stage " ++ Text.quote (Text.encodeText name)

namespace Script

def blockLines : Option Block → List Block → List String
  | _, [] => []
  | previous, b :: bs => b.lines previous ++ blockLines (some b) bs

def lines (s : Script) : List String :=
  s.target.line :: s.entryPoints.map (fun (entry, label) => entry.line label)
    ++ blockLines none s.blocks

def toText (s : Script) : String := "\n".intercalate s.lines ++ "\n"

/-- Writes a script, unless an entry point or an operand has no source text. -/
def print (s : Script) : Except Error String :=
  if s.entryPoints.any fun (entry, _) => !entry.isWritable then .error (.numeral .unwritable)
  else match s.items.findSome? Item.unprintable? with
    | some error => .error error
    | none => .ok s.toText

end Script

end EventScript
