import EventScript.Diagnostic
import EventScript.Shape.Match

namespace EventScript

structure Site where
  opcode : String
  operand : Nat
  deriving DecidableEq, Repr

def Site.text (s : Site) : String :=
  "operand " ++ toString (s.operand + 1) ++ " of '" ++ s.opcode ++ "'"

inductive EncodeCause where
  | unknownCommand (opcode : String)
  | noShape (opcode : String) (cause : MismatchCause)
  | noMessage (opcode : String)
  | noExpression (op : String)
  | notExpression (className : String)
  | noMessageCommand (op : String)
  | notData (className : String) (width : Width)
  | sizeMismatch (emitted expected : Nat)
  | terminator (site : Site)
  | nulInString
  | tooWide (value : Int) (bits : Nat)
  | offsetTooWide (value : Int) (bits : Nat)
  | commandByteInText
  | fieldRange (value : Int) (field : Field)
  | messageTooLarge (size : Nat)
  | addressTooWide (address bits : Nat) (label : String) (site : Site)
  | argumentsTooLarge (site : Site) (distance : Nat)
  | undefinedLabel (name : String)
  | unsettled (passes : Nat) (label : String) (site : Site)

structure EncodeError where
  cause : EncodeCause
  span : Option Span

namespace EncodeCause

def reason : EncodeCause → String
  | unknownCommand _ | noShape .. | noMessage _ | noExpression _ | notExpression _
  | noMessageCommand _ | notData .. | sizeMismatch .. => "Internal"
  | terminator _ | nulInString | tooWide .. | offsetTooWide .. | commandByteInText | fieldRange ..
  | messageTooLarge _ | addressTooWide .. | argumentsTooLarge .. => "OutOfRange"
  | undefinedLabel _ => "UnresolvedLabel"
  | unsettled .. => "NoFixedPoint"

/-- The model is at fault and not the source it may have come from. -/
def isInternal (c : EncodeCause) : Bool := c.reason == "Internal"

def referenceText (label : String) (site : Site) : String :=
  "reference to '" ++ label ++ "' in " ++ site.text

def message : EncodeCause → String
  | unknownCommand opcode => "no opcode for command '" ++ opcode ++ "'"
  | noShape opcode cause => "operands of '" ++ opcode ++ "' have no encoding: " ++ cause.detail
  | noMessage opcode => "'" ++ opcode ++ "' needs a message body"
  | noExpression op => "expression '" ++ op ++ "' has no encoding"
  | notExpression className => className ++ " cannot be encoded as an expression"
  | noMessageCommand op => "message command '" ++ op ++ "' has no encoding"
  | notData className width => className ++ " cannot be stored by ." ++ width.directive
  | sizeMismatch emitted expected =>
    "emitted " ++ toString emitted ++ " bytes but the layout has " ++ toString expected
  | terminator site => site.text ++ " encodes as the argument terminator"
  | nulInString => "string cannot contain a NUL byte"
  | tooWide value bits => toString value ++ " does not fit in " ++ toString bits ++ " bits"
  | offsetTooWide value bits =>
    "offset 0x" ++ Text.hexInt value ++ " does not fit in " ++ toString bits ++ " bits"
  | commandByteInText => "message text contains a command byte"
  | fieldRange value field =>
    toString value ++ " is out of range for a " ++ field.name ++ " message argument"
  | messageTooLarge size =>
    "message is too large (" ++ toString size ++ " > " ++ toString MessageOp.maxBodySize
      ++ " bytes)"
  | addressTooWide address bits label site =>
    "address 0x" ++ Text.hex address ++ " does not fit in " ++ toString bits ++ " bits ("
      ++ referenceText label site ++ ")"
  | argumentsTooLarge site distance =>
    site.text ++ " is too large (" ++ toString distance ++ " bytes)"
  | undefinedLabel name => "undefined label: '" ++ name ++ "'"
  | unsettled passes label site =>
    "address layout did not settle after " ++ toString passes ++ " passes; still growing: "
      ++ referenceText label site

end EncodeCause

def EncodeError.diagnostic (e : EncodeError) : Diagnostic where
  kind := "encode error"
  reason := e.cause.reason
  message := e.cause.message
  span := e.span

end EventScript
