import EventScript.Diagnostic
import EventScript.Vocabulary.MessageOp

namespace EventScript

inductive DecodeCause where
  | entryOutside (offset : Int) (size : Nat)
  | jumpOutside (target size : Nat)
  | insideInstruction (offset owner : Nat)
  | overlap (offset owner : Nat)
  | unknownCommand (code : UInt8)
  | unknownOperator (code : UInt8)
  | unknownMessageOp (code : UInt8)
  | truncated (needed offset : Nat)
  | noTerminator (byte : UInt8)
  | notConstant (byte : UInt8)
  | valueNotExpression
  | argumentsTooLarge (size : Nat)
  | argumentSize (stored actual : Nat)
  | argumentCount (count : Int)
  | argumentTerminator (opcode : String)
  | selector (value : Int) (index : Nat) (name : String)
  | wrongOperand (index : Nat) (name : String) (slot : Slot)
  | messageTooLong
  | messageEnd (stored actual : Nat)
  | differs (offset : Nat)
  deriving DecidableEq, Repr

structure DecodeError where
  cause : DecodeCause
  offset : Int
  deriving DecidableEq, Repr

namespace DecodeCause

def reason : DecodeCause → String
  | entryOutside .. | jumpOutside .. => "OffsetOutOfRange"
  | insideInstruction .. | overlap .. => "MisalignedTarget"
  | unknownCommand _ | unknownOperator _ | unknownMessageOp _ => "UnknownOpcode"
  | truncated .. | noTerminator _ => "TruncatedOperand"
  | _ => "UnexpectedValue"

def byteText (b : UInt8) : String := "0x" ++ Text.hexPadded 2 b.toNat

def message : DecodeCause → String
  | entryOutside offset size =>
    "entry offset 0x" ++ Text.hexInt offset ++ " is outside the buffer (0x" ++ Text.hex size
      ++ " bytes)"
  | jumpOutside target size =>
    "jump target 0x" ++ Text.hex target ++ " is outside the buffer (0x" ++ Text.hex size
      ++ " bytes)"
  | insideInstruction offset owner =>
    "0x" ++ Text.hex offset ++ " is inside the instruction at 0x" ++ Text.hex owner
  | overlap offset owner =>
    "instruction at 0x" ++ Text.hex offset ++ " overlaps the instruction at 0x" ++ Text.hex owner
  | unknownCommand code => "unknown opcode " ++ byteText code
  | unknownOperator code => "unknown expression operator " ++ byteText code
  | unknownMessageOp code => "unknown message command " ++ byteText code
  | truncated needed offset =>
    "operand runs past the end of the buffer (need " ++ toString needed ++ " byte(s) at 0x"
      ++ Text.hex offset ++ ")"
  | noTerminator byte => "missing terminator " ++ byteText byte ++ " before the end of the buffer"
  | notConstant byte => "expected a constant, found byte " ++ byteText byte
  | valueNotExpression => "operand 2 of 'set' is not an expression"
  | argumentsTooLarge size => "argument size " ++ toString size ++ " of 'call' is too large"
  | argumentSize stored actual =>
    "argument size " ++ toString stored ++ " of 'call' does not match its arguments ("
      ++ toString actual ++ ")"
  | argumentCount count => "non-canonical argument count for 'ptcl': " ++ toString count
  | argumentTerminator opcode => "non-canonical argument terminator for '" ++ opcode ++ "'"
  | selector value index name =>
    "unexpected value " ++ toString value ++ " for operand " ++ toString (index + 1) ++ " of '"
      ++ name ++ "'"
  | wrongOperand index name slot =>
    "operand " ++ toString (index + 1) ++ " of '" ++ name ++ "' is not " ++ slot.describe
  | messageTooLong =>
    "message body is longer than " ++ toString MessageOp.maxBodySize ++ " bytes"
  | messageEnd stored actual =>
    "message end offset 0x" ++ Text.hex stored ++ " does not match the message (ends at 0x"
      ++ Text.hex actual ++ ")"
  | differs offset =>
    "bytecode does not reassemble identically (first difference at 0x" ++ Text.hex offset ++ ")"

end DecodeCause

def DecodeError.diagnostic (e : DecodeError) : Diagnostic where
  kind := "decode error"
  reason := e.cause.reason
  message := e.cause.message
  offset := some e.offset

end EventScript
