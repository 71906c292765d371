import EventScript.Diagnostic
import EventScript.Shape.Match
import EventScript.Source.Token

namespace EventScript

inductive Expectation where
  | closeParen
  | endOfLine
  | item
  | elseTarget
  | expression
  deriving DecidableEq, Repr

def Expectation.text : Expectation → String
  | closeParen => "')'"
  | endOfLine => "end of line"
  | item => "a label, directive or command"
  | elseTarget => "a label after 'else'"
  | expression => "an expression"

inductive OperandFault where
  | notMessageCommand
  | badMessageArgument
  | tooMany
  | tooFew
  | notLabel
  | notInteger
  | labelWidth
  | noValues
  | unsupportedValue (directive : String)
  | mismatch (cause : MismatchCause)
  | messageMismatch (op : String) (cause : MismatchCause)
  | terminator
  | commandByte (byte : UInt8)

def OperandFault.detail : OperandFault → String
  | notMessageCommand => "expected a message command"
  | badMessageArgument => "message arguments must be integers or strings"
  | tooMany => "too many operands for directive"
  | tooFew => "not enough operands for directive"
  | notLabel => "expected a label reference"
  | notInteger => "expected an integer"
  | labelWidth => "entry point labels take no width suffix"
  | noValues => "expected at least one value"
  | unsupportedValue directive => "unsupported value for ." ++ directive
  | mismatch cause => cause.detail
  | messageMismatch op cause => "in '" ++ op ++ "': " ++ cause.detail
  | terminator => "value encodes as the argument terminator and cannot be passed"
  | commandByte byte => "byte 0x" ++ Text.hexPadded 2 byte.toNat ++ " cannot appear in message text"

inductive ParseCause where
  | unexpected (expected : Expectation) (got : Lexeme)
  | stringInExpression
  | unknownOperator (name : String)
  | unknownCommand (name : String)
  | unknownDirective (name : String)
  | missingStageName
  | invalidOperand (opcode : String) (index : Nat) (fault : OperandFault)

structure ParseError where
  cause : ParseCause
  span : Option Span

namespace ParseCause

def reason : ParseCause → String
  | unexpected .. | stringInExpression | unknownOperator _ => "Syntax"
  | unknownCommand _ => "UnknownCommand"
  | unknownDirective _ => "UnknownDirective"
  | missingStageName | invalidOperand .. => "InvalidOperand"

def message : ParseCause → String
  | unexpected expected got => "expected " ++ expected.text ++ ", got " ++ got.describe
  | stringInExpression => "a string cannot appear inside an expression"
  | unknownOperator name => "unrecognized expression operator '" ++ name ++ "'"
  | unknownCommand name => "unrecognized command: '" ++ name ++ "'"
  | unknownDirective name => "unrecognized directive: '." ++ name ++ "'"
  | missingStageName => "target specifier is missing a stage name"
  | invalidOperand opcode index fault =>
    "invalid operand " ++ toString (index + 1) ++ " for '" ++ opcode ++ "': " ++ fault.detail

def operand? : ParseCause → Option (String × Nat)
  | missingStageName => some (".stage", 0)
  | invalidOperand opcode index _ => some (opcode, index)
  | _ => none

end ParseCause

def ParseError.diagnostic (e : ParseError) : Diagnostic where
  kind := "parse error"
  reason := e.cause.reason
  message := e.cause.message
  span := e.span

end EventScript
