import EventScript.Bytecode.DecodeError
import EventScript.Bytecode.EncodeError
import EventScript.Model.Label
import EventScript.Source.Lexer
import EventScript.Source.ParseError

namespace EventScript

/-- Failures that no input text and no bytecode explains: a caller asked for the impossible, or
built a model that holds the wrong kind of operand. -/
inductive Fault where
  | endOfTokens
  | noPasses
  | missingText
  | notText
  | notInteger
  | addressOverflow
  | unnamedTarget (offset : Nat)
  | strayItem
  | unknownAtom (name : String)
  | missingBlock
  deriving DecidableEq, Repr

def Fault.message : Fault → String
  | endOfTokens => "read past the end of input"
  | noPasses => "no layout pass allowed"
  | missingText => "a run of text has no text"
  | notText => "not a text where text belongs"
  | notInteger => "not an integer where one belongs"
  | addressOverflow => "address does not fit in 32 bits"
  | unnamedTarget offset => toString offset
  | strayItem => "an item precedes every block"
  | unknownAtom name => Text.display name
  | missingBlock => "a label leads to no block"

inductive Error where
  | lex (error : LexError)
  | numeral (error : Text.NumeralError)
  | parse (error : ParseError)
  | resolution (error : ResolutionError)
  | encode (error : EncodeError)
  | decode (error : DecodeError)
  | fault (fault : Fault)

namespace Error

def ofScan : ScanError → Error
  | .lex e => .lex e
  | .numeral e => .numeral e

/-- A failed resolution. One that names a key of too many digits fails for its own message. -/
def ofResolution (e : ResolutionError) : Error :=
  if e.cause.isWritable then .resolution e else .numeral .unwritable

def diagnostic? : Error → Option Diagnostic
  | lex e => some e.diagnostic
  | parse e => some e.diagnostic
  | resolution e => some e.diagnostic
  | encode e => some e.diagnostic
  | decode e => some e.diagnostic
  | numeral _ | fault _ => none

def describe (e : Error) (source : Option String := none) : String :=
  match e with
  | lex e => e.diagnostic.describe source
  | parse e => e.diagnostic.describe source
  | resolution e => e.diagnostic.describe source
  | encode e => e.diagnostic.describe source
  | decode e => e.diagnostic.describe source
  | numeral e => e.message
  | fault f => f.message

end Error

instance : MonadLift (Except ResolutionError) (Except Error) where
  monadLift x := x.mapError .ofResolution

instance : MonadLift (Except DecodeError) (Except Error) where
  monadLift x := x.mapError .decode

end EventScript
