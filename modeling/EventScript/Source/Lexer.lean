import EventScript.Diagnostic
import EventScript.Source.Token
import EventScript.Text.Literal
import EventScript.Text.Numeral

namespace EventScript

-- Powers are those of the core library, whatever else is imported.
attribute [local instance (2000)] instPowNat

inductive LexCause where
  | unterminatedString
  | unterminatedComment
  | invalidToken (c : Char)
  | missingDigits
  | badDigit (c : Char)
  | outOfRange
  | unencodable (c : Char)
  | badEscape
  deriving DecidableEq, Repr

structure LexError where
  cause : LexCause
  place : Nat
  deriving DecidableEq, Repr

namespace LexCause

def reason : LexCause → String
  | unterminatedString => "UnterminatedString"
  | unterminatedComment => "UnterminatedBlockComment"
  | outOfRange => "IntegerOutOfRange"
  | _ => "InvalidCharacter"

def message : LexCause → String
  | unterminatedString => "unterminated string literal"
  | unterminatedComment => "unterminated block comment"
  | invalidToken c => "invalid token " ++ Text.display c.toString
  | missingDigits => "invalid token"
  | badDigit c => "invalid character " ++ Text.display c.toString ++ " in integer literal"
  | outOfRange => "integer literal out of range"
  | unencodable c => "character " ++ Text.display c.toString ++ " cannot be encoded"
  | badEscape => "invalid escape sequence"

end LexCause

def LexError.diagnostic (e : LexError) : Diagnostic where
  kind := "lex error"
  reason := e.cause.reason
  message := e.cause.message
  span := some (.ofChar e.place)

inductive ScanError where
  | lex (error : LexError)
  | numeral (error : Text.NumeralError)
  deriving DecidableEq, Repr

namespace Lexeme

def isIdentifierStart (c : Char) : Bool := c.isAlpha || c == '_'

def isIdentifierChar (c : Char) : Bool := c.isAlphanum || c == '_'

def startsIdentifier : List Char → Bool
  | c :: _ => isIdentifierStart c
  | [] => false

def takeName (cs : List Char) : String := String.ofList (cs.takeWhile isIdentifierChar)

/-- A width suffix at the front of `cs`, unless a longer name follows the dot. -/
def readSuffix : List Char → Option Width
  | '.' :: c :: rest => if rest.head?.any isIdentifierChar then none else Width.ofSuffix? c
  | _ => none

def suffixLength : Option Width → Nat
  | some _ => 2
  | none => 0

inductive Fault where
  | char (distance : Nat) (cause : LexCause)
  | numeral (error : Text.NumeralError)

abbrev Reading (α : Type) := Except Fault (α × Nat)

def leastLiteral : Int := -(2 ^ (31 : Nat))

def greatestLiteral : Int := 2 ^ (32 : Nat) - 1

def readMagnitude (cs : List Char) : Reading Nat :=
  let finish (skipped : Nat) (digits : List Char) (value : Except Text.NumeralError Nat) :
      Reading Nat :=
    let size := skipped + digits.length
    if digits.isEmpty then .error (.char 0 .missingDigits)
    else match (cs.drop size).head?.filter isIdentifierChar, value with
      | some c, _ => .error (.char size (.badDigit c))
      | none, .ok n => .ok (n, size)
      | none, .error e => .error (.numeral e)
  match cs with
  | '0' :: 'x' :: rest | '0' :: 'X' :: rest =>
    let digits := rest.takeWhile Text.isHexDigit
    finish 2 digits (.ok (Text.Numeral.value 16 digits))
  | _ =>
    let digits := cs.takeWhile Text.isDigit
    finish 0 digits ((Text.Numeral.parse .decimal (String.ofList digits)).map Int.toNat)

def readNumber (cs : List Char) : Reading (Int × Option Width) :=
  let (negative, body) : Bool × List Char := match cs with
    | '-' :: rest => (true, rest)
    | _ => (false, cs)
  let signLength := if negative then 1 else 0
  match readMagnitude body with
  | .error (.char _ .missingDigits) => .error (.char 0 .missingDigits)
  | .error (.char distance cause) => .error (.char (signLength + distance) cause)
  | .error (.numeral e) => .error (.numeral e)
  | .ok (magnitude, size) =>
    let value : Int := if negative then -magnitude else magnitude
    if value < leastLiteral ∨ greatestLiteral < value then .error (.char 0 .outOfRange)
    else
      let width := readSuffix (body.drop size)
      .ok ((value, width), signLength + size + suffixLength width)

def readStringTail : List Char → Nat → Reading Bytes
  | '"' :: _, taken => .ok ([], taken + 1)
  | '\\' :: 'x' :: a :: b :: rest, taken =>
    match Text.hexValue? a, Text.hexValue? b with
    | some high, some low =>
      (readStringTail rest (taken + 4)).map fun (bytes, size) =>
        (UInt8.ofNat (16 * high + low) :: bytes, size)
    | _, _ => .error (.char taken .badEscape)
  | '\\' :: c :: rest, taken =>
    match Text.escapedByte? c with
    | some byte =>
      (readStringTail rest (taken + 2)).map fun (bytes, size) => (byte :: bytes, size)
    | none => .error (.char taken .badEscape)
  | ['\\'], taken => .error (.char taken .badEscape)
  | c :: rest, taken =>
    if c == '\n' then .error (.char 0 .unterminatedString)
    else match Text.encodeChar? c with
      | some byte =>
        (readStringTail rest (taken + 1)).map fun (bytes, size) => (byte :: bytes, size)
      | none => .error (.char taken (.unencodable c))
  | [], _ => .error (.char 0 .unterminatedString)

def read (c : Char) (cs : List Char) : Reading Lexeme :=
  let name := takeName cs
  if c == '\n' then .ok (.newline, 1)
  else if c == ',' then .ok (.comma, 1)
  else if c == '(' then .ok (.openParen, 1)
  else if c == ')' then .ok (.closeParen, 1)
  else if c == ':' then .ok (.colon, 1)
  else if c == '"' then
    (readStringTail cs 1).map fun (bytes, size) => (.string bytes, size)
  else if c == '-' || Text.isDigit c then
    (readNumber (c :: cs)).map fun ((value, width), size) => (.integer value width, size)
  else if c == '.' || c == '@' then
    if startsIdentifier cs then
      .ok (if c == '.' then .directive name else .atom name, 1 + name.length)
    else .error (.char 0 (.invalidToken c))
  else if c == '*' then
    if cs.head?.any Text.isDigit then
      match readNumber cs with
      | .ok ((value, width), size) => .ok (.offset value.toNat width, 1 + size)
      | .error (.char distance cause) => .error (.char (1 + distance) cause)
      | .error (.numeral e) => .error (.numeral e)
    else if startsIdentifier cs then
      let width := readSuffix (cs.drop name.length)
      .ok (.label name width, 1 + name.length + suffixLength width)
    else .error (.char 0 (.invalidToken c))
  else if isIdentifierStart c then
    let word := takeName (c :: cs)
    .ok (if word == "else" then .elseWord else .identifier word, word.length)
  else .error (.char 0 (.invalidToken c))

end Lexeme

inductive Gap where
  | blank
  | lineComment
  | blockComment (opened : Nat)

def isBlank (c : Char) : Bool := c == ' ' || c == '\t' || c == '\r' || c == '\x0c'

/-- Skips what stands before the next token at `place`. A block comment that is not closed fails
with the place where it was opened. -/
def skipGap : Gap → List Char → Nat → Except Nat (List Char × Nat)
  | .blockComment opened, [], _ => .error opened
  | .blockComment _, '*' :: '/' :: cs, place => skipGap .blank cs (place + 2)
  | .blockComment opened, _ :: cs, place => skipGap (.blockComment opened) cs (place + 1)
  | .lineComment, [], place => .ok ([], place)
  | .lineComment, c :: cs, place =>
    if c == '\n' then .ok (c :: cs, place) else skipGap .lineComment cs (place + 1)
  | .blank, [], place => .ok ([], place)
  | .blank, '/' :: '*' :: cs, place => skipGap (.blockComment place) cs (place + 2)
  | .blank, c :: cs, place =>
    if isBlank c then skipGap .blank cs (place + 1)
    else if c == ';' then skipGap .lineComment cs (place + 1)
    else .ok (c :: cs, place)

/-- Tokens in order, and the fault that cut them short. Without a fault the last token, and only it,
is the end of input. -/
structure TokenStream where
  tokens : List Token
  fault : Option ScanError
  deriving DecidableEq, Repr

namespace TokenStream

def cons (t : Token) (s : TokenStream) : TokenStream := { s with tokens := t :: s.tokens }

def scanFrom : Nat → List Char → Nat → TokenStream
  | 0, _, _ => ⟨[], none⟩
  | fuel + 1, cs, place =>
    match skipGap .blank cs place with
    | .error opened => ⟨[], some (.lex ⟨.unterminatedComment, opened⟩)⟩
    | .ok ([], start) => ⟨[⟨.endOfInput, ⟨start, start⟩⟩], none⟩
    | .ok (c :: rest, start) =>
      match Lexeme.read c rest with
      | .error (.char distance cause) => ⟨[], some (.lex ⟨cause, start + distance⟩)⟩
      | .error (.numeral e) => ⟨[], some (.numeral e)⟩
      | .ok (lexeme, size) =>
        cons ⟨lexeme, ⟨start, start + size⟩⟩ (scanFrom fuel ((c :: rest).drop size) (start + size))

/-- Every token takes a character, so there is one step for each and one for the end. -/
def scan (text : String) : TokenStream := scanFrom (text.length + 1) text.toList 0

end TokenStream

end EventScript
