import EventScript.Text.Digit
import EventScript.Text.Display

namespace EventScript.Text

inductive NumeralForm where
  | decimal
  | prefixed
  deriving DecidableEq, Repr

def NumeralForm.base : NumeralForm → Nat
  | decimal => 10
  | prefixed => 0

inductive NumeralError where
  | invalid (form : NumeralForm) (text : String)
  | tooLong (digits : Nat)
  | unwritable
  deriving DecidableEq, Repr

/-- The most decimal digits a numeral may have, leading zeros included, read or written. -/
def maxDecimalDigits : Nat := 4300

def NumeralError.message : NumeralError → String
  | invalid form text =>
    "invalid literal for int() with base " ++ toString form.base ++ ": "
      ++ String.ofList ((display text).toList.take 200)
  | tooLong digits =>
    "Exceeds the limit (" ++ toString maxDecimalDigits
      ++ " digits) for integer string conversion: value has " ++ toString digits
      ++ " digits; use sys.set_int_max_str_digits() to increase the limit"
  | unwritable =>
    "Exceeds the limit (" ++ toString maxDecimalDigits
      ++ " digits) for integer string conversion; use sys.set_int_max_str_digits() to increase the limit"

namespace Numeral

def isWritable (value : Int) : Bool := (Nat.toDigits 10 value.natAbs).length ≤ maxDecimalDigits

def isWideBlank (c : Char) : Bool :=
  let n := c.toNat
  n == 0x85 || n == 0xa0 || n == 0x1680 || (0x2000 ≤ n && n ≤ 0x200a) || n == 0x2028 || n == 0x2029
    || n == 0x202f || n == 0x205f || n == 0x3000

def isBlank (c : Char) : Bool :=
  c == ' ' || (9 ≤ c.toNat && c.toNat ≤ 13)

def toAscii (c : Char) : Char :=
  if c.toNat < 0x7f then c
  else if isWideBlank c then ' '
  else match decimalValue? c with
    | some v => Char.ofNat ('0'.toNat + v)
    | none => '?'

def splitBase : List Char → Nat × List Char
  | '0' :: c :: rest =>
    let dropSeparator : List Char → List Char
      | '_' :: cs => cs
      | cs => cs
    if c == 'x' || c == 'X' then (16, dropSeparator rest)
    else if c == 'o' || c == 'O' then (8, dropSeparator rest)
    else if c == 'b' || c == 'B' then (2, dropSeparator rest)
    else (10, '0' :: c :: rest)
  | cs => (10, cs)

def isDigitOf (base : Nat) (c : Char) : Bool :=
  match hexValue? c with
  | some v => v < base
  | none => false

/-- Digits with single underscores between them: none first, none last, no two in a row. -/
def isSeparated : List Char → Bool
  | [] => true
  | '_' :: _ => false
  | [_] => true
  | _ :: '_' :: cs => !cs.isEmpty && isSeparated cs
  | _ :: cs => isSeparated cs

def value (base : Nat) (digits : List Char) : Nat :=
  digits.foldl (fun v c => base * v + (hexValue? c).getD 0) 0

def magnitude (form : NumeralForm) (text : String) (cs : List Char) :
    Except NumeralError Nat :=
  let (base, body) := match form with
    | .decimal => (10, cs)
    | .prefixed => splitBase cs
  let (run, rest) := body.span fun c => c == '_' || isDigitOf base c
  let digits := run.filter (· != '_')
  let total := value base digits
  if !isSeparated run then .error (.invalid form text)
  else if base == 10 && maxDecimalDigits < digits.length then .error (.tooLong digits.length)
  else if digits.isEmpty || !rest.all isBlank then .error (.invalid form text)
  else if form == .prefixed && base == 10 && body.head? == some '0' && total != 0 then
    .error (.invalid form text)
  else .ok total

def parse (form : NumeralForm) (text : String) : Except NumeralError Int :=
  match (text.toList.map toAscii).dropWhile isBlank with
  | '-' :: cs => (magnitude form text cs).map fun n => -(n : Int)
  | '+' :: cs => (magnitude form text cs).map fun n => (n : Int)
  | cs => (magnitude form text cs).map fun n => (n : Int)

end Numeral

end EventScript.Text
