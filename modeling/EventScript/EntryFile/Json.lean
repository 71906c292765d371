import EventScript.EntryFile.Decimal
import EventScript.Text.Hex
import EventScript.Text.Numeral

namespace EventScript

inductive Json where
  | null
  | bool (value : Bool)
  | integer (value : Int)
  | decimal (value : Decimal)
  | infinity
  | notANumber
  | string (value : String)
  | array (elements : List Json)
  | object (members : List (String × Json))

inductive JsonError where
  | malformed
  | numeral (error : Text.NumeralError)
  deriving DecidableEq, Repr

namespace Json

abbrev Rest := List Char

def isBlank (c : Char) : Bool := c == ' ' || c == '\t' || c == '\n' || c == '\r'

def skipBlanks (cs : Rest) : Rest := cs.dropWhile isBlank

def dropWord? (word : String) (cs : Rest) : Option Rest :=
  if word.toList.isPrefixOf cs then some (cs.drop word.length) else none

def escapes : List (Char × Char) :=
  [('"', '"'), ('\\', '\\'), ('/', '/'), ('b', '\x08'), ('f', '\x0c'), ('n', '\n'), ('r', '\r'),
    ('t', '\t')]

def unit? (a b c d : Char) : Option Nat := do
  let digits ← [a, b, c, d].mapM Text.hexValue?
  return digits.foldl (fun n digit => 16 * n + digit) 0

def stringCodes : Rest → Option (List Nat × Rest)
  | [] => none
  | '"' :: rest => some ([], rest)
  | '\\' :: 'u' :: a :: b :: c :: d :: rest => do
    let code ← unit? a b c d
    let (codes, rest) ← stringCodes rest
    return (code :: codes, rest)
  | '\\' :: c :: rest => do
    let (_, code) ← escapes.find? (·.1 == c)
    let (codes, rest) ← stringCodes rest
    return (code.toNat :: codes, rest)
  | c :: rest => do
    if c.toNat < 0x20 then none
    let (codes, rest) ← stringCodes rest
    return (c.toNat :: codes, rest)

def isHighSurrogate (n : Nat) : Bool := 0xd800 ≤ n && n < 0xdc00

def isLowSurrogate (n : Nat) : Bool := 0xdc00 ≤ n && n < 0xe000

def replacement : Char := '�'

def ofCode (n : Nat) : Char :=
  if isHighSurrogate n || isLowSurrogate n then replacement else Char.ofNat n

def joinSurrogates : List Nat → List Char
  | [] => []
  | [n] => [ofCode n]
  | high :: low :: rest =>
    if isHighSurrogate high && isLowSurrogate low then
      Char.ofNat (0x10000 + 0x400 * (high - 0xd800) + (low - 0xdc00)) :: joinSurrogates rest
    else ofCode high :: joinSurrogates (low :: rest)

def readString (cs : Rest) : Except JsonError (String × Rest) :=
  match stringCodes cs with
  | some (codes, rest) => .ok (String.ofList (joinSurrogates codes), rest)
  | none => .error .malformed

def isDigit (c : Char) : Bool := '0' ≤ c && c ≤ '9'

def wholeDigits : Rest → Option (List Char × Rest)
  | '0' :: rest => some (['0'], rest)
  | c :: rest => if isDigit c then some ((c :: rest).span isDigit) else none
  | [] => none

def fractionDigits : Rest → List Char × Rest
  | '.' :: rest =>
    match rest.span isDigit with
    | ([], _) => ([], '.' :: rest)
    | found => found
  | cs => ([], cs)

def ofDigits (digits : List Char) : Nat := Text.Numeral.value 10 digits

def exponent? (cs : Rest) : Option (Int × Rest) :=
  match cs with
  | e :: rest =>
    if e == 'e' || e == 'E' then
      let (negative, rest) := match rest with
        | '-' :: rest => (true, rest)
        | '+' :: rest => (false, rest)
        | rest => (false, rest)
      match rest.span isDigit with
      | ([], _) => none
      | (digits, rest) =>
        some (if negative then -(ofDigits digits : Int) else ofDigits digits, rest)
    else none
  | [] => none

def readMagnitude (negative : Bool) (cs : Rest) : Except JsonError (Json × Rest) :=
  match wholeDigits cs with
  | none => .error .malformed
  | some (whole, rest) =>
    let (fraction, rest) := fractionDigits rest
    let scale : Int := -(fraction.length : Int)
    match exponent? rest with
    | some (exponent, rest) =>
      .ok (.decimal ⟨negative, ofDigits (whole ++ fraction), exponent + scale⟩, rest)
    | none =>
      if !fraction.isEmpty then
        .ok (.decimal ⟨negative, ofDigits (whole ++ fraction), scale⟩, rest)
      else if Text.maxDecimalDigits < whole.length then
        .error (.numeral (.tooLong whole.length))
      else .ok (.integer (if negative then -(ofDigits whole : Int) else ofDigits whole), rest)

def readNumber (cs : Rest) : Except JsonError (Json × Rest) :=
  match cs with
  | '-' :: cs => readMagnitude true cs
  | cs => readMagnitude false cs

def words : List (String × Json) :=
  [("null", .null), ("true", .bool true), ("false", .bool false), ("NaN", .notANumber),
    ("Infinity", .infinity), ("-Infinity", .infinity)]

/-- Sets the value of a key, in the place where it was first given. -/
def putMember (members : List (String × Json)) (key : String) (value : Json) :
    List (String × Json) :=
  if members.any (·.1 == key) then members.map fun m => if m.1 == key then (key, value) else m
  else members ++ [(key, value)]

mutual

/-- The value at the start of `cs`. The first argument bounds how many values are read; the number
of characters is always enough. -/
def readValue : Nat → Rest → Except JsonError (Json × Rest)
  | 0, _ => .error .malformed
  | limit + 1, cs =>
    match cs with
    | '"' :: rest => (readString rest).map fun (s, rest) => (.string s, rest)
    | '\x7b' :: rest =>
      match skipBlanks rest with
      | '\x7d' :: rest => .ok (.object [], rest)
      | rest => readMembers limit [] rest
    | '[' :: rest =>
      match skipBlanks rest with
      | ']' :: rest => .ok (.array [], rest)
      | rest => readElements limit [] rest
    | cs =>
      match words.findSome? fun (word, value) =>
          (dropWord? word cs).map fun rest => (value, rest) with
      | some found => .ok found
      | none => readNumber cs

def readMembers : Nat → List (String × Json) → Rest → Except JsonError (Json × Rest)
  | 0, _, _ => .error .malformed
  | limit + 1, done, cs =>
    match cs with
    | '"' :: rest => do
      let (key, rest) ← readString rest
      match skipBlanks rest with
      | ':' :: rest =>
        let (value, rest) ← readValue limit (skipBlanks rest)
        let members := putMember done key value
        match skipBlanks rest with
        | ',' :: rest => readMembers limit members (skipBlanks rest)
        | '\x7d' :: rest => return (.object members, rest)
        | _ => .error .malformed
      | _ => .error .malformed
    | _ => .error .malformed

def readElements : Nat → List Json → Rest → Except JsonError (Json × Rest)
  | 0, _, _ => .error .malformed
  | limit + 1, done, cs => do
    let (value, rest) ← readValue limit cs
    match skipBlanks rest with
    | ',' :: rest => readElements limit (done ++ [value]) (skipBlanks rest)
    | ']' :: rest => return (.array (done ++ [value]), rest)
    | _ => .error .malformed

end

def parse (text : String) : Except JsonError Json := do
  let cs := text.toList
  let (value, rest) ← readValue (cs.length + 1) (skipBlanks cs)
  if (skipBlanks rest).isEmpty then return value
  .error .malformed

def get? (members : List (String × Json)) (key : String) : Option Json :=
  (members.find? (·.1 == key)).map (·.2)

def escapeUnit (n : Nat) : String := "\\u" ++ Text.hexPadded 4 n

/-- All but printable ASCII is escaped, in two units where one is not enough. -/
def writeChar (c : Char) : String :=
  match escapes.find? fun (letter, char) => char == c && letter != '/' with
  | some (letter, _) => String.ofList ['\\', letter]
  | none =>
    let n := c.toNat
    if 0x20 ≤ n ∧ n < 0x7f then c.toString
    else if n < 0x10000 then escapeUnit n
    else escapeUnit (0xd800 + (n - 0x10000) / 0x400) ++ escapeUnit (0xdc00 + (n - 0x10000) % 0x400)

def writeString (s : String) : String :=
  "\"" ++ String.join (s.toList.map writeChar) ++ "\""

end Json

end EventScript
