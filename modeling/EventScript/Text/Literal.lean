import EventScript.Text.CodePage
import EventScript.Text.Hex

namespace EventScript.Text

def simpleEscapes : List (Char × UInt8) :=
  [('\\', 0x5c), ('"', 0x22), ('n', 0x0a), ('t', 0x09), ('r', 0x0d), ('v', 0x0b)]

def escapedByte? (c : Char) : Option UInt8 := (simpleEscapes.find? (·.1 == c)).map (·.2)

def escapeLetter? (b : UInt8) : Option Char := (simpleEscapes.find? (·.2 == b)).map (·.1)

def quoteByte (b : UInt8) : List Char :=
  match escapeLetter? b with
  | some c => ['\\', c]
  | none =>
    if (0x20 ≤ b && b < 0x7f) || 0xa0 ≤ b then [Char.ofNat b.toNat]
    else '\\' :: 'x' :: (hexPadded 2 b.toNat).toList

def quoteChars (bs : List UInt8) : List Char := '"' :: bs.flatMap quoteByte ++ ['"']

def quote (bs : List UInt8) : String := String.ofList (quoteChars bs)

end EventScript.Text
