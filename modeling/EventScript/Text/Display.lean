import EventScript.Text.Hex
import EventScript.Text.Printable

namespace EventScript.Text

def displayQuote (cs : List Char) : Char :=
  if cs.contains '\'' && !cs.contains '"' then '"' else '\''

def displayEscape (c : Char) : String :=
  if c.toNat < 0x100 then "\\x" ++ hexPadded 2 c.toNat
  else if c.toNat < 0x10000 then "\\u" ++ hexPadded 4 c.toNat
  else "\\U" ++ hexPadded 8 c.toNat

def displayChar (quote c : Char) : String :=
  if c == quote || c == '\\' then String.ofList ['\\', c]
  else if c == '\n' then "\\n"
  else if c == '\r' then "\\r"
  else if c == '\t' then "\\t"
  else if isPrintable c then c.toString
  else displayEscape c

def display (s : String) : String :=
  let quote := displayQuote s.toList
  quote.toString ++ String.join (s.toList.map (displayChar quote)) ++ quote.toString

end EventScript.Text
