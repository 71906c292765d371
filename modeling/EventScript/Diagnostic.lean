import EventScript.Text.Hex
import EventScript.Text.Span

namespace EventScript

structure Diagnostic where
  kind : String
  reason : String
  message : String
  span : Option Span := none
  offset : Option Int := none
  deriving DecidableEq, Repr

namespace Diagnostic

/-- Line and column if the source is at hand, else the span itself; for bytecode, the offset. -/
def location (d : Diagnostic) (source : Option String := none) : String :=
  match d.span, source, d.offset with
  | some span, some text, _ =>
    let place := Position.ofOffset text span.start
    "line " ++ toString place.line ++ ", column " ++ toString place.column
  | some span, none, _ => "chars " ++ span.toText
  | none, _, some offset => "offset 0x" ++ Text.hexInt offset
  | none, _, none => ""

def describe (d : Diagnostic) (source : Option String := none) : String :=
  let head := d.kind ++ ": " ++ d.message
  let place := d.location source
  if place.isEmpty then head else head ++ " (" ++ place ++ ")"

end Diagnostic

end EventScript
