import EventScript.Vocabulary.Atom
import EventScript.Width

namespace EventScript

inductive ExprKind where
  | value
  | object
  | event
  | sound
  | item
  | string
  | array
  deriving DecidableEq, Repr

structure Field where
  width : Width
  signed : Bool := false
  bigEndian : Bool := false
  deriving DecidableEq, Repr

def Field.name (f : Field) : String := (if f.signed then "i" else "u") ++ toString f.width.bits

inductive Slot where
  | expr (kind : ExprKind)
  | assignable
  | update
  | integer
  | pointer
  | elsePointer
  | message
  | text
  | variadic
  | format
  | atom (atom : Atom)
  | literal (value : Int)
  | field (field : Field)
  deriving DecidableEq, Repr

namespace Slot

def isSelector : Slot → Bool
  | atom _ | literal _ => true
  | _ => false

def describe : Slot → String
  | expr .value => "an expression"
  | expr .object => "an object expression"
  | expr .event => "an event expression"
  | expr .sound => "a sound expression"
  | expr .item => "an item expression"
  | expr .string => "a string expression"
  | expr .array => "an array expression"
  | assignable => "an assignable expression"
  | update => "a compound assignment"
  | integer => "an integer"
  | pointer => "a label reference"
  | elsePointer => "an else label"
  | message => "a message"
  | text => "a string"
  | variadic => "an expression"
  | format => "a string"
  | atom a => "@" ++ a.name
  | literal value => toString value
  | field f => f.name

end Slot

abbrev Shape := List Slot

namespace Shape

def isVariadic (s : Shape) : Bool := s.getLast? == some .variadic

/-- The slot of the operand at `index`; a variadic tail has one for every further operand. -/
def slotAt (s : Shape) (index : Nat) : Option Slot :=
  if s.isVariadic && s.length - 1 ≤ index then some .variadic else s[index]?

def minOperands (s : Shape) : Nat := if s.isVariadic then s.length - 1 else s.length

end Shape

end EventScript
