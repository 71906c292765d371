import EventScript.Text.Span
import EventScript.Width

namespace EventScript

mutual

inductive Operand where
  | int (value : Int) (width : Option Width) (span : Option Span)
  | atom (name : String) (span : Option Span)
  | text (bytes : Bytes) (span : Option Span)
  | label (name : String) (width : Option Width) (isElse : Bool) (span : Option Span)
  | offset (value : Int) (width : Option Width) (isElse : Bool) (span : Option Span)
  | expr (op : String) (args : List Operand) (span : Option Span)
  | message (commands : List MessageCommand) (span : Option Span)

structure MessageCommand where
  op : String
  args : List Operand
  span : Option Span

end

instance : Inhabited Operand := ⟨.int 0 none none⟩

instance : Inhabited MessageCommand := ⟨⟨"", [], none⟩⟩

namespace Operand

def span : Operand → Option Span
  | int _ _ s | atom _ s | text _ s | label _ _ _ s | offset _ _ _ s | expr _ _ s | message _ s => s

def setSpan (s : Option Span) : Operand → Operand
  | int value width _ => int value width s
  | atom name _ => atom name s
  | text bytes _ => text bytes s
  | label name width isElse _ => label name width isElse s
  | offset value width isElse _ => offset value width isElse s
  | expr op args _ => expr op args s
  | message commands _ => message commands s

def isElse : Operand → Bool
  | label _ _ e _ | offset _ _ e _ => e
  | _ => false

def markElse : Operand → Operand
  | label name width _ s => label name width true s
  | offset value width _ s => offset value width true s
  | o => o

def className : Operand → String
  | int .. => "Int"
  | atom .. => "AtomRef"
  | text .. => "Text"
  | label .. => "LabelRef"
  | offset .. => "Offset"
  | expr .. => "Expr"
  | message .. => "Message"

end Operand

mutual

def Operand.walk : Operand → List Operand
  | .expr op args s => .expr op args s :: Operand.walkAll args
  | o => [o]

def Operand.walkAll : List Operand → List Operand
  | [] => []
  | o :: os => o.walk ++ Operand.walkAll os

end

mutual

def Operand.mapLeaves (f : Operand → Operand) : Operand → Operand
  | .expr op args s => .expr op (Operand.mapLeavesAll f args) s
  | o => f o

def Operand.mapLeavesAll (f : Operand → Operand) : List Operand → List Operand
  | [] => []
  | o :: os => o.mapLeaves f :: Operand.mapLeavesAll f os

end

mutual

/-- Equality of operands, spans left aside. -/
def Operand.same : Operand → Operand → Bool
  | .int v w _, .int v' w' _ => v == v' && w == w'
  | .atom n _, .atom n' _ => n == n'
  | .text b _, .text b' _ => b == b'
  | .label n w e _, .label n' w' e' _ => n == n' && w == w' && e == e'
  | .offset v w e _, .offset v' w' e' _ => v == v' && w == w' && e == e'
  | .expr o as _, .expr o' as' _ => o == o' && Operand.sameAll as as'
  | .message cs _, .message cs' _ => MessageCommand.sameAll cs cs'
  | _, _ => false

def Operand.sameAll : List Operand → List Operand → Bool
  | [], [] => true
  | a :: as, b :: bs => a.same b && Operand.sameAll as bs
  | _, _ => false

def MessageCommand.same : MessageCommand → MessageCommand → Bool
  | ⟨o, as, _⟩, ⟨o', as', _⟩ => o == o' && Operand.sameAll as as'

def MessageCommand.sameAll : List MessageCommand → List MessageCommand → Bool
  | [], [] => true
  | a :: as, b :: bs => a.same b && MessageCommand.sameAll as bs
  | _, _ => false

end

structure Instruction where
  opcode : String
  operands : List Operand
  span : Option Span

structure Data where
  width : Width
  values : List Operand
  span : Option Span

inductive Item where
  | instruction (i : Instruction)
  | data (d : Data)

def Item.same : Item → Item → Bool
  | .instruction i, .instruction j => i.opcode == j.opcode && Operand.sameAll i.operands j.operands
  | .data d, .data e => d.width == e.width && Operand.sameAll d.values e.values
  | _, _ => false

end EventScript
