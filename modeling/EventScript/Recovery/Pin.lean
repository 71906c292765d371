import EventScript.Bytecode.Layout
import EventScript.Recovery.Structure

/-!
Forced widths that a recovered script needs.

The layout gives a label the narrowest width, which is not always the one that was read. A reference
whose width comes out different is pinned to the one that was read, which may move other code, and
so on until no width is different. A pin is for all references to one label that are stored in one
width.
-/

namespace EventScript

abbrev Pin := String × Width

namespace Pin

def ofOperand? : Operand → Option Pin
  | .label name (some width) _ _ => some (name, width)
  | _ => none

def loosen (pins : List Pin) : Operand → Operand
  | .label name width isElse span =>
    .label name (width.filter fun w => pins.contains (name, w)) isElse span
  | o => o

end Pin

def Item.loosen (pins : List Pin) : Item → Item
  | .instruction i =>
    .instruction { i with operands := Operand.mapLeavesAll (Pin.loosen pins) i.operands }
  | .data d => .data d

namespace Script

def loosen (s : Script) (pins : List Pin) : Script :=
  { s with blocks := s.blocks.map fun b => { b with items := b.items.map (Item.loosen pins) } }

def forcedReferences (s : Script) : List Pin :=
  s.items.flatMap fun
    | .instruction i => (Operand.walkAll i.operands).filterMap Pin.ofOperand?
    | .data _ => []

def missingPins (s : Script) (pins : List Pin) (l : Layout) : List Pin :=
  s.forcedReferences.filter fun (label, width) => !pins.contains (label, width)
    && (s.labels.get? label).any fun b =>
      width != .ofAddress (l.blockAddresses.getD b.block 0)

def pinFrom (s : Script) (limit : Nat) : Nat → List Pin → Except Error (List Pin)
  | 0, pins => .ok pins
  | rounds + 1, pins => do
    let missing := s.missingPins pins (← (s.loosen pins).layout limit)
    if missing.isEmpty then return pins
    pinFrom s limit rounds (pins ++ missing)

/-- Enough rounds: each pins at least one reference, and the last pins none. -/
def pinRounds (s : Script) : Nat := s.forcedReferences.length + 1

/-- Frees every forced width that the layout gives anyway. -/
def minimizePins (s : Script) (limit : Nat) : Except Error Script := do
  return s.loosen (← s.pinFrom limit s.pinRounds [])

end Script

end EventScript
