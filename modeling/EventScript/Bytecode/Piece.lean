import EventScript.Error

namespace EventScript

-- Sums start from the zero of the core library, whatever else is imported.
attribute [local instance (2000)] Zero.ofOfNat0

/-- A label in a width-tagged position. -/
structure Pointer where
  label : String
  block : Nat
  width : Width
  forced : Bool
  site : Site
  span : Option Span
  deriving DecidableEq, Repr

inductive Piece where
  | bytes (bytes : Bytes)
  | pointer (pointer : Pointer)
  | blockWord (block : Nat)
  /-- The address of the end of the item in 32 bits. -/
  | endWord
  /-- The distance from this field to the end of the item in 16 bits. -/
  | sizeWord (site : Site) (span : Option Span)
  deriving DecidableEq, Repr

def Piece.size : Piece → Nat
  | bytes bs => bs.length
  | pointer p => 1 + p.width.bytes
  | blockWord _ | endWord => 4
  | sizeWord .. => 2

def Piece.maxArgumentSize : Nat := 0x7fff

abbrev ItemCode := List Piece

def ItemCode.size (item : ItemCode) : Nat := (item.map Piece.size).sum

def ItemCode.pointers (item : ItemCode) : List Pointer :=
  item.filterMap fun
    | .pointer p => some p
    | _ => none

/-- The addresses of consecutive chunks of the given sizes, the first of them at `start`. -/
def addressesFrom (start : Nat) : List Nat → List Nat
  | [] => []
  | size :: sizes => start :: addressesFrom (start + size) sizes

abbrev Code := List (List ItemCode)

namespace Code

def items (c : Code) : List ItemCode := c.flatten

def size (c : Code) : Nat := (c.items.map ItemCode.size).sum

def itemAddresses (c : Code) : List Nat := addressesFrom 0 (c.items.map ItemCode.size)

def blockSizes (c : Code) : List Nat := c.map fun block => (block.map ItemCode.size).sum

def blockAddresses (c : Code) : List Nat := addressesFrom 0 c.blockSizes

def pointers (c : Code) : List Pointer := c.items.flatMap ItemCode.pointers

def mapPointers (f : Pointer → Pointer) (c : Code) : Code :=
  c.map (·.map (·.map fun
    | .pointer p => .pointer (f p)
    | piece => piece))

end Code

end EventScript
