import EventScript.Model.Operand

namespace EventScript.Data

def isPrintable (b : UInt8) : Bool := (0x20 ≤ b && b < 0x7f) || b == 0x09 || b == 0x0a

def minText : Nat := 2

def rowLength : Nat := 16

def textAt? (bytes : Bytes) : Option Bytes :=
  let run := bytes.takeWhile isPrintable
  if minText ≤ run.length ∧ (bytes.drop run.length).head? = some 0 then some run else none

def ofText (bytes : Bytes) : Data := ⟨.byte, [.text bytes none], none⟩

def ofRow (row : Bytes) : Data := ⟨.byte, row.map fun b => .int b.toNat none none, none⟩

def flush (offset : Nat) (row : Bytes) : List (Nat × Data) :=
  if row.isEmpty then [] else [(offset - row.length, ofRow row)]

def tileFrom (offset : Nat) (row bytes : Bytes) : List (Nat × Data) :=
  match bytes with
  | [] => flush offset row
  | b :: rest =>
    match textAt? (b :: rest) with
    | some run =>
      flush offset row
        ++ (offset, ofText run) :: tileFrom (offset + run.length + 1) [] (rest.drop run.length)
    | none =>
      if row.length + 1 = rowLength then
        flush (offset + 1) (row ++ [b]) ++ tileFrom (offset + 1) [] rest
      else tileFrom (offset + 1) (row ++ [b]) rest
termination_by bytes.length

/-- Items whose bytes are exactly `bytes`, each with its offset. The first is at `offset`. -/
def tile (offset : Nat) (bytes : Bytes) : List (Nat × Data) := tileFrom offset [] bytes

end EventScript.Data
