import EventScript.Bytecode.Decode

namespace EventScript

/-- What a label is for, the most specific first. -/
inductive LabelKind where
  | event
  | subroutine
  | location
  | data
  deriving DecidableEq, Repr

namespace LabelKind

def stem : LabelKind → String
  | event => "evt"
  | subroutine => "sub"
  | location => "loc"
  | data => "dat"

def merge (a b : LabelKind) : LabelKind := if a.ctorIdx ≤ b.ctorIdx then a else b

end LabelKind

def Command.targetKind (c : Command) : LabelKind :=
  if c.name == "run" then .subroutine else .location

def Slot.codeTarget? (jump : LabelKind) : Slot → Operand → Option (LabelKind × Nat)
  | pointer, .offset target _ _ _ | elsePointer, .offset target _ _ _ => some (jump, target.toNat)
  | expr .event, .offset target _ _ _ => some (.event, target.toNat)
  | _, _ => none

def Instruction.codeTargets (i : Instruction) : List (LabelKind × Nat) :=
  match Command.ofName? i.opcode with
  | none => []
  | some c =>
    match c.shapeOf i.operands with
    | .error _ => []
    | .ok shape =>
      (shape.zip i.operands).filterMap fun (slot, o) => slot.codeTarget? c.targetKind o

def Instruction.endsFlow (i : Instruction) : Bool := (Command.ofName? i.opcode).any (·.endsFlow)

structure Decoded where
  offset : Nat
  size : Nat
  instruction : Instruction

namespace Decoded

def stop (d : Decoded) : Nat := d.offset + d.size

def covers (d : Decoded) (offset : Nat) : Bool := d.offset ≤ offset && offset < d.stop

def next (d : Decoded) : List Nat :=
  (if d.instruction.endsFlow then [] else [d.stop])
    ++ (d.instruction.codeTargets.map (·.2)).reverse

end Decoded

namespace Explore

def owner? (found : List Decoded) (offset : Nat) : Option Decoded :=
  found.find? (·.covers offset)

def overlap? (found : List Decoded) (offset size : Nat) : Option (Nat × Decoded) :=
  (List.range' offset size).findSome? fun b => (owner? found b).map fun d => (b, d)

def visit (data : Bytes) (found : List Decoded) (offset : Nat) :
    Except DecodeError (Instruction × Nat) := do
  if let some d := owner? found offset then
    throw ⟨.insideInstruction offset d.offset, offset⟩
  let (instruction, size) ← Instruction.decode data offset
  if let some (b, d) := overlap? found offset size then
    throw ⟨.overlap offset d.offset, b⟩
  return (instruction, size)

def isFound (found : List Decoded) (offset : Nat) : Bool := found.any (·.offset == offset)

def unread (size : Nat) (found : List Decoded) : Nat :=
  (List.range size).countP fun offset => !isFound found offset

theorem unread_cons_lt {size : Nat} {found : List Decoded} {d : Decoded}
    (inside : d.offset < size) (new : isFound found d.offset = false) :
    unread size (d :: found) < unread size found := by
  have split : ∀ l : List Nat, l.countP (fun p => !isFound (d :: found) p) ≤
        l.countP (fun p => !isFound found p) ∧
      (d.offset ∈ l → l.countP (fun p => !isFound (d :: found) p) <
        l.countP (fun p => !isFound found p)) := by
    intro l
    induction l with
    | nil => simp
    | cons p l ih =>
      by_cases hp : d.offset = p
      · subst hp
        have old : isFound (d :: found) d.offset = true := by simp [isFound]
        simp only [List.countP_cons, old, new]
        simp
        omega
      · have same : isFound (d :: found) p = isFound found p := by simp [isFound, hp]
        simp only [List.countP_cons, same, List.mem_cons, hp, false_or]
        exact ⟨by omega, fun h => by have := ih.2 h; omega⟩
  exact (split _).2 (List.mem_range.2 inside)

/-- All instructions that can be reached from the offsets on the stack, given those found before. -/
def explore (data : Bytes) (stack : List Nat) (found : List Decoded) :
    Except DecodeError (List Decoded) :=
  match stack with
  | [] => .ok found
  | offset :: rest =>
    if offset < data.length ∧ isFound found offset = false then do
      let (instruction, size) ← visit data found offset
      let d : Decoded := ⟨offset, size, instruction⟩
      explore data (d.next ++ rest) (d :: found)
    else explore data rest found
termination_by (unread data.length found, stack.length)
decreasing_by
  · rename_i h
    exact Prod.Lex.left _ _ (unread_cons_lt h.1 h.2)
  · exact Prod.Lex.right _ (by simp)

end Explore

end EventScript
