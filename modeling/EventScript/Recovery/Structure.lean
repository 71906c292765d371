import EventScript.Recovery.Explore
import EventScript.Recovery.Tile

/-!
The script that a buffer holds.

Every offset where reading started and every target of a reference gets a label, and so does the
first byte of each gap between the instructions. A label opens a block. A reference that leads past
the buffer or into the middle of an instruction stays an offset.
-/

namespace EventScript

/-- A known offset, and the entry point that it is the code of. -/
abbrev Seed := Option EntryPoint × Int

def Seed.kind (s : Seed) : LabelKind :=
  match s.1 with
  | some (.library _) => .subroutine
  | _ => .event

def Seed.check (size : Nat) (s : Seed) : Except DecodeError (LabelKind × Nat) :=
  if 0 ≤ s.2 ∧ s.2 ≤ size then .ok (s.kind, s.2.toNat)
  else .error ⟨.entryOutside s.2 size, s.2⟩

abbrev Marks := List (LabelKind × Nat)

inductive Region where
  | code (decoded : Decoded)
  | gap (start stop : Nat)

/-- A buffer, where reading started, and the instructions in address order. -/
structure Recovery where
  data : Bytes
  seeds : Marks
  code : List Decoded

namespace Recovery

def ofSeeds (data : Bytes) (seeds : List Seed) : Except DecodeError Recovery := do
  let starts ← seeds.mapM (Seed.check data.length)
  let found ← Explore.explore data (starts.map (·.2)).reverse []
  return ⟨data, starts, found.mergeSort fun a b => a.offset ≤ b.offset⟩

def codeMarks (r : Recovery) : Marks :=
  r.seeds ++ r.code.flatMap (·.instruction.codeTargets)

def startCount (r : Recovery) : Nat := (r.codeMarks.map (·.2)).eraseDups.length

def targets (r : Recovery) : List Nat :=
  (Operand.walkAll (r.code.flatMap (·.instruction.operands))).filterMap fun
    | .offset target _ _ _ => some target.toNat
    | _ => none

def isInside (r : Recovery) (offset : Nat) : Bool :=
  r.code.any fun d => d.offset < offset && offset < d.stop

/-- No label can name the offset. -/
def isRaw (r : Recovery) (offset : Nat) : Bool := r.data.length < offset || r.isInside offset

def regionsFrom (size : Nat) : Nat → List Decoded → List Region
  | start, [] => if start < size then [.gap start size] else []
  | start, d :: ds =>
    (if start < d.offset then [.gap start d.offset] else [])
      ++ .code d :: regionsFrom size d.stop ds

def regions (r : Recovery) : List Region := regionsFrom r.data.length 0 r.code

def gapStarts (r : Recovery) : List Nat :=
  r.regions.filterMap fun
    | .gap start _ => some start
    | .code _ => none

def marks (r : Recovery) : Marks :=
  r.codeMarks ++ ((r.targets.filter fun t => !r.isRaw t) ++ r.gapStarts).map (LabelKind.data, ·)

end Recovery

namespace Marks

def kindAt? (marks : Marks) (offset : Nat) : Option LabelKind :=
  ((marks.filter (·.2 == offset)).map (·.1)).foldl (fun best kind =>
    some (best.elim kind (·.merge kind))) none

def labelName (kind : LabelKind) (offset : Nat) : String := kind.stem ++ "_" ++ Text.hex offset

def nameAt? (marks : Marks) (offset : Nat) : Option String :=
  (marks.kindAt? offset).map (labelName · offset)

def cuts (marks : Marks) (start stop : Nat) : List (Nat × Nat) :=
  let starts := (List.range' start (stop - start)).filter fun o => (marks.kindAt? o).isSome
  starts.zip (starts.drop 1 ++ [stop])

def addItem (marks : Marks) (s : Script) (unit : Nat × Item) : Except Error Script := do
  let s ← match marks.nameAt? unit.1 with
    | some name => s.addBlock name
    | none => pure s
  if s.blocks.isEmpty then throw (.fault .strayItem)
  return s.addItem (s.blocks.length - 1) unit.2

def addEntry (marks : Marks) (s : Script) (entry : EntryPoint × Nat) : Except Error Script :=
  match marks.nameAt? entry.2 with
  | some name => s.addEntry entry.1 name
  | none => throw (.fault (.unnamedTarget entry.2))

end Marks

namespace Recovery

/-- Names what a reference leads to, and keeps the width that it is stored in. An offset that stays
one keeps it only if it is not the narrowest. -/
def nameTarget (r : Recovery) (marks : Marks) : Operand → Operand
  | .offset target width isElse span =>
    if r.isRaw target.toNat then
      .offset target (if width = some (.ofAddress target) then none else width) isElse span
    else .label ((marks.nameAt? target.toNat).getD "") width isElse span
  | o => o

def nameTargets (r : Recovery) (marks : Marks) (i : Instruction) : Instruction :=
  { i with operands := Operand.mapLeavesAll (r.nameTarget marks) i.operands }

def slice (r : Recovery) (start stop : Nat) : Bytes := (r.data.drop start).take (stop - start)

/-- The items of a region, each with its offset. Those of a gap start anew at every label. -/
def units (r : Recovery) (marks : Marks) : Region → List (Nat × Item)
  | .code d => [(d.offset, .instruction (r.nameTargets marks d.instruction))]
  | .gap start stop =>
    (marks.cuts start stop).flatMap fun (lo, hi) =>
      (Data.tile lo (r.slice lo hi)).map fun (offset, d) => (offset, .data d)

def script (r : Recovery) (target : Target) (entries : List (EntryPoint × Nat)) :
    Except Error Script := do
  let marks := r.marks
  let named := r.targets.filter fun t => !r.isRaw t
  if let some t := named.find? fun t => (marks.nameAt? t).isNone then
    throw (.fault (.unnamedTarget t))
  let s ← (r.regions.flatMap (r.units marks)).foldlM marks.addItem ⟨target, [], [], {}⟩
  let s ← match marks.nameAt? r.data.length with
    | some name => s.addBlock name
    | none => pure s
  -- References are recorded by address. All have a name that is declared, so their order is not seen.
  let s := named.foldl (fun s t => s.addReference ((marks.nameAt? t).getD "")) s
  let s ← entries.foldlM marks.addEntry s
  s.labels.resolveAll
  return s

end Recovery

end EventScript
