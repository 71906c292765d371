import EventScript.Bytecode.Lower

/-!
Layout and bytes.

The size of a tagged address depends on the address, and addresses depend on the sizes before them.
A pass places the code and widens, one step each, the pointers whose target does not fit any more.
The first pass that widens none has the layout.
-/

namespace EventScript

-- Powers are those of the core library, whatever else is imported.
attribute [local instance (2000)] instPowNat

namespace Code

/-- A pointer that may grow and whose target is too far for it. -/
def mustGrow (addresses : List Nat) (p : Pointer) : Bool :=
  !p.forced && addresses[p.block]?.any fun (target : Nat) =>
    p.width.bytes < (Width.ofAddress target).bytes

def growing (c : Code) : List Pointer := c.pointers.filter (mustGrow c.blockAddresses)

def widen (c : Code) : Code :=
  let addresses := c.blockAddresses
  c.mapPointers fun p => if mustGrow addresses p then { p with width := p.width.next } else p

/-- The code that each pass places: at most `limit` passes, up to the first that widens none. -/
def passes : Nat → Code → List Code
  | 0, _ => []
  | limit + 1, c => if c.growing.isEmpty then [c] else c :: passes limit c.widen

/-- The settled code and the number of passes it took. -/
def settle (limit : Nat) (c : Code) : Except Error (Code × Nat) :=
  let run := c.passes limit
  match run.getLast? with
  | none => .error (.fault .noPasses)
  | some last =>
    match last.growing.getLast? with
    | none => .ok (last, run.length)
    | some p => .error (.encode ⟨.unsettled limit p.label p.site, p.span⟩)

end Code

structure Fixup where
  item : Nat
  operand : Nat
  label : String
  width : Width
  deriving DecidableEq, Repr

structure Layout where
  size : Nat
  passes : Nat
  blockAddresses : List Nat
  itemAddresses : List Nat
  fixups : List Fixup
  deriving DecidableEq, Repr

def blockAddress (addresses : List Nat) (block : Nat) : Except Error Nat :=
  match addresses[block]? with
  | some address => .ok address
  | none => .error (.fault .missingBlock)

namespace Layout

def ofCode (c : Code) (passes : Nat) : Layout where
  size := c.size
  passes := passes
  blockAddresses := c.blockAddresses
  itemAddresses := c.itemAddresses
  fixups := (c.items.mapIdx fun index item => item.pointers.map fun p =>
    ⟨index, p.site.operand, p.label, p.width⟩).flatten

def addressOf (l : Layout) (s : Script) (label : String) : Except Error Nat := do
  let binding ← s.labels.resolve label
  blockAddress l.blockAddresses binding.block

end Layout

def defaultPasses : Nat := 64

namespace Piece

def word (value : Nat) : Except Error Bytes :=
  if value < 2 ^ (32 : Nat) then .ok (Bytes.pack value 4) else .error (.fault .addressOverflow)

def emit (addresses : List Nat) (address stop : Nat) : Piece → Except Error Bytes
  | bytes bs => .ok bs
  | pointer p => do
    let value ← blockAddress addresses p.block
    if value < 2 ^ p.width.bits then return p.width.constant value
    throw (.encode ⟨.addressTooWide value p.width.bits p.label p.site, p.span⟩)
  | blockWord block => blockAddress addresses block >>= word
  | endWord => word stop
  | sizeWord site span =>
    if stop - address ≤ maxArgumentSize then .ok (Bytes.pack (stop - address : Nat) 2)
    else .error (.encode ⟨.argumentsTooLarge site (stop - address), span⟩)

end Piece

def ItemCode.emit (addresses : List Nat) (stop : Nat) : Nat → ItemCode → Except Error Bytes
  | _, [] => .ok []
  | address, piece :: pieces => do
    let first ← piece.emit addresses address stop
    let rest ← ItemCode.emit addresses stop (address + piece.size) pieces
    return first ++ rest

namespace Code

def emitItems (addresses : List Nat) : Nat → List ItemCode → Except Error Bytes
  | _, [] => .ok []
  | address, item :: items => do
    let stop := address + item.size
    let first ← item.emit addresses stop address
    let rest ← emitItems addresses stop items
    return first ++ rest

def emit (c : Code) : Except Error Bytes := do
  let bytes ← emitItems c.blockAddresses 0 c.items
  if bytes.length = c.size then return bytes
  throw (.encode ⟨.sizeMismatch bytes.length c.size, none⟩)

end Code

structure Assembled where
  bytes : Bytes
  entries : List (EntryPoint × Nat)
  layout : Layout

namespace Script

def layout (s : Script) (limit : Nat := defaultPasses) : Except Error Layout := do
  let (code, passes) ← (← s.lower).settle limit
  return .ofCode code passes

def entryAddresses (s : Script) (l : Layout) : Except Error (List (EntryPoint × Nat)) :=
  s.entryPoints.mapM fun (entry, label) => do return (entry, ← l.addressOf s label)

def assemble (s : Script) (limit : Nat := defaultPasses) : Except Error Assembled := do
  let (code, passes) ← (← s.lower).settle limit
  let bytes ← code.emit
  let layout := Layout.ofCode code passes
  return ⟨bytes, ← s.entryAddresses layout, layout⟩

end Script

end EventScript
