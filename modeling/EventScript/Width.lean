namespace EventScript

-- Powers are those of the core library, whatever else is imported.
attribute [local instance (2000)] instPowNat

abbrev Bytes := List UInt8

namespace Bytes

/-- Whether `value` can be stored in `size` bytes, as a signed or as an unsigned integer. -/
def fits (value : Int) (size : Nat) : Bool :=
  -(2 ^ (8 * size - 1) : Int) ≤ value && value < 2 ^ (8 * size)

def pack (value : Int) : Nat → Bytes
  | 0 => []
  | size + 1 => UInt8.ofNat (value % 256).toNat :: pack (value / 256) size

def unsigned : Bytes → Nat
  | [] => 0
  | b :: bs => b.toNat + 256 * unsigned bs

def signed (bs : Bytes) : Int :=
  let value := unsigned bs
  if 2 * value < 256 ^ bs.length then value else value - 256 ^ bs.length

end Bytes

inductive Width where
  | byte
  | word
  | long
  deriving DecidableEq, Repr, Inhabited

namespace Width

def bytes : Width → Nat
  | byte => 1
  | word => 2
  | long => 4

def bits (w : Width) : Nat := 8 * w.bytes

def suffix : Width → Char
  | byte => 'b'
  | word => 'w'
  | long => 'd'

def ofSuffix? : Char → Option Width
  | 'b' => some byte
  | 'w' => some word
  | 'd' => some long
  | _ => none

def tag : Width → UInt8
  | byte => 33
  | word => 23
  | long => 24

def ofTag? : UInt8 → Option Width
  | 33 => some byte
  | 23 => some word
  | 24 => some long
  | _ => none

def directive : Width → String
  | byte => "db"
  | word => "dw"
  | long => "dd"

def ofDirective? : String → Option Width
  | "db" => some byte
  | "dw" => some word
  | "dd" => some long
  | _ => none

def ofBytes? : Nat → Option Width
  | 1 => some byte
  | 2 => some word
  | 4 => some long
  | _ => none

def nextBytes : Nat → Nat
  | 1 => 2
  | _ => 4

def next : Width → Width
  | byte => word
  | _ => long

/-- The narrowest width that holds `value` as a signed integer; larger values get the widest. -/
def ofLiteral (value : Int) : Width :=
  if -0x80 ≤ value ∧ value ≤ 0x7f then byte
  else if -0x8000 ≤ value ∧ value ≤ 0x7fff then word
  else long

/-- The narrowest width that holds `value` as an unsigned integer; all others get the widest. -/
def ofAddress (value : Int) : Width :=
  if 0 ≤ value ∧ value ≤ 0xff then byte
  else if 0 ≤ value ∧ value ≤ 0xffff then word
  else long

def constant (w : Width) (value : Int) : Bytes := w.tag :: Bytes.pack value w.bytes

def suffixText : Option Width → String
  | some w => String.ofList ['.', w.suffix]
  | none => ""

end Width

end EventScript
