import EventScript.Bytecode.DecodeError

namespace EventScript

structure Cursor where
  rest : Bytes
  offset : Nat
  deriving DecidableEq, Repr

abbrev Decoder := StateT Cursor (Except DecodeError)

namespace Decoder

def fail {α : Type} (cause : DecodeCause) (offset : Nat) : Decoder α := throw ⟨cause, offset⟩

def offset : Decoder Nat := return (← get).offset

def skip (n : Nat) : Decoder Unit := modify fun c => ⟨c.rest.drop n, c.offset + n⟩

def take (n : Nat) : Decoder Bytes := do
  let c ← get
  let bytes := c.rest.take n
  if bytes.length < n then fail (.truncated n c.offset) c.offset
  skip n
  return bytes

def byte : Decoder UInt8 := do
  let c ← get
  match c.rest with
  | [] => fail (.truncated 1 c.offset) c.offset
  | b :: rest =>
    set (Cursor.mk rest (c.offset + 1))
    return b

def takeWhile (test : UInt8 → Bool) : Decoder Bytes := do
  let c ← get
  let bytes := c.rest.takeWhile test
  skip bytes.length
  return bytes

def takeUntil (stop : UInt8) : Decoder Bytes := do
  let start ← offset
  let bytes ← takeWhile (· != stop)
  if (← get).rest.isEmpty then fail (.noTerminator stop) start
  skip 1
  return bytes

def constant : Decoder (Width × Bytes) := do
  let start ← offset
  let tag ← byte
  match Width.ofTag? tag with
  | some width => return (width, ← take width.bytes)
  | none => fail (.notConstant tag) start

end Decoder

end EventScript
