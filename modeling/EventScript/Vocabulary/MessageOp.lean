import EventScript.Shape.Slot

namespace EventScript

structure MessageOp where
  name : String
  code : UInt8
  shapes : List Shape
  deriving DecidableEq, Repr

namespace MessageOp

def u8 : Slot := .field ⟨.byte, false, false⟩
def u16 : Slot := .field ⟨.word, false, false⟩
def u32 : Slot := .field ⟨.long, false, false⟩
def i16 : Slot := .field ⟨.word, true, false⟩
def i32 : Slot := .field ⟨.long, true, false⟩

def rgba : Slot := .field ⟨.long, false, true⟩

def soundShapes : List Shape :=
  ([-1, 0, 1, 5, 6] : List Int).map (fun v => [u32, .literal v])
  ++ ([2, 3] : List Int).map (fun v => [u32, .literal v, u16])
  ++ [[u32, .literal 4, u16, u8]]

def all : List MessageOp :=
  [ ⟨"speed", 1, [[u8]]⟩, ⟨"wait", 2, [[u8]]⟩, ⟨"anim", 3, [[u8, i16, i32]]⟩,
    ⟨"sfx", 4, soundShapes⟩, ⟨"voice", 5, [[u8]]⟩, ⟨"def", 6, [[u8, i32]]⟩,
    ⟨"format", 12, [[.format]]⟩, ⟨"size", 13, [[u8]]⟩, ⟨"color", 14, [[u8]]⟩,
    ⟨"rgba", 15, [[rgba]]⟩, ⟨"prop", 16, [[u8]]⟩, ⟨"icon", 17, [[u8]]⟩,
    ⟨"shake", 18, [[u8, u8, u8]]⟩, ⟨"center", 19, [[u8]]⟩, ⟨"rotate", 20, [[i16]]⟩,
    ⟨"scale", 21, [[i16, i16]]⟩, ⟨"input", 22, [[u8, u8, u8]]⟩, ⟨"ask", 23, [[u8, u8]]⟩,
    ⟨"stay", 24, [[]]⟩ ]

def ofName? (name : String) : Option MessageOp := all.find? (·.name == name)

def ofCode? (code : UInt8) : Option MessageOp := all.find? (·.code == code)

def textName : String := "text"

/-- The command that takes text up to its own code. -/
def formatCode : UInt8 := 12

def endByte : UInt8 := 0

def maxBodySize : Nat := 2048

def isTextByte (b : UInt8) : Bool := 24 < b || b == 10 || b == 11

end MessageOp

end EventScript
