import EventScript.Shape.Slot

namespace EventScript

inductive OperatorRole where
  | plain
  | constant (width : Width)
  | address
  | binary
  /-- A compound assignment: like `binary`, with a place to assign to as its first argument. -/
  | assignment
  deriving DecidableEq, Repr

structure Operator where
  name : String
  code : UInt8
  shapes : List Shape
  role : OperatorRole := .plain
  assignable : Bool := false
  deriving DecidableEq, Repr

namespace Operator

def operand : Slot := .expr .value

def nullary : List Shape := [[]]

def unary : List Shape := [[operand]]

def binaryOp (name : String) (code : UInt8) : Operator :=
  { name, code, role := .binary, shapes := [[operand, operand]] }

def assignmentOp (name : String) (code : UInt8) : Operator :=
  { name, code, role := .assignment, shapes := [[.assignable, operand]] }

def propertyShapes : List Shape :=
  ([.anim, .dir, .posX, .posY, .posZ, .unk235, .unk247, .unk248] : List Atom).map
      (fun a => [.atom a, .expr .object])
  ++ ([.boneX, .boneY, .boneZ, .dirTo, .distance, .unk249, .unk250] : List Atom).map
      (fun a => [.atom a, .expr .array])

def all : List Operator :=
  [ binaryOp "eq" 0, binaryOp "ne" 1, binaryOp "lt" 2, binaryOp "le" 3, binaryOp "gt" 4,
    binaryOp "ge" 5,
    { name := "not", code := 6, shapes := unary },
    binaryOp "add" 7, binaryOp "sub" 8, binaryOp "mul" 9, binaryOp "div" 10, binaryOp "mod" 11,
    binaryOp "and" 12, binaryOp "or" 13, binaryOp "xor" 14,
    assignmentOp "adda" 15, assignmentOp "suba" 16, assignmentOp "mula" 17, assignmentOp "diva" 18,
    assignmentOp "moda" 19, assignmentOp "anda" 20, assignmentOp "ora" 21, assignmentOp "xora" 22,
    { name := "i16", code := 23, shapes := [[.integer]], role := .constant .word },
    { name := "i32", code := 24, shapes := [[.integer]], role := .constant .long },
    { name := "addr", code := 25, shapes := [[.pointer]], role := .address },
    { name := "sp", code := 26, shapes := [[.integer]], assignable := true },
    { name := "bp", code := 27, shapes := [[.integer]] },
    { name := "flag", code := 28, shapes := unary, assignable := true },
    { name := "var", code := 29, shapes := unary, assignable := true },
    { name := "result", code := 30, shapes := nullary, assignable := true },
    { name := "result2", code := 31, shapes := nullary, assignable := true },
    { name := "pad", code := 32, shapes := unary, assignable := true },
    { name := "i8", code := 33, shapes := [[.integer]], role := .constant .byte },
    { name := "battery", code := 100, shapes := unary, assignable := true },
    { name := "money", code := 101, shapes := nullary, assignable := true },
    { name := "item", code := 102, shapes := [[.expr .item]], assignable := true },
    { name := "atc", code := 103, shapes := unary, assignable := true },
    { name := "rank", code := 104, shapes := nullary, assignable := true },
    { name := "exp", code := 105, shapes := nullary, assignable := true },
    { name := "level", code := 106, shapes := nullary, assignable := true },
    { name := "hold", code := 107, shapes := nullary },
    { name := "map", code := 108, shapes := unary },
    { name := "actor_name", code := 109, shapes := [[.expr .object]] },
    { name := "item_name", code := 110, shapes := [[.expr .item]] },
    { name := "time", code := 111, shapes := unary, assignable := true },
    { name := "cur_suit", code := 112, shapes := nullary, assignable := true },
    { name := "scrap", code := 113, shapes := nullary, assignable := true },
    { name := "cur_atc", code := 114, shapes := nullary, assignable := true },
    { name := "use", code := 115, shapes := nullary },
    { name := "hit", code := 116, shapes := nullary },
    { name := "sticker_name", code := 117, shapes := unary },
    { name := "obj", code := 200, shapes := propertyShapes },
    { name := "rand", code := 201, shapes := unary },
    { name := "sin", code := 202, shapes := unary },
    { name := "cos", code := 203, shapes := unary },
    { name := "array", code := 204, shapes := [[operand, operand, .expr .array]] } ]

def ofName? (name : String) : Option Operator := all.find? (·.name == name)

def ofCode? (code : UInt8) : Option Operator := all.find? (·.code == code)

def addressCode : UInt8 := 25

def isReversed (o : Operator) : Bool := o.role == .binary || o.role == .assignment

def isAssignment (name : String) : Bool := (ofName? name).any (·.role == .assignment)

def isAssignable (name : String) : Bool := (ofName? name).any (·.assignable)

def constantWidth? (name : String) : Option Width :=
  (ofName? name).bind fun o => match o.role with
    | .constant width => some width
    | _ => none

end Operator

end EventScript
