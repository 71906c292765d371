import EventScript.Shape.Slot

namespace EventScript

inductive Category where
  | control
  | data
  | direction
  | debug
  | system
  deriving DecidableEq, Repr

namespace Category

def name : Category → String
  | control => "control"
  | data => "data"
  | direction => "direction"
  | debug => "debug"
  | system => "system"

def all : List Category := [control, data, direction, debug, system]

def ofName? (s : String) : Option Category := all.find? (·.name == s)

end Category

inductive OperandLayout where
  | plain
  | assignment
  | message
  /-- A 16-bit size, then the operands that it measures together with itself. -/
  | sized
  | counted
  | terminated
  deriving DecidableEq, Repr

structure Command where
  name : String
  code : UInt8
  category : Category
  shapes : List Shape
  layout : OperandLayout := .plain
  endsFlow : Bool := false
  deriving DecidableEq, Repr

namespace Command

def value : Slot := .expr .value
def object : Slot := .expr .object
def event : Slot := .expr .event
def sound : Slot := .expr .sound
def string : Slot := .expr .string

def values (n : Nat) : Shape := List.replicate n value

def choices (start : Shape) (selected : List Int) (rest : Shape) : List Shape :=
  selected.map fun v => start ++ .literal v :: rest

def conditions : List Shape :=
  [ [.atom .time, value], [.atom .fade], [.atom .wipe], [.atom .unk203],
    [.atom .anim, object, value], [.atom .dir, object], [.atom .move, object],
    [.atom .color, object], [.atom .sfx, sound], [.atom .real, value], [.atom .cam],
    [.atom .read, object], [.atom .zblur], [.atom .letterbox], [.atom .shake], [.atom .mono],
    [.atom .scale, object], [.atom .cue], [.atom .unk246, value] ]

def cameraShapes : List Shape :=
  [ .atom .anim :: values 3, .atom .pos :: values 5, .atom .obj :: values 3,
    .atom .reset :: values 2, .atom .unk211 :: values 4, [.atom .lead, value],
    .atom .unk227 :: values 5, .atom .distance :: values 3, .atom .unk229 :: values 3,
    [.atom .unk230] ]
  ++ choices [.atom .unk232] [-2, -1, 0, 1] []
  ++ choices [.atom .unk232] [2, 3, 4] [value]
  ++ [ [.atom .unk236, value], [.atom .unk237, value], [.atom .unk238, value],
    .atom .unk240 :: values 4, .atom .unk243 :: values 4, .atom .unk251 :: values 4,
    .atom .unk252 :: values 4 ]

def screenShapes : List Shape :=
  [.atom .fade :: values 9, .atom .wipe :: values 17]
  ++ choices [.atom .hud] [0, 1, 2] [value]
  ++ [.atom .hud :: .literal 3 :: values 4]
  ++ choices [.atom .hud, .literal 4] [-4, -2, -1, 0, 1, 2, 3] []
  ++ [ [.atom .hud, .literal 4, .literal (-3), value], .atom .zblur :: values 5,
    .atom .letterbox :: values 10, .atom .shake :: values 7, .atom .mono :: values 9 ]

def all : List Command :=
  [ { name := "abort", code := 1, category := .control, shapes := [[]], endsFlow := true },
    { name := "return", code := 2, category := .control, shapes := [[]], endsFlow := true },
    { name := "goto", code := 3, category := .control, shapes := [[.pointer]], endsFlow := true },
    { name := "set", code := 4, category := .data, layout := .assignment,
      shapes := [[.update], [.assignable, value]] },
    { name := "if", code := 5, category := .control, shapes := [[value, .elsePointer]] },
    { name := "elif", code := 6, category := .control, shapes := [[value, .elsePointer]] },
    { name := "endif", code := 7, category := .control, shapes := [[.pointer]], endsFlow := true },
    { name := "case", code := 8, category := .control, shapes := [[value, .elsePointer]] },
    { name := "expr", code := 9, category := .control, shapes := [[value, .elsePointer]] },
    { name := "while", code := 10, category := .control, shapes := [[value, .elsePointer]] },
    { name := "break", code := 11, category := .control, shapes := [[.pointer]], endsFlow := true },
    { name := "run", code := 12, category := .control, shapes := [[.pointer]] },
    { name := "lib", code := 13, category := .control, shapes := [[.integer]] },
    { name := "pushbp", code := 14, category := .data, shapes := [[]] },
    { name := "popbp", code := 15, category := .data, shapes := [[]] },
    { name := "setsp", code := 16, category := .data, shapes := [[value]] },
    { name := "anim", code := 17, category := .direction, layout := .terminated,
      shapes := [[object, .variadic]] },
    { name := "anim1", code := 18, category := .direction, layout := .terminated,
      shapes := [[object, .variadic]] },
    { name := "anim2", code := 19, category := .direction, layout := .terminated,
      shapes := [[object, .variadic]] },
    { name := "attach", code := 20, category := .direction, shapes := [[object, event]] },
    { name := "born", code := 21, category := .direction, shapes := [values 9 ++ [event]] },
    { name := "call", code := 22, category := .direction, layout := .sized,
      shapes := [[object, .variadic]] },
    { name := "camera", code := 23, category := .direction, shapes := cameraShapes },
    { name := "check", code := 24, category := .system, shapes := conditions },
    { name := "color", code := 25, category := .direction,
      shapes := [object :: .atom .modulate :: values 4, object :: .atom .blend :: values 4] },
    { name := "detach", code := 26, category := .direction, shapes := [[object]] },
    { name := "dir", code := 27, category := .direction, shapes := [[object, value]] },
    { name := "mdir", code := 28, category := .direction,
      shapes := [object :: .atom .dir :: values 3, object :: .atom .pos :: values 4,
        object :: .atom .obj :: values 3, object :: .atom .cam :: values 2] },
    { name := "disp", code := 29, category := .direction, shapes := [[object, value]] },
    { name := "kill", code := 30, category := .direction, shapes := [[value]] },
    { name := "light", code := 31, category := .direction,
      shapes := [value :: .atom .pos :: values 3, value :: .atom .color :: values 3,
        value :: .atom .unk227 :: values 3] },
    { name := "menu", code := 32, category := .system,
      shapes := choices [] [0, 1, 2, 3, 4, 5, 6, 7] []
        ++ [[.literal 1000, value], [.literal 1001, value, value]] },
    { name := "move", code := 33, category := .direction, shapes := [object :: values 4] },
    { name := "moveto", code := 34, category := .direction, shapes := [object :: values 6] },
    { name := "msg", code := 35, category := .direction, layout := .message,
      shapes := [[.message]] },
    { name := "pos", code := 36, category := .direction, shapes := [object :: values 3] },
    { name := "printf", code := 37, category := .debug, shapes := [[.text]] },
    { name := "ptcl", code := 38, category := .direction, layout := .counted,
      shapes := [value :: .atom .pos :: values 7, value :: .atom .obj :: object :: values 7,
        [value, .atom .unk210], [value, .atom .lead, object, .variadic]] },
    { name := "read", code := 39, category := .system,
      shapes := [[.atom .anim, object, string], [.atom .sfx, object, string]] },
    { name := "scale", code := 40, category := .direction, shapes := [object :: values 3] },
    { name := "mscale", code := 41, category := .direction, shapes := [object :: values 4] },
    { name := "scrn", code := 42, category := .direction, shapes := screenShapes },
    { name := "select", code := 43, category := .direction, layout := .message,
      shapes := [[.message]] },
    { name := "sfx", code := 44, category := .direction,
      shapes := choices [sound] [0, 1, 5, 6] [] ++ choices [sound] [2, 3] [value]
        ++ [[sound, .literal 4, value, value], [sound, .atom .cue]] },
    { name := "timer", code := 45, category := .direction, shapes := [[value, event]] },
    { name := "wait", code := 46, category := .system, shapes := conditions },
    { name := "warp", code := 47, category := .direction, shapes := [[value, value]] },
    { name := "win", code := 48, category := .direction,
      shapes := [[.atom .pos, value, value], [.atom .obj, object, value, value, value],
        [.atom .reset], .atom .color :: values 4, [.atom .letterbox]] },
    { name := "movie", code := 49, category := .direction, shapes := [string :: values 5] } ]

def ofName? (name : String) : Option Command := all.find? (·.name == name)

def ofCode? (code : UInt8) : Option Command := all.find? (·.code == code)

def takesMessage (name : String) : Bool :=
  (ofName? name).any (·.layout == .message)

def takesTerminator (name : String) : Bool :=
  (ofName? name).any (·.layout == .terminated)

end Command

end EventScript
