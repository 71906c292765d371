namespace EventScript

inductive Atom where
  | time | fade | wipe | unk203 | anim | dir | move | pos | obj | reset | unk210 | unk211
  | posX | posY | posZ | boneX | boneY | boneZ | dirTo | color | lead | sfx | modulate | blend
  | real | cam | hud | unk227 | distance | unk229 | unk230 | unk231 | unk232 | read | zblur
  | unk235 | unk236 | unk237 | unk238 | letterbox | unk240 | shake | mono | unk243 | scale
  | cue | unk246 | unk247 | unk248 | unk249 | unk250 | unk251 | unk252
  deriving DecidableEq, Repr

namespace Atom

def name : Atom → String
  | .time => "time"
  | .fade => "fade"
  | .wipe => "wipe"
  | .unk203 => "unk203"
  | .anim => "anim"
  | .dir => "dir"
  | .move => "move"
  | .pos => "pos"
  | .obj => "obj"
  | .reset => "reset"
  | .unk210 => "unk210"
  | .unk211 => "unk211"
  | .posX => "pos_x"
  | .posY => "pos_y"
  | .posZ => "pos_z"
  | .boneX => "bone_x"
  | .boneY => "bone_y"
  | .boneZ => "bone_z"
  | .dirTo => "dir_to"
  | .color => "color"
  | .lead => "lead"
  | .sfx => "sfx"
  | .modulate => "modulate"
  | .blend => "blend"
  | .real => "real"
  | .cam => "cam"
  | .hud => "hud"
  | .unk227 => "unk227"
  | .distance => "distance"
  | .unk229 => "unk229"
  | .unk230 => "unk230"
  | .unk231 => "unk231"
  | .unk232 => "unk232"
  | .read => "read"
  | .zblur => "zblur"
  | .unk235 => "unk235"
  | .unk236 => "unk236"
  | .unk237 => "unk237"
  | .unk238 => "unk238"
  | .letterbox => "letterbox"
  | .unk240 => "unk240"
  | .shake => "shake"
  | .mono => "mono"
  | .unk243 => "unk243"
  | .scale => "scale"
  | .cue => "cue"
  | .unk246 => "unk246"
  | .unk247 => "unk247"
  | .unk248 => "unk248"
  | .unk249 => "unk249"
  | .unk250 => "unk250"
  | .unk251 => "unk251"
  | .unk252 => "unk252"

def all : List Atom :=
  [ .time, .fade, .wipe, .unk203, .anim, .dir, .move, .pos, .obj, .reset, .unk210, .unk211,
    .posX, .posY, .posZ, .boneX, .boneY, .boneZ, .dirTo, .color, .lead, .sfx, .modulate, .blend,
    .real, .cam, .hud, .unk227, .distance, .unk229, .unk230, .unk231, .unk232, .read, .zblur,
    .unk235, .unk236, .unk237, .unk238, .letterbox, .unk240, .shake, .mono, .unk243, .scale,
    .cue, .unk246, .unk247, .unk248, .unk249, .unk250, .unk251, .unk252 ]

def ofName? (name : String) : Option Atom := all.find? (·.name == name)

def firstCode : Nat := 200

/-- The codes are consecutive, in the order of the constructors. -/
def code (a : Atom) : Nat := firstCode + a.ctorIdx

end Atom

end EventScript
