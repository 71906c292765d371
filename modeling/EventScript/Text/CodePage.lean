namespace EventScript.Text

def codePageRow : List (UInt8 × Char) :=
  [ (0x80, '€'), (0x82, '‚'), (0x83, 'ƒ'), (0x84, '„'), (0x85, '…'), (0x86, '†'), (0x87, '‡'),
    (0x88, 'ˆ'), (0x89, '‰'), (0x8a, 'Š'), (0x8b, '‹'), (0x8c, 'Œ'), (0x8e, 'Ž'), (0x91, '‘'),
    (0x92, '’'), (0x93, '“'), (0x94, '”'), (0x95, '•'), (0x96, '–'), (0x97, '—'), (0x98, '˜'),
    (0x99, '™'), (0x9a, 'š'), (0x9b, '›'), (0x9c, 'œ'), (0x9e, 'ž'), (0x9f, 'Ÿ') ]

def encodeChar? (c : Char) : Option UInt8 :=
  if c.toNat < 0x80 || (0xa0 ≤ c.toNat && c.toNat < 0x100) then some (UInt8.ofNat c.toNat)
  else (codePageRow.find? (·.2 == c)).map (·.1)

def decodeByte? (b : UInt8) : Option Char :=
  if b < 0x80 || 0xa0 ≤ b then some (Char.ofNat b.toNat)
  else (codePageRow.find? (·.1 == b)).map (·.2)

/-- A byte that stands for no character becomes the replacement character. -/
def decodeText (bs : List UInt8) : String :=
  String.ofList (bs.map fun b => (decodeByte? b).getD '�')

/-- A character that the code page lacks becomes a question mark. -/
def encodeText (s : String) : List UInt8 :=
  s.toList.map fun c => (encodeChar? c).getD 0x3f

end EventScript.Text
