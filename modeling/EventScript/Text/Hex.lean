namespace EventScript.Text

def hex (n : Nat) : String := String.ofList (Nat.toDigits 16 n)

def hexPadded (width n : Nat) : String :=
  let digits := Nat.toDigits 16 n
  String.ofList (List.replicate (width - digits.length) '0' ++ digits)

def hexInt (v : Int) : String :=
  if v < 0 then "-" ++ hex v.natAbs else hex v.natAbs

end EventScript.Text
