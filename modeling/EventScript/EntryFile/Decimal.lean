namespace EventScript

-- Powers are those of the core library, whatever else is imported.
attribute [local instance (2000)] instPowNat

/-- The number `digits * 10 ^ exponent` with a sign. -/
structure Decimal where
  negative : Bool
  digits : Nat
  exponent : Int
  deriving DecidableEq, Repr

def roundQuotient (num den : Nat) : Nat :=
  let quotient := num / den
  let twice := 2 * (num % den)
  if den < twice ∨ (twice = den ∧ quotient % 2 = 1) then quotient + 1 else quotient

def floorLog2 (num den : Nat) : Int :=
  let guess : Int := (num.log2 : Int) - den.log2
  if num * 2 ^ (-guess).toNat < den * 2 ^ guess.toNat then guess - 1 else guess

namespace Decimal

def precision : Nat := 53

def maxMagnitude : Int := 310

/-- The integer part of the positive number `num / den`, rounded to 53 bits before. -/
def integerPart (num den : Nat) : Nat :=
  let shift := floorLog2 num den - (precision - 1)
  let rounded := roundQuotient (num * 2 ^ (-shift).toNat) (den * 2 ^ shift.toNat)
  rounded * 2 ^ shift.toNat / 2 ^ (-shift).toNat

def truncate (d : Decimal) : Option Int :=
  let magnitude := (toString d.digits).length + d.exponent
  if d.digits = 0 ∨ magnitude < 0 then some 0
  else if maxMagnitude < magnitude then none
  else
    let whole := integerPart (d.digits * 10 ^ d.exponent.toNat) (10 ^ (-d.exponent).toNat)
    if 2 ^ (1024 : Nat) ≤ whole then none
    else some (if d.negative then -(whole : Int) else whole)

end Decimal

end EventScript
