namespace EventScript

/-- The characters from `start` up to, and without, `stop`. -/
structure Span where
  start : Nat
  stop : Nat
  deriving DecidableEq, Repr, Inhabited

namespace Span

def join (a b : Span) : Span := ⟨min a.start b.start, max a.stop b.stop⟩

def joinOption (a : Span) : Option Span → Span
  | some b => a.join b
  | none => a

def ofChar (i : Nat) : Span := ⟨i, i + 1⟩

def toText (s : Span) : String := toString s.start ++ ".." ++ toString s.stop

end Span

structure Position where
  line : Nat
  column : Nat
  deriving DecidableEq, Repr

/-- The position of a character offset. An offset outside the text is moved to its nearer end. -/
def Position.ofOffset (text : String) (offset : Int) : Position :=
  let before := text.toList.take offset.toNat
  ⟨before.count '\n' + 1, (before.reverse.takeWhile (· != '\n')).length + 1⟩

end EventScript
