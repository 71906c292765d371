import EventScript.Recovery.Pin

namespace EventScript

/-- A script with library functions is the globals, any other a stage without a name of its own. -/
def Target.ofSeeds (seeds : List Seed) : Target :=
  if seeds.any fun s => s.1.any (!·.isStageEvent) then .globals else .stage "untitled"

namespace Script

def recover (r : Recovery) (seeds : List Seed) (target : Option Target) : Except Error Script :=
  r.script (target.getD (.ofSeeds seeds))
    (seeds.filterMap fun (entry, offset) => entry.map (·, offset.toNat))

def disassemble (data : Bytes) (seeds : List Seed) (target : Option Target := none)
    (limit : Nat := defaultPasses) : Except Error Script := do
  let recovery ← Recovery.ofSeeds data seeds
  (← recover recovery seeds target).minimizePins limit

def firstDifference : Bytes → Bytes → Nat
  | a :: as, b :: bs => if a = b then firstDifference as bs + 1 else 0
  | _, _ => 0

/-- Fails unless the script assembles to `data`. -/
def verify (s : Script) (data : Bytes) (limit : Nat := defaultPasses) : Except Error Unit := do
  let bytes := (← s.assemble limit).bytes
  if bytes ≠ data then
    let offset := firstDifference bytes data
    throw (.decode ⟨.differs offset, offset⟩)

end Script

end EventScript
