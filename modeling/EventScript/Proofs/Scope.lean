import EventScript.Proofs.SeedOrder
import EventScript.Proofs.Validity

namespace EventScript

variable {s s' : Script} {target : Target}

theorem Target.isGlobals_ofSeeds {seeds : List Seed} : (Target.ofSeeds seeds).isGlobals = true ↔
    ∃ index offset, (some (.library index), offset) ∈ seeds := by
  unfold ofSeeds
  split
  · rename_i library
    obtain ⟨⟨entry, offset⟩, member, isLibrary⟩ := List.any_eq_true.1 library
    cases entry with
    | none => cases isLibrary
    | some entry =>
      cases entry with
      | library index => exact iff_of_true rfl ⟨index, offset, member⟩
      | _ => cases isLibrary
  · rename_i noLibrary
    refine iff_of_false Bool.false_ne_true ?_
    rintro ⟨index, offset, member⟩
    exact noLibrary (List.any_eq_true.2 ⟨_, member, rfl⟩)

namespace Marks

variable {marks : Marks}

theorem addItem_retarget {unit : Nat × Item} (added : marks.addItem s unit = .ok s') :
    marks.addItem { s with target } unit = .ok { s' with target } := by
  rcases addItem_eq_ok.1 added with ⟨name, named, fresh, rfl⟩ | ⟨unnamed, front, last, split, rfl⟩
  · exact addItem_eq_ok.2 (.inl ⟨name, named, fresh, rfl⟩)
  · exact addItem_eq_ok.2 (.inr ⟨unnamed, front, last, split, rfl⟩)

theorem foldlM_addItem_retarget {units : List (Nat × Item)} (added : units.foldlM marks.addItem s = .ok s') :
    units.foldlM marks.addItem { s with target } = .ok { s' with target } := by
  induction units generalizing s with
  | nil =>
    cases added
    rfl
  | cons unit units ih =>
    obtain ⟨s₁, step, rest⟩ := bind_eq_ok.1 added
    exact bind_eq_ok.2 ⟨_, addItem_retarget step, ih rest⟩

theorem foldlM_addEntry_retarget {entries : List (EntryPoint × Nat)} (added : entries.foldlM marks.addEntry s = .ok s')
    (scope : target.isGlobals = s.target.isGlobals) :
    entries.foldlM marks.addEntry { s with target } = .ok { s' with target } := by
  obtain ⟨each, distinct, rfl⟩ := foldlM_addEntry_eq_ok.1 added
  exact foldlM_addEntry_eq_ok.2 ⟨by rwa [scope], distinct, rfl⟩

end Marks

theorem Recovery.script_close_retarget {r : Recovery} {entries : List (EntryPoint × Nat)} {s₁ : Script}
    (scope : target.isGlobals = s₁.target.isGlobals) (built : (do
      let s ← entries.foldlM r.marks.addEntry ((r.targets.filter fun t => !r.isRaw t).foldl
        (fun s t => s.addReference ((r.marks.nameAt? t).getD "")) s₁)
      s.labels.resolveAll
      return s : Except Error Script) = .ok s) : (do
      let s ← entries.foldlM r.marks.addEntry ((r.targets.filter fun t => !r.isRaw t).foldl
        (fun s t => s.addReference ((r.marks.nameAt? t).getD "")) { s₁ with target })
      s.labels.resolveAll
      return s : Except Error Script) = .ok { s with target } := by
  rw [foldl_addReference] at built ⊢
  obtain ⟨s₂, entered, built⟩ := bind_eq_ok.1 built
  obtain ⟨_, resolved, built⟩ := bind_eq_ok.1 built
  cases built
  exact bind_eq_ok.2 ⟨{ s with target }, Marks.foldlM_addEntry_retarget entered scope, bind_eq_ok.2 ⟨(), resolved, rfl⟩⟩

theorem Recovery.script_retarget {r : Recovery} {target' : Target} {entries : List (EntryPoint × Nat)}
    (scope : target.isGlobals = target'.isGlobals) (built : r.script target' entries = .ok s) :
    r.script target entries = .ok { s with target } := by
  unfold script at built ⊢
  dsimp only at built ⊢
  cases unnamed : (r.targets.filter fun t => !r.isRaw t).find? fun t => (r.marks.nameAt? t).isNone with
  | some t =>
    rw [unnamed] at built
    cases built
  | none =>
    rw [unnamed] at built
    obtain ⟨s₁, placed, rest⟩ := bind_eq_ok.1 built
    refine bind_eq_ok.2 ⟨_, Marks.foldlM_addItem_retarget placed, ?_⟩
    have sameTarget := ((Marks.builds_nil target').foldlM placed).2.1
    cases atEnd : r.marks.nameAt? r.data.length with
    | none =>
      rw [atEnd] at rest
      exact script_close_retarget (sameTarget ▸ scope) rest
    | some name =>
      rw [atEnd] at rest
      obtain ⟨s₂, opened, rest⟩ := bind_eq_ok.1 rest
      obtain ⟨fresh, rfl⟩ := Script.addBlock_eq_ok.1 (mapError_eq_ok.1 opened)
      refine bind_eq_ok.2 ⟨_, mapError_eq_ok.2 (Script.addBlock_eq_ok.2 ⟨fresh, rfl⟩), ?_⟩
      exact script_close_retarget (sameTarget ▸ scope) rest

namespace Script

variable {data : Bytes} {seeds : List Seed} {limit : Nat}

theorem pinFrom_retarget (s : Script) (target : Target) (limit rounds : Nat) (pins : List Pin) :
    { s with target }.pinFrom limit rounds pins = s.pinFrom limit rounds pins := by
  induction rounds generalizing pins with
  | zero => rfl
  | succ rounds ih =>
    simp only [pinFrom, ih]
    rfl

theorem minimizePins_retarget (minimized : s.minimizePins limit = .ok s') :
    { s with target }.minimizePins limit = .ok { s' with target } := by
  obtain ⟨pins, pinned, same⟩ := bind_eq_ok.1 minimized
  obtain rfl := pure_eq_ok.1 same
  unfold minimizePins
  rw [pinFrom_retarget, bind_eq_ok]
  exact ⟨pins, pinned, rfl⟩

theorem disassemble_retarget {given : Option Target} (disassembled : disassemble data seeds given limit = .ok s)
    (scope : target.isGlobals = (given.getD (.ofSeeds seeds)).isGlobals) :
    disassemble data seeds (some target) limit = .ok { s with target } := by
  obtain ⟨r, s₀, recovered, built, minimized⟩ := disassemble_eq_ok.1 disassembled
  exact disassemble_eq_ok.2 ⟨r, _, recovered, Recovery.script_retarget scope built, minimizePins_retarget minimized⟩

theorem isStageEvent_of_disassemble {given : Option Target} (disassembled : disassemble data seeds given limit = .ok s)
    {entry : EntryPoint} {offset : Int} (seeded : (some entry, offset) ∈ seeds) :
    entry.isStageEvent = !(given.getD (.ofSeeds seeds)).isGlobals := by
  obtain ⟨r, s₀, recovered, built, -⟩ := disassemble_eq_ok.1 disassembled
  have scripts := Recovery.script_eq_ok built
  obtain ⟨e, member, same, -⟩ := exists_right_of_mem scripts.entries (mem_declaredEntries.2 ⟨offset, seeded, rfl⟩)
  rw [← scripts.target, ← scripts.scope e member, same]

theorem exists_disassemble_or_stage (given : Option Target) (name : String) :
    (∃ s, disassemble data seeds (given.or (some (.stage name))) limit = .ok s) ↔
      (∃ s, disassemble data seeds given limit = .ok s) ∧
        (given.isSome ∨ ∀ index offset, (some (.library index), offset) ∉ seeds) := by
  cases given with
  | some target => simp
  | none =>
    have chosen : (Target.ofSeeds seeds).isGlobals = false ↔
        ∀ index offset, (some (.library index), offset) ∉ seeds := by
      rw [← Bool.not_eq_true, Target.isGlobals_ofSeeds]
      simp
    constructor
    · rintro ⟨s, disassembled⟩
      have events : ∀ index offset, (some (.library index), offset) ∉ seeds := by
        intro index offset seeded
        cases isStageEvent_of_disassemble disassembled seeded
      exact ⟨⟨_, disassemble_retarget disassembled (chosen.2 events)⟩, .inr events⟩
    · rintro ⟨⟨s, disassembled⟩, given | events⟩
      · cases given
      · exact ⟨_, disassemble_retarget disassembled (chosen.2 events).symm⟩

end Script
end EventScript
