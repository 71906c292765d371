import EventScript.CommandLine.Run
import EventScript.Proofs.Outcome

namespace EventScript.CommandLine

theorem length_le_utf8ByteSize (cs : List Char) : cs.length ≤ (String.ofList cs).utf8ByteSize := by
  induction cs with
  | nil => simp
  | cons c cs ih =>
    have split : String.ofList (c :: cs) = String.ofList [c] ++ String.ofList cs := by
      rw [← String.ofList_append, List.singleton_append]
    have single : (String.ofList [c]).utf8ByteSize = c.utf8Size := by
      exact String.utf8ByteSize_singleton
    rw [split, String.utf8ByteSize_append, single, List.length_cons]
    have := c.utf8Size_pos
    omega

namespace Path

variable {p : Path}

theorem stem_append_suffix (p : Path) : p.stem ++ p.suffix = p.name := by
  unfold stem suffix splitName
  dsimp only
  split
  · rw [← String.ofList_append, List.take_append_drop, String.ofList_toList]
  · exact String.append_empty

theorem name_mem_parts (nonempty : p.name ≠ "") : p.name ∈ p.parts := by
  unfold name at nonempty ⊢
  cases last : p.parts.getLast? with
  | none => exact absurd (by rw [last]; rfl) nonempty
  | some part => exact List.mem_of_getLast? last

end Path

namespace Folder

variable {f : Folder} {p : Path} {place : Place}

theorem step_eq_ok {part : String} {next : Place} : f.step place part = .ok next ↔ f.isFolder place = true ∧
    part.utf8ByteSize ≤ maxNameSize ∧ next = if part = parentPart then parent place else place ++ [part] := by
  unfold step nodeAt
  by_cases here : f.isFolder place = true
  · rw [if_pos here]
    dsimp only
    split_ifs <;> grind
  · rw [if_neg here]
    cases f.files.find? (·.1 == place) <;> simp [here]

theorem parts_of_locate (located : f.locate p = .ok place) :
    ∀ part ∈ p.parts, '\x00' ∉ part.toList ∧ part.utf8ByteSize ≤ maxNameSize := by
  unfold locate at located
  split at located
  · cases located
  · rename_i plain
    have steps (parts : List String) (start : Place) (walked : parts.foldlM f.step start = .ok place) :
        ∀ part ∈ parts, part.utf8ByteSize ≤ maxNameSize := by
      induction parts generalizing start with
      | nil => simp
      | cons part parts ih =>
        obtain ⟨next, step, rest⟩ := bind_eq_ok.1 walked
        exact List.forall_mem_cons.2 ⟨(step_eq_ok.1 step).2.1, ih next rest⟩
    intro part member
    refine ⟨fun nul => plain ?_, steps p.parts _ located part member⟩
    exact List.any_eq_true.2 ⟨part, member, by simpa using nul⟩

theorem locate_name {name : String} (plain : '\x00' ∉ name.toList) (short : name.utf8ByteSize ≤ maxNameSize)
    (proper : name ≠ parentPart) : f.locate ⟨false, [name]⟩ = .ok [name] := by
  have step : f.step [] name = .ok [name] :=
    step_eq_ok.2 ⟨rfl, short, by rw [if_neg proper]; rfl⟩
  unfold locate
  rw [if_neg (by simpa using plain)]
  exact bind_eq_ok.2 ⟨_, step, rfl⟩

theorem getLast?_of_locate {isAbsolute : Bool} {parts : List String} {name : String}
    (located : f.locate ⟨isAbsolute, parts ++ [name]⟩ = .ok place) (proper : name ≠ parentPart) :
    place.getLast? = some name := by
  unfold locate at located
  split at located
  · cases located
  · rw [List.foldlM_append] at located
    obtain ⟨above, -, last⟩ := bind_eq_ok.1 located
    obtain ⟨next, step, same⟩ := bind_eq_ok.1 last
    obtain ⟨-, -, rfl⟩ := step_eq_ok.1 step
    cases same
    rw [if_neg proper, List.getLast?_concat]

theorem read_eq_ok {bytes : Bytes} :
    f.read p = .ok bytes ↔ ∃ place, f.locate p = .ok place ∧ f.nodeAt place = .file bytes := by
  unfold read
  rw [bind_eq_ok]
  refine exists_congr fun place => and_congr_right fun _ => ?_
  cases f.nodeAt place with
  | file stored => simp [pure_eq_ok]
  | folder => simp
  | missing => simp

theorem nodeAt_eq_folder : f.nodeAt place = .folder ↔ f.isFolder place = true := by
  unfold nodeAt
  split
  · simp [*]
  · cases f.files.find? (·.1 == place) <;> simp [*]

theorem write_eq_ok {bytes : Bytes} {g : Folder} : f.write p bytes = .ok g ↔
    ∃ place, f.locate p = .ok place ∧ f.isFolder place = false ∧ g = f.setFile place bytes := by
  unfold write
  rw [bind_eq_ok]
  refine exists_congr fun place => and_congr_right fun _ => ?_
  rw [← Bool.not_eq_true, ← nodeAt_eq_folder]
  cases f.nodeAt place with
  | folder => simp
  | _ => exact ⟨fun stored => ⟨by simp, (pure_eq_ok.1 stored).symm⟩, fun stored => pure_eq_ok.2 stored.2.symm⟩

end Folder

end EventScript.CommandLine
