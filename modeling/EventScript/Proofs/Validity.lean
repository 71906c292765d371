import EventScript.Proofs.Rebuilding
import EventScript.Proofs.Recovered

namespace EventScript

theorem Operand.isElse_of_isTerm {o : Operand} (isTerm : o.isTerm = true) : o.isElse = false := by
  cases o <;> first | rfl | simpa [Operand.isTerm, Operand.isElse] using isTerm

theorem Operand.eq_or_isElse_of_mem_walk {o inner : Operand} (checked : o.checkExpression = .ok ())
    (inside : inner ∈ o.walk) : inner = o ∨ inner.isElse = false := by
  induction o using Operand.expr_induction with
  | leaf o notExpr =>
    cases o with
    | expr op args span => exact absurd rfl (notExpr op args span)
    | _ => exact .inl (List.mem_singleton.1 inside)
  | expr op args span ih =>
    rw [walk, walkAll_eq_flatMap, List.mem_cons, List.mem_flatMap] at inside
    rcases inside with same | ⟨a, isArg, inArg⟩
    · exact .inl same
    · obtain ⟨isTerm, checked⟩ := SourceItem.isTerm_of_checked checked a isArg
      refine .inr ?_
      rcases ih a isArg checked inArg with rfl | notElse
      · exact isElse_of_isTerm isTerm
      · exact notElse

/-- The operands of an instruction fit a form of its command. References are marked in else slots and
nowhere else, and no argument of a list that is closed by a terminator is a terminator. A message
command has a checked message body instead. -/
structure Instruction.Valid (i : Instruction) (c : Command) : Prop where
  known : c ∈ Command.all
  name : c.name = i.opcode
  message : c.layout = .message → ∃ commands span, i.operands = [.message commands span] ∧
    MessageCommand.Normal commands
  fits : c.layout ≠ .message → ∃ shape, c.shapeOf i.operands = .ok shape ∧
    ∀ index o, i.operands[index]? = some o → (o.isElse = true ↔ shape.slotAt index = some .elsePointer)
  inner : ∀ o ∈ i.operands, ∀ inner ∈ o.walk, inner = o ∨ inner.isElse = false
  tail : c.layout = .terminated → ∀ o ∈ i.operands.drop 1, o.isTerminator = false

/-- The blocks of a script and its labels are the same, all labels that are used are among them, and
the instructions and entry points are ones that the script can have. -/
structure Script.Valid (s : Script) : Prop where
  distinct : (s.blocks.map (·.label)).Nodup
  bindings : s.labels.bindings = s.blocks.mapIdx fun k b => (b.label, ⟨k, 0⟩)
  declared : ∀ name ∈ s.usedLabels, s.labels.contains name = true
  instructions : ∀ i, .instruction i ∈ s.items → ∃ c, i.Valid c
  scope : ∀ e ∈ s.entries, e.1.isStageEvent = !s.target.isGlobals
  synthetic : ∀ k b, s.blocks[k]? = some b → b.isSynthetic = true → k = 0 ∧ b.items ≠ []

theorem Command.Takes.valid {c : Command} (member : c ∈ Command.all) {i : Instruction} (name : c.name = i.opcode)
    (takes : c.Takes i.operands) : i.Valid c := by
  by_cases kind : c.layout = .message
  · obtain ⟨commands, span, same, normal⟩ : ∃ commands span, i.operands = [.message commands span] ∧
        MessageCommand.Normal commands := by simpa only [Takes, kind] using takes
    refine ⟨member, name, fun _ => ⟨commands, span, same, normal⟩, fun other => absurd kind other, ?_,
      fun terminated => ?_⟩
    · intro o isOperand inner inside
      obtain rfl := List.mem_singleton.1 (same ▸ isOperand)
      exact .inl (List.mem_singleton.1 inside)
    · cases kind.symm.trans terminated
  · obtain ⟨shape, chosen, -, elses, tail⟩ := (takes_iff kind).1 takes
    obtain ⟨-, fits, checked⟩ := (Command.shapeOf_eq_ok member).1 chosen
    refine ⟨member, name, fun message => absurd message kind,
      fun _ => ⟨shape, chosen, fun index o here => ⟨fun marked => ?_, elses index o here⟩⟩,
      fun o isOperand _ => Operand.eq_or_isElse_of_mem_walk (checked o isOperand), tail⟩
    obtain ⟨inside, rfl⟩ := List.getElem?_eq_some_iff.1 here
    obtain ⟨slot, isSlot, accepted⟩ := (Option.any_eq_true ..).1 (fits.each index inside)
    by_contra other
    have unmarked := Slot.isElse_of_accepts (fun same => other (same ▸ isSlot)) accepted
    rw [marked] at unmarked
    cases unmarked

namespace Script

variable {s : Script}

/-- The entry points aside, a script that text can hold is a valid one. -/
theorem WellFormed.valid (wellFormed : WellFormed { s with entries := [] })
    (scope : ∀ e ∈ s.entries, e.1.isStageEvent = !s.target.isGlobals)
    (declared : ∀ e ∈ s.entries, ∃ b ∈ s.blocks, b.label = e.2) : s.Valid where
  distinct := wellFormed.distinct
  bindings := wellFormed.bindings
  declared := by
    intro name used
    have isBlock : ∃ b ∈ s.blocks, b.label = name := by
      rcases List.mem_append.1 used with inItems | inEntries
      · exact wellFormed.declared name (List.mem_append_left _ inItems)
      · obtain ⟨e, member, rfl⟩ := List.mem_map.1 inEntries
        exact declared e member
    obtain ⟨b, member, same⟩ := isBlock
    by_contra missing
    have none : s.labels.get? name = none := by simpa [LabelTable.contains] using missing
    exact (get?_eq_none_of_bindings wellFormed.bindings).1 none b member same
  instructions := by
    intro i member
    obtain ⟨c, inAll, name, takes⟩ := wellFormed.items (.instruction i) member
    exact ⟨c, takes.valid inAll name⟩
  scope := scope
  synthetic := by
    intro k b found synthetic
    rcases wellFormed.named k b found with isLabel | ⟨first, -, nonempty⟩
    · rw [isLabel.not_isSynthetic] at synthetic
      cases synthetic
    · exact ⟨first, nonempty⟩

theorem parse_valid {text : String} (parsed : parse text = .ok s) : s.Valid := by
  have wellFormed := parse_wellFormed parsed
  refine WellFormed.valid ⟨⟨wellFormed.bindings, wellFormed.distinct, wellFormed.named, wellFormed.items, by simp,
    by simp, by simp, by simp⟩, fun name used => ?_⟩ wellFormed.scope fun e member => ?_
  · rcases List.mem_append.1 used with inItems | inEntries
    · exact wellFormed.declared name (List.mem_append_left _ inItems)
    · cases inEntries
  · exact wellFormed.declared e.2 (List.mem_append_right _ (List.mem_map_of_mem member))

theorem disassemble_wellFormed_without {data : Bytes} {seeds : List Seed} {target : Option Target} {limit : Nat}
    (disassembled : disassemble data seeds target limit = .ok s) : WellFormed { s with entries := [] } := by
  obtain ⟨r, s₀, recovered, built, minimized⟩ := disassemble_eq_ok.1 disassembled
  obtain ⟨-, ordered⟩ := Recovery.ofSeeds_ordered recovered
  obtain ⟨pins, _, rfl, -⟩ := minimizePins_eq_ok minimized
  have scripts := Recovery.script_eq_ok built
  have without : r.Scripts s₀.target [] { s₀ with entries := [] } :=
    ⟨rfl, scripts.builds.congr rfl rfl, scripts.targets, .nil, .nil, by simp⟩
  exact ordered.wellFormed without (by simp) (by simp) pins

theorem disassemble_valid {data : Bytes} {seeds : List Seed} {target : Option Target} {limit : Nat}
    (disassembled : disassemble data seeds target limit = .ok s) : s.Valid := by
  have wellFormed := disassemble_wellFormed_without disassembled
  obtain ⟨r, s₀, recovered, built, minimized⟩ := disassemble_eq_ok.1 disassembled
  obtain ⟨pins, _, rfl, -⟩ := minimizePins_eq_ok minimized
  have scripts := Recovery.script_eq_ok built
  refine WellFormed.valid wellFormed scripts.scope fun e member => ?_
  obtain ⟨e', declared, -, named⟩ := exists_left_of_mem scripts.entries member
  obtain ⟨offset, inSeeds, same⟩ := mem_declaredEntries.1 declared
  obtain ⟨b, inBlocks, isLabel⟩ :=
    scripts.builds.named e'.2 (same ▸ (Recovery.seed_offset recovered inSeeds).2) e.2 named
  exact ⟨_, List.mem_map.2 ⟨b, inBlocks, rfl⟩, isLabel⟩

/-- Every script that was read is valid, whether from text or from a buffer. -/
theorem valid_of_read (read : (∃ text, parse text = .ok s) ∨
    ∃ data seeds target limit, disassemble data seeds target limit = .ok s) : s.Valid := by
  rcases read with ⟨text, parsed⟩ | ⟨data, seeds, target, limit, disassembled⟩
  · exact parse_valid parsed
  · exact disassemble_valid disassembled

/-- An event with a block of its own before the first label, an else target, an argument list and a
message. -/
def talkText : String :=
  ".stage \"a\"\n.startup *talk\n\tif flag(3), else *talk\ntalk:\n\tanim 1, 2, *talk\n" ++
    "\tmsg \"Hello\", speed(2), \"\", \"world\"\n\t.dd *talk\n"

def farHandler : List Seed := [(some (.interact 1099511627776), 0), (none, 4)]

theorem valid_of_read_talk :
    (∃ s, parse talkText = .ok s ∧ s.blocks.map (·.label) = ["$0", "talk"] ∧ s.Valid) ∧
    ∃ s, disassemble wideJump farHandler none 64 = .ok s ∧
      s.blocks.map (·.label) = ["evt_0", "evt_4", "loc_7"] ∧ s.Valid := by
  constructor
  · have read : (parse talkText).toOption.map (·.blocks.map (·.label)) = some ["$0", "talk"] := by decide +kernel
    obtain ⟨s, isScript, labels⟩ := Option.map_eq_some_iff.1 read
    have parsed := toOption_eq_some.1 isScript
    exact ⟨s, parsed, labels, valid_of_read (.inl ⟨_, parsed⟩)⟩
  · have recovered : Recovery.ofSeeds wideJump farHandler = .ok ⟨wideJump, [(.event, 0), (.event, 4)],
        [⟨0, 4, ⟨"goto", [.offset 7 (some .word) false none], none⟩⟩,
          ⟨4, 3, ⟨"run", [.offset 0 (some .byte) false none], none⟩⟩, ⟨7, 1, ⟨"return", [], none⟩⟩]⟩ :=
      Recovery.ofSeeds_eq_ok.2 ⟨_, _, rfl, explore_wideJump, by simp [List.mergeSort, Seed.kind]⟩
    have read : (disassemble wideJump farHandler none 64).toOption.map (·.blocks.map (·.label)) =
        some ["evt_0", "evt_4", "loc_7"] := by
      rw [disassemble, recovered]
      decide +kernel
    obtain ⟨s, isScript, labels⟩ := Option.map_eq_some_iff.1 read
    have disassembled := toOption_eq_some.1 isScript
    exact ⟨s, disassembled, labels, valid_of_read (.inr ⟨_, _, _, _, disassembled⟩)⟩

end Script

end EventScript
