import EventScript.Proofs.Decodability
import EventScript.Proofs.Reachability

namespace EventScript

theorem Instruction.invertible_of_labels {i : Instruction}
    (labels : ∀ name ∈ i.codeOperands.map fun o => o.reference?.map Prod.fst, name ≠ none)
    (layout : ∀ c ∈ Command.all, c.name = i.opcode → c.layout ≠ .terminated) : i.Invertible where
  targets _ _ _ _ isCode := labels none (List.mem_map.2 ⟨_, isCode, rfl⟩) rfl
  tail c member name terminated := absurd terminated (layout c member name)

namespace Script

variable {s : Script} {limit k : Nat} {a : Assembled} {i : Instruction} {starts : List Nat} {seeds : List Seed}

section

variable (wellFormed : s.WellFormed) (invertible : ∀ i, .instruction i ∈ s.items → i.Invertible)
  (assembled : s.assemble limit = .ok a) (small : a.bytes.length < 2 ^ 32)

include wellFormed invertible assembled small

/-- An instruction is decoded where it was assembled, and leads where the source does, unless its count cannot be
read. -/
theorem exists_decode (here : s.items[k]? = some (.instruction i)) : ∃ start size,
    a.layout.itemAddresses[k]? = some start ∧
      (a.layout.itemAddresses ++ [a.layout.size])[k + 1]? = some (start + size) ∧ start < a.bytes.length ∧
      (i.HasCount → Instruction.decode a.bytes start = .ok ((i.resolve (a.layout.address s)).canonical, size) ∧
        (i.resolve (a.layout.address s)).canonical.codeTargets.map (·.2) =
          i.codeOperands.filterMap (Operand.codeAddress? (a.layout.address s))) ∧
      (¬ i.HasCount → ∃ e, Instruction.decode a.bytes start = .error e) := by
  have isItem := List.mem_of_getElem? here
  obtain ⟨c, member, name, takes⟩ := wellFormed.items _ isItem
  have back := invertible i isItem
  have proper := Instruction.isProper_of_takes member name takes
  obtain ⟨start, code, b, addresses, starts, stops, positive, bound, stands, lowered, emitted⟩ :=
    exists_stored assembled here proper
  have bounded : ∀ o ∈ i.codeOperands, ∀ t, o.codeAddress? (a.layout.address s) = some t → t ≤ a.bytes.length :=
    fun o isCode t leads => codeAddress_le assembled back isCode leads
  refine ⟨start, b.length, starts, stops, by omega, fun count => ⟨?_, ?_⟩, fun noCount => ?_⟩
  · exact Instruction.decode_resolve member name takes (back.tail c member name) count bounded lowered emitted stands
  · have survives := Instruction.survives_resolve member name takes (back.tail c member name) (count c member name)
      bounded
    exact Instruction.codeTargets_canonical member name takes survives lowered
  · exact Instruction.exists_error_of_not_hasCount proper noCount lowered emitted (by omega) stands

theorem hasCount_of_reachable (readable : ¬ Recovery.Unreadable a.bytes seeds)
    (here : s.items[k]? = some (.instruction i)) {start : Nat} (stands : a.layout.itemAddresses[k]? = some start)
    (reached : Recovery.Reachable a.bytes seeds start) : i.HasCount := by
  obtain ⟨_, size, stands', -, inside, -, fails⟩ := exists_decode wellFormed invertible assembled small here
  cases stands.symm.trans stands'
  by_contra noCount
  obtain ⟨e, failed⟩ := fails noCount
  exact readable (.undecoded reached inside failed)

theorem reachable_of_reaches (given : ∀ address ∈ starts, (none, (address : Int)) ∈ seeds)
    (readable : ¬ Recovery.Unreadable a.bytes seeds) (reaches : s.Reaches a.layout starts k) {start : Nat}
    (stands : a.layout.itemAddresses[k]? = some start) : Recovery.Reachable a.bytes seeds start := by
  induction reaches generalizing start with
  | start here isStart =>
    cases stands.symm.trans here
    exact .seed (given _ isStart)
  | next _ here goesOn ih =>
    obtain ⟨before, size, stands', follows, inside, decodes, -⟩ :=
      exists_decode wellFormed invertible assembled small here
    have count := hasCount_of_reachable wellFormed invertible assembled small readable here stands' (ih stands')
    rw [List.getElem?_append_left (List.getElem?_eq_some_iff.1 stands).1, stands] at follows
    cases follows
    exact .next (ih stands') inside (decodes count).1 goesOn
  | @jump _ _ address i label _ _ _ _ here leads found there ih =>
    obtain ⟨before, size, stands', -, inside, decodes, -⟩ :=
      exists_decode wellFormed invertible assembled small here
    have count := hasCount_of_reachable wellFormed invertible assembled small readable here stands' (ih stands')
    obtain ⟨decoded, targets⟩ := decodes count
    cases stands.symm.trans there
    have resolves : a.layout.address s label = address := by
      simp only [Layout.address, found]
      rfl
    have isTarget : address ∈ (i.resolve (a.layout.address s)).canonical.codeTargets.map (·.2) := by
      rw [targets]
      exact List.mem_filterMap.2 ⟨_, leads, congrArg some resolves⟩
    obtain ⟨⟨kind, t⟩, inTargets, rfl⟩ := List.mem_map.1 isTarget
    exact .target (ih stands') inside decoded inTargets

end

/-- The disassembler recovers the stream of the source exactly if all counts can be read, and it gives no other
stream. -/
theorem disassemble_assemble {text : String} {s : Script} {passes : Nat} {a : Assembled} {starts : List Nat}
    {limit : Nat} (parsed : parse text = .ok s)
    (code : ∀ item ∈ s.items, ∃ i, item = .instruction i ∧ i.Invertible)
    (assembled : s.assemble passes = .ok a) (small : a.bytes.length < 2 ^ 32)
    (inside : ∀ address ∈ starts, address ∈ a.layout.itemAddresses)
    (reaches : ∀ k < s.items.length, s.Reaches a.layout starts k) (enough : 2 * s.referenceCount + 1 ≤ limit)
    (target : Option Target) :
    ((∃ s', disassemble a.bytes (starts.map fun (address : Nat) => (none, (address : Int))) target limit = .ok s') ↔
      ∀ i, .instruction i ∈ s.items → i.HasCount) ∧
    ∀ s', disassemble a.bytes (starts.map fun (address : Nat) => (none, (address : Int))) target limit = .ok s' →
      ∃ l, s'.layout limit = .ok l ∧ s'.stream l = s.stream a.layout := by
  have invertible : ∀ i, .instruction i ∈ s.items → i.Invertible := by
    intro i isItem
    obtain ⟨_, same, invertible⟩ := code _ isItem
    cases same
    exact invertible
  have wellFormed := parse_wellFormed parsed
  have counts {s' : Script} (disassembled : disassemble a.bytes
      (starts.map fun (address : Nat) => (none, (address : Int))) target limit = .ok s') :
      ∀ i, .instruction i ∈ s.items → i.HasCount := by
    intro i isItem
    obtain ⟨r, s₀, recovered, -⟩ := disassemble_eq_ok.1 disassembled
    have readable := Recovery.not_unreadable_of_ofSeeds recovered
    obtain ⟨k, here⟩ := List.mem_iff_getElem?.1 isItem
    obtain ⟨start, -, stands, -⟩ := exists_decode wellFormed invertible assembled small here
    have reached := reachable_of_reaches wellFormed invertible assembled small
      (fun address isStart => List.mem_map.2 ⟨address, isStart, rfl⟩) readable
      (reaches k (List.getElem?_eq_some_iff.1 here).1) stands
    exact hasCount_of_reachable wellFormed invertible assembled small readable here stands reached
  have recovers (counts : ∀ i, .instruction i ∈ s.items → i.HasCount) := exists_disassemble parsed
    (fun item isItem => by
      obtain ⟨i, rfl, invertible⟩ := code item isItem
      exact ⟨i, rfl, invertible, counts i isItem⟩)
    assembled inside reaches enough target
  refine ⟨⟨?_, fun counts => ?_⟩, fun s' disassembled => ?_⟩
  · rintro ⟨s', disassembled⟩
    exact counts disassembled
  · obtain ⟨s', -, disassembled, -⟩ := recovers counts
    exact ⟨s', disassembled⟩
  · obtain ⟨_, l, disassembled', laid, same⟩ := recovers (counts disassembled)
    cases disassembled.symm.trans disassembled'
    exact ⟨l, laid, same⟩

def forkText : String :=
  ".globals\nmain:\n\tif result, else *last\n\tptcl 1, @lead, 1, *main\n\treturn\nlast:\n\treturn\n"

theorem disassemble_assemble_fork : ∃ s a s' l, parse forkText = .ok s ∧ s.assemble 64 = .ok a ∧
    a.layout.itemAddresses = [0, 4, 19, 20] ∧ disassemble a.bytes [(none, 0)] none 64 = .ok s' ∧
    s'.layout 64 = .ok l ∧ s'.stream l = s.stream a.layout := by
  have computed : ((parse forkText).toOption.any fun s => (s.assemble 64).toOption.any fun a => decide
      (s.items.map (fun item => item.instruction?.map fun i =>
          (i.opcode, i.codeOperands.map fun o => o.reference?.map Prod.fst)) =
        [some ("if", [some "last"]), some ("ptcl", []), some ("return", []), some ("return", [])] ∧
      (∀ item ∈ s.items, item.operands.length ≤ 4) ∧ s.referenceCount = 2 ∧ a.bytes.length = 21 ∧
      a.layout.itemAddresses = [0, 4, 19, 20] ∧ (a.layout.addressOf s "last").toOption = some 20)) = true := by
    decide +kernel
  obtain ⟨s, parsed, rest⟩ := (Option.any_eq_true ..).1 computed
  obtain ⟨a, assembled, rest⟩ := (Option.any_eq_true ..).1 rest
  obtain ⟨outline, short, references, length, addresses, last⟩ := of_decide_eq_true rest
  have labels {i : Instruction} (isCode : i.codeOperands = []) : ∀ name ∈ i.codeOperands.map
      fun o => o.reference?.map Prod.fst, name ≠ none := by simp [isCode]
  have layouts : ∀ opcode ∈ ["if", "ptcl", "return"], ∀ c ∈ Command.all, c.name = opcode → c.layout ≠ .terminated := by
    decide +kernel
  simp only [List.map_eq_cons_iff, List.map_eq_nil_iff, Option.map_eq_some_iff, Prod.mk.injEq,
    Item.instruction?_eq_some] at outline
  obtain ⟨_, _, items, ⟨i₀, rfl, opcode₀, labels₀⟩, _, _, rfl, ⟨i₁, rfl, opcode₁, labels₁⟩, _, _, rfl,
    ⟨i₂, rfl, opcode₂, labels₂⟩, _, _, rfl, ⟨i₃, rfl, opcode₃, labels₃⟩, rfl⟩ := outline
  obtain ⟨o, _, isCode, ⟨⟨_, span⟩, isLabel, rfl⟩, rfl⟩ := labels₀
  have code : ∀ item ∈ s.items, ∃ i, item = .instruction i ∧ i.Invertible := by
    rw [items]
    simp only [List.forall_mem_cons, List.not_mem_nil, false_implies, implies_true, and_true]
    refine ⟨⟨i₀, rfl, Instruction.invertible_of_labels (by simp [isCode, isLabel]) (opcode₀ ▸ layouts "if" (by simp))⟩,
      ⟨i₁, rfl, Instruction.invertible_of_labels (labels labels₁) (opcode₁ ▸ layouts "ptcl" (by simp))⟩,
      ⟨i₂, rfl, Instruction.invertible_of_labels (labels labels₂) (opcode₂ ▸ layouts "return" (by simp))⟩,
      ⟨i₃, rfl, Instruction.invertible_of_labels (labels labels₃) (opcode₃ ▸ layouts "return" (by simp))⟩⟩
  have first : s.Reaches a.layout [0] 0 := .start (by rw [addresses]; rfl) (by simp)
  have second : s.Reaches a.layout [0] 1 :=
    .next first (by rw [items]; rfl) (by rw [Instruction.endsFlow, opcode₀]; rfl)
  have third : s.Reaches a.layout [0] 2 :=
    .next second (by rw [items]; rfl) (by rw [Instruction.endsFlow, opcode₁]; rfl)
  have fourth : s.Reaches a.layout [0] 3 := by
    cases o with
    | label name width isElse span' =>
      cases isLabel
      exact .jump first (by rw [items]; rfl) (by rw [isCode]; exact List.mem_singleton.2 rfl)
        (toOption_eq_some.1 last) (by rw [addresses]; rfl)
    | _ => cases isLabel
  have reaches : ∀ k < s.items.length, s.Reaches a.layout [0] k := by
    rw [items]
    intro k inside
    have places : k = 0 ∨ k = 1 ∨ k = 2 ∨ k = 3 := by
      simp only [List.length_cons, List.length_nil] at inside
      omega
    rcases places with rfl | rfl | rfl | rfl <;> assumption
  obtain ⟨succeeds, same⟩ := disassemble_assemble (toOption_eq_some.1 parsed) code (toOption_eq_some.1 assembled)
    (by omega) (by simp [addresses]) reaches (show 2 * s.referenceCount + 1 ≤ 64 by omega) none
  obtain ⟨s', disassembled⟩ := succeeds.2 fun i isItem c member name counted => by
    have bound : i.operands.length ≤ 4 := short _ isItem
    omega
  obtain ⟨l, laid, same⟩ := same s' disassembled
  exact ⟨s, a, s', l, toOption_eq_some.1 parsed, toOption_eq_some.1 assembled, addresses, disassembled, laid, same⟩

theorem disassemble_of_decode {data : Bytes} {start : Nat} {e : DecodeError} (inside : start < data.length)
    (failed : Instruction.decode data start = .error e) (target : Option Target) (limit : Nat) :
    disassemble data [(none, (start : Int))] target limit = .error (.decode e) := by
  have within : ∀ address ∈ [start], address ≤ data.length := by simpa using inside.le
  have visited : Explore.visit data [] start = .error e := by
    rw [Explore.visit, failed]
    rfl
  have explored : Explore.explore data [start] [] = .error e := by
    rw [Explore.explore, if_pos ⟨inside, rfl⟩, visited]
    rfl
  have recovered : Recovery.ofSeeds data [(none, (start : Int))] = .error e := by
    have checked := check_starts within
    rw [List.map_singleton] at checked
    rw [Recovery.ofSeeds, checked]
    change (Explore.explore data [start] [] >>= _) = _
    rw [explored]
    rfl
  rw [disassemble, recovered]
  rfl

end Script

namespace Swarm

variable {n : Nat} {i : Instruction}

theorem of_withoutSpans {item : Item} (same : item.withoutSpans = .instruction (instruction n)) : ∃ i,
    item = .instruction i ∧ i.opcode = "ptcl" ∧ i.operands.map Operand.withoutSpans = (instruction n).operands := by
  cases item with
  | data d => cases same
  | instruction i =>
    have same := Item.instruction.inj same
    exact ⟨i, rfl, congrArg Instruction.opcode same, congrArg Instruction.operands same⟩

variable (opcode : i.opcode = "ptcl") (operands : i.operands.map Operand.withoutSpans = (instruction n).operands)

include opcode operands in
theorem invertible : i.Invertible := by
  have layout : ∀ c ∈ Command.all, c.name = "ptcl" → c.layout ≠ .terminated := by decide +kernel
  have table : ∀ slot ∈ [Command.value, .atom .lead, Command.object, .variadic], ¬ slot.leadsToCode = true := by decide
  have chosen := shapeOf_operands n
  rw [← operands, Command.shapeOf_withoutSpans] at chosen
  have noCode : i.codeOperands = [] := by
    rw [Instruction.codeOperands_eq Command.particles_mem opcode.symm chosen, List.map_eq_nil_iff,
      List.filter_eq_nil_iff]
    exact fun x inZip => table _ (List.of_mem_zip inZip).1
  exact Instruction.invertible_of_labels (by simp [noCode]) (opcode ▸ layout)

include operands in
theorem referenceCount_operands : Operand.referenceCount i.operands = 0 := by
  rw [Operand.referenceCount, List.countP_eq_zero, Operand.walkAll_eq_flatMap]
  intro leaf inside
  obtain ⟨o, isOperand, inWalk⟩ := List.mem_flatMap.1 inside
  have inSwarm : o.withoutSpans ∈ (instruction n).operands := operands ▸ List.mem_map_of_mem isOperand
  have inWalk : leaf.withoutSpans ∈ o.withoutSpans.walk := Operand.walk_withoutSpans o ▸ List.mem_map_of_mem inWalk
  rw [← Operand.isReference_withoutSpans]
  rcases mem_operands inSwarm with same | same | same <;> rw [same] at inWalk <;>
    simp only [Operand.walk, Operand.walkAll, List.mem_singleton] at inWalk <;> simp [inWalk, Operand.isReference]

end Swarm

/-- A list of 2 ^ 31 operands meets all conditions but that on its count. Neither what it is assembled to nor anything
else that starts in this way is disassembled. -/
theorem Script.disassemble_swarm : ∃ s a, parse (Swarm.script (2 ^ 31)).toText = .ok s ∧
    (∀ item ∈ s.items, ∃ i, item = .instruction i ∧ i.Invertible) ∧ s.assemble = .ok a ∧ a.bytes.length < 2 ^ 32 ∧
    a.layout.itemAddresses = [0] ∧ (∀ k < s.items.length, s.Reaches a.layout [0] k) ∧ s.referenceCount = 0 ∧
    (∀ target limit, disassemble a.bytes [(none, 0)] target limit = .error (.decode ⟨.argumentCount (-2 ^ 31), 10⟩)) ∧
    a.bytes.take 15 = [38, 33, 1, 24, 220, 0, 0, 0, 33, 1, 24, 0, 0, 0, 128] ∧
    ∀ rest target limit, disassemble (a.bytes.take 15 ++ rest) [(none, 0)] target limit =
      .error (.decode ⟨.argumentCount (-2 ^ 31), 10⟩) := by
  obtain ⟨s, a, read, items, assembled, bytes, addresses⟩ := Swarm.exists_assembled (2 ^ 31)
  have count : (Width.ofLiteral (2 ^ 31 : Nat)).constant (2 ^ 31 : Nat) = [24, 0, 0, 0, 128] := by decide
  rw [Swarm.bytes, count] at bytes
  -- The operands are many: from here on they are known by their number only.
  obtain ⟨tail, bytes, length⟩ : ∃ tail : Bytes, a.bytes = 38 :: (Swarm.leadingBytes ++ ([24, 0, 0, 0, 128] ++ tail)) ∧
      tail.length = 2 ^ 31 := ⟨_, bytes, List.length_replicate⟩
  obtain ⟨item, only, same⟩ := List.map_eq_singleton_iff.1 items
  obtain ⟨i, rfl, opcode, operands⟩ := Swarm.of_withoutSpans same
  refine ⟨s, a, read, ?_, assembled, ?_, addresses, ?_, ?_, fun target limit => ?_, ?_, fun rest target limit => ?_⟩
  · rw [only, List.forall_mem_singleton]
    exact ⟨i, rfl, Swarm.invertible opcode operands⟩
  · rw [bytes]
    simp only [Swarm.leadingBytes, List.length_append, List.length_cons, List.length_nil, length]
    omega
  · rw [only]
    intro k inside
    obtain rfl : k = 0 := by simpa using inside
    exact .start (by rw [addresses]; rfl) (by simp)
  · rw [referenceCount, only, List.flatMap_singleton]
    exact Swarm.referenceCount_operands operands
  · rw [bytes]
    exact disassemble_of_decode (by simp) (Swarm.decode_header tail) target limit
  · rw [bytes]
    rfl
  · rw [bytes]
    exact disassemble_of_decode (by simp [Swarm.leadingBytes]) (Swarm.decode_header rest) target limit

end EventScript
