import EventScript.Proofs.Rediscovery

namespace EventScript

namespace Instruction

/-- The operands that lead to code: the targets of jumps, and what stands in the slot of an event. -/
def codeOperands (i : Instruction) : List Operand :=
  match Command.ofName? i.opcode with
  | none => []
  | some c =>
    match c.shapeOf i.operands with
    | .error _ => []
    | .ok shape => ((shape.zip i.operands).filter (·.1.leadsToCode)).map (·.2)

/-- What the operands of an instruction have to satisfy to come back as they are stored: labels lead to code, and no
constant of a terminated list reads as -1, which ends it. -/
structure Invertible (i : Instruction) : Prop where
  targets : ∀ value width isElse span, .offset value width isElse span ∉ i.codeOperands
  tail : ∀ c ∈ Command.all, c.name = i.opcode → c.layout = .terminated → ∀ value width span,
    .int value width span ∈ i.operands.drop 1 →
      Bytes.storedValue value (width.getD (.ofLiteral value)).bytes ≠ -1

/-- The count of a counted list, which follows three operands, can be read. -/
def HasCount (i : Instruction) : Prop :=
  ∀ c ∈ Command.all, c.name = i.opcode → c.layout = .counted → i.operands.length < 2 ^ 31 + 3

variable {i : Instruction} {c : Command} {shape : Shape}

theorem codeOperands_eq (member : c ∈ Command.all) (name : c.name = i.opcode)
    (chosen : c.shapeOf i.operands = .ok shape) :
    i.codeOperands = ((shape.zip i.operands).filter (·.1.leadsToCode)).map (·.2) := by
  simp only [codeOperands, Command.ofName?_eq_some.2 ⟨member, name⟩, chosen]

theorem codeTargets_eq (member : c ∈ Command.all) (name : c.name = i.opcode)
    (chosen : c.shapeOf i.operands = .ok shape) : i.codeTargets =
      (shape.zip i.operands).filterMap fun (slot, o) => slot.codeTarget? c.targetKind o := by
  simp only [codeTargets, Command.ofName?_eq_some.2 ⟨member, name⟩, chosen]

end Instruction

theorem Command.Fills.length_pos {c : Command} {os first others : List Operand} {slots rest : Shape}
    (fills : c.Fills os slots rest first others) (member : c ∈ all) (kind : c.layout = .terminated) :
    0 < first.length := by
  have table : ∀ c ∈ all, c.layout = .terminated → c.shapes = [[object, .variadic]] := by decide +kernel
  have form := fills.form
  rw [table c member kind, List.mem_singleton] at form
  rw [← fills.accepts.length_eq]
  rcases slots with _ | ⟨slot, slots⟩
  · rcases fills.tail with rfl | rfl <;> simp at form
  · simp

theorem Command.Fills.length_counted {c : Command} {os first others : List Operand} {slots rest : Shape}
    (fills : c.Fills os slots rest first others) (member : c ∈ all) (kind : c.layout = .counted) :
    (others = [] ∧ os.length ≤ 11) ∨ (rest = [.variadic] ∧ os.length = others.length + 3) := by
  have table : ∀ c ∈ all, c.layout = .counted → ∀ shape ∈ c.shapes,
      shape.length ≤ 11 ∧ (.variadic ∈ shape → shape.length = 4) := by decide +kernel
  obtain ⟨short, four⟩ := table c member kind _ fills.form
  have same := fills.accepts.length_eq
  rw [List.length_append] at short four
  rw [fills.split, List.length_append]
  rcases fills.tail with rfl | rfl
  · have closed := fills.closed rfl
    exact .inl ⟨closed, by rw [closed, List.length_nil]; omega⟩
  · have fixed := four (by simp)
    rw [List.length_singleton] at fixed
    exact .inr ⟨rfl, by omega⟩

theorem Operator.name_ne_of_isProper {o : Operator} (member : o ∈ Operator.all) (proper : o.isProper = true) :
    o.name ≠ "i8" := by
  revert o
  decide +kernel

namespace Operand

theorem isTerminator_canonical {o : Operand} (proper : o.IsProper) (address : String → Nat)
    (literal : ∀ value width span, o = .int value width span →
      Bytes.storedValue value (width.getD (.ofLiteral value)).bytes ≠ -1) :
    (o.mapLeaves (resolveReference address)).canonical.isTerminator = false := by
  cases o with
  | int value width span =>
    have stored := literal value width span rfl
    have inRange := Bytes.storedValue_inRange value (width.getD (.ofLiteral value)).bytes
    simp only [mapLeaves, resolveReference, canonical, ofConstant, isTerminator]
    generalize width.getD (.ofLiteral value) = w at *
    generalize Bytes.storedValue value w.bytes = v at *
    have small : w = .byte → v ≠ 255 := by
      rintro rfl rfl
      simp [Bytes.InRange, Width.bytes] at inRange
    by_cases narrow : w = .ofLiteral v
    · simp [stored, ← narrow]
    · simp only [if_neg narrow]
      cases w <;> simp_all
  | expr op args span =>
    obtain ⟨⟨operator, member, rfl, isProper⟩, -⟩ := isProper_expr.1 proper
    have notConstant := Operator.name_ne_of_isProper member isProper
    rw [mapLeaves, canonical]
    unfold isTerminator
    split <;> simp_all
  | _ => rfl

end Operand

/-- The address that a reference leads to. -/
def Operand.codeAddress? (address : String → Nat) : Operand → Option Nat
  | label name _ _ _ => some (address name)
  | offset value _ _ _ => some value.toNat
  | _ => none

namespace Instruction

variable {i : Instruction} {c : Command} {size : Nat} {address : String → Nat}

theorem isProper_of_takes (member : c ∈ Command.all) (name : c.name = i.opcode) (takes : c.Takes i.operands) :
    i.IsProper := by
  refine isProper_of_command member name (fun kind => ?_) fun kind o isOperand => ?_
  · simp only [Command.Takes, kind] at takes
    obtain ⟨commands, span, same, -⟩ := takes
    exact ⟨commands, span, same⟩
  · obtain ⟨shape, chosen, spelled, -⟩ := (Command.takes_iff kind).1 takes
    obtain ⟨-, -, checked⟩ := (Command.shapeOf_eq_ok member).1 chosen
    exact Operand.isProper_of_spelled (spelled o isOperand) (checked o isOperand)

theorem operands_resolve (address : String → Nat) (i : Instruction) :
    (i.resolve address).operands = i.operands.map (Operand.mapLeaves (Operand.resolveReference address)) :=
  Operand.mapLeavesAll_eq_map ..

/-- With its labels resolved, an instruction of the source comes back. A terminated list ends at the first constant that
reads as -1, a count is stored as a signed constant, and code lies within the buffer. -/
theorem survives_resolve (member : c ∈ Command.all) (name : c.name = i.opcode) (takes : c.Takes i.operands)
    (tail : c.layout = .terminated → ∀ value width span, .int value width span ∈ i.operands.drop 1 →
      Bytes.storedValue value (width.getD (.ofLiteral value)).bytes ≠ -1)
    (count : c.layout = .counted → i.operands.length < 2 ^ 31 + 3)
    (bounded : ∀ o ∈ i.codeOperands, ∀ t, o.codeAddress? address = some t → t ≤ size) :
    (i.resolve address).Survives size := by
  have proper := isProper_of_takes member name takes
  have h := Operand.relabels_resolveReference address
  intro c' member' name'
  obtain rfl := Command.eq_of_name member' member (name'.trans name.symm)
  refine ⟨fun kind => ?_, fun kind slots rest first others fills => ?_⟩
  · simp only [Command.Takes, kind] at takes
    obtain ⟨commands, span, same, normal⟩ := takes
    exact ⟨commands, span, by simp only [operands_resolve, same]; rfl, normal⟩
  · obtain ⟨shape, chosen, -, marked, -⟩ := (Command.takes_iff kind).1 takes
    have chosen' : c'.shapeOf (i.resolve address).operands = .ok shape := by
      rw [operands_resolve, h.shapeOf]
      exact chosen
    obtain ⟨rfl, -⟩ := (fills.shapeOf_iff member).1 chosen'
    have split := fills.split
    rw [operands_resolve] at split
    -- The source operand of each fixed slot: what a form asks of it was checked before it was resolved.
    have original : ∀ x ∈ slots.zip first, ∃ (k : Nat) (o : Operand), i.operands[k]? = some o ∧
        slots[k]? = some x.1 ∧ x.2 = o.mapLeaves (Operand.resolveReference address) := by
      intro x inZip
      obtain ⟨k, here⟩ := List.mem_iff_getElem?.1 inZip
      obtain ⟨slot, operand⟩ := List.getElem?_zip_eq_some.1 here
      have inside := (List.getElem?_eq_some_iff.1 operand).1
      rw [← List.getElem?_append_left inside, ← split, List.getElem?_map, Option.map_eq_some_iff] at operand
      obtain ⟨o, isOperand, same⟩ := operand
      exact ⟨k, o, isOperand, slot, same.symm⟩
    refine ⟨fun o isOperand => ?_, fun o isOperand => ?_, fun x inZip isElse => ?_, fun x inZip leads => ?_,
      fun terminated o inOthers => ?_, fun counted => ?_⟩
    · rw [operands_resolve] at isOperand
      obtain ⟨source, inSource, rfl⟩ := List.mem_map.1 isOperand
      exact h.isProper (proper.operands source inSource)
    · rw [operands_resolve] at isOperand
      obtain ⟨source, -, rfl⟩ := List.mem_map.1 isOperand
      exact Operand.isResolved_resolveReference address source
    · obtain ⟨k, o, isOperand, slot, same⟩ := original x inZip
      have inside := (List.getElem?_eq_some_iff.1 slot).1
      rw [same, h.isElse]
      refine marked k o isOperand ?_
      rw [Shape.slotAt_append fills.fixed fills.tail, if_pos inside, slot, isElse]
    · obtain ⟨k, o, isOperand, slot, same⟩ := original x inZip
      have inside := (List.getElem?_eq_some_iff.1 slot).1
      have isCode : o ∈ i.codeOperands := by
        rw [codeOperands_eq member name chosen]
        refine List.mem_map.2 ⟨(x.1, o), List.mem_filter.2 ⟨List.mem_iff_getElem?.2 ⟨k, ?_⟩, leads⟩, rfl⟩
        exact List.getElem?_zip_eq_some.2 ⟨(List.getElem?_append_left inside).trans slot, isOperand⟩
      rw [same]
      cases o with
      | label label width isElse span => exact Int.ofNat_le.2 (bounded _ isCode _ rfl)
      | offset value width isElse span =>
        have bound := bounded _ isCode _ rfl
        show value ≤ size
        omega
      | _ => exact True.intro
    · have inDrop : o ∈ (i.operands.drop first.length).map
          (Operand.mapLeaves (Operand.resolveReference address)) := by
        rw [List.map_drop, split, List.drop_left]
        exact inOthers
      obtain ⟨source, inSource, rfl⟩ := List.mem_map.1 inDrop
      have inTail : source ∈ i.operands.drop 1 :=
        (List.drop_sublist_drop_left _ (fills.length_pos member terminated)).mem inSource
      refine Operand.isTerminator_canonical (proper.operands source (List.mem_of_mem_drop inTail)) address ?_
      rintro value width span rfl
      exact tail terminated value width span inTail
    · have bound := count counted
      have length : (i.resolve address).operands.length = i.operands.length := by rw [operands_resolve, List.length_map]
      rcases fills.length_counted member counted with ⟨rfl, -⟩ | ⟨-, fixed⟩
      · simp
      · omega

end Instruction

theorem Command.shapeOf_message {c : Command} (member : c ∈ all) (kind : c.layout = .message)
    (commands : List MessageCommand) (span : Option Span) :
    c.shapeOf [.message commands span] = .ok [.message] := by
  have table : ∀ c ∈ all, c.layout = .message → c.shapes = [[.message]] := by decide +kernel
  refine (shapeOf_eq_ok member).2 ⟨by simp [table c member kind], ?_, by simp [Operand.checkExpression]⟩
  exact (Shape.fits_fixed (by simp)).2 (.cons rfl .nil)

theorem Slot.codeTarget?_canonical (slot : Slot) (kind : LabelKind) (address : String → Nat) (o : Operand) :
    (slot.codeTarget? kind (o.mapLeaves (Operand.resolveReference address)).canonical).map (·.2) =
      if slot.leadsToCode then o.codeAddress? address else none := by
  cases slot with
  | expr kind => cases kind <;> cases o <;> rfl
  | _ => cases o <;> rfl

namespace Instruction

variable {i : Instruction} {c : Command} {size : Nat} {address : String → Nat}

theorem exists_shapeOf_canonical (member : c ∈ Command.all) (name : c.name = i.opcode)
    (takes : c.Takes i.operands) (survives : (i.resolve address).Survives size) {code : ItemCode}
    (lowered : (i.resolve address).lower {} = .ok code) : ∃ shape, c.shapeOf i.operands = .ok shape ∧
      c.shapeOf (i.resolve address).canonical.operands = .ok shape := by
  by_cases kind : c.layout = .message
  · simp only [Command.Takes, kind] at takes
    obtain ⟨commands, span, same, -⟩ := takes
    refine ⟨[.message], by rw [same, Command.shapeOf_message member kind], ?_⟩
    simp only [canonical, operands_resolve, same]
    exact Command.shapeOf_message member kind _ _
  · obtain ⟨shape, chosen, -⟩ := (Command.takes_iff kind).1 takes
    have chosen' : c.shapeOf (i.resolve address).operands = .ok shape := by
      rw [operands_resolve, (Operand.relabels_resolveReference address).shapeOf]
      exact chosen
    obtain ⟨c', member', name', body, stored, -⟩ := lower_eq_ok.1 lowered
    obtain rfl := Command.eq_of_name member' member (name'.trans name.symm)
    obtain ⟨slots, rest, first, others, rfl, fills⟩ := Command.exists_fills member chosen'
    exact ⟨_, chosen, fills.shapeOf_canonical member kind ((survives c' member name).2 kind _ _ _ _ fills) stored⟩

theorem codeTargets_canonical (member : c ∈ Command.all) (name : c.name = i.opcode)
    (takes : c.Takes i.operands) (survives : (i.resolve address).Survives size) {code : ItemCode}
    (lowered : (i.resolve address).lower {} = .ok code) :
    (i.resolve address).canonical.codeTargets.map (·.2) =
      i.codeOperands.filterMap (Operand.codeAddress? address) := by
  obtain ⟨shape, chosen, chosen'⟩ := exists_shapeOf_canonical member name takes survives lowered
  have operands : (i.resolve address).canonical.operands = i.operands.map fun o =>
      (o.mapLeaves (Operand.resolveReference address)).canonical := by
    simp only [canonical, operands_resolve, List.map_map]
    rfl
  rw [codeTargets_eq (i := (i.resolve address).canonical) member name chosen', codeOperands_eq member name chosen,
    operands, List.zip_map_right, List.filterMap_map, List.map_filterMap, List.filterMap_map, List.filterMap_filter]
  refine List.filterMap_congr fun x _ => ?_
  exact x.1.codeTarget?_canonical c.targetKind address x.2

end Instruction

namespace Code

theorem exists_blockAddress (c : Code) (k : Nat) : ∃ n ≤ c.items.length,
    c.blockAddresses.getD k 0 = ((c.items.map ItemCode.size).take n).sum := by
  rcases Nat.lt_or_ge k c.length with inside | outside
  · have isPrefix : (c.take k).flatten <+: c.items :=
      ⟨(c.drop k).flatten, by rw [← List.flatten_append, List.take_append_drop, items]⟩
    refine ⟨(c.take k).flatten.length, isPrefix.length_le, ?_⟩
    rw [List.getD_eq_getElem?_getD, getElem?_blockAddresses inside, Option.getD_some, ← List.map_take,
      ← List.prefix_iff_eq_take.1 isPrefix]
  · refine ⟨0, Nat.zero_le _, ?_⟩
    rw [List.getD_eq_getElem?_getD, List.getElem?_eq_none]
    · rfl
    · simpa [blockAddresses, length_addressesFrom, blockSizes] using outside

end Code

namespace Layout

theorem exists_address (s : Script) (d : Code) (passes : Nat) (label : String) : ∃ n ≤ d.items.length,
    (ofCode d passes).address s label = ((d.items.map ItemCode.size).take n).sum := by
  cases found : s.labels.get? label with
  | some binding =>
    rw [address_eq found]
    exact d.exists_blockAddress binding.block
  | none =>
    refine ⟨0, Nat.zero_le _, ?_⟩
    simp only [address, addressOf, LabelTable.resolve, found]
    rfl

theorem address_le (s : Script) (d : Code) (passes : Nat) (label : String) :
    (ofCode d passes).address s label ≤ d.size := by
  obtain ⟨n, -, same⟩ := exists_address s d passes label
  rw [same]
  exact (List.take_sublist ..).sum_le_sum fun _ _ => Nat.zero_le _

theorem address_mem (s : Script) (d : Code) (passes : Nat) (label : String) :
    (ofCode d passes).address s label ∈ d.itemAddresses ∨ (ofCode d passes).address s label = d.size := by
  obtain ⟨n, bound, same⟩ := exists_address s d passes label
  rw [same]
  rcases Nat.lt_or_eq_of_le bound with inside | rfl
  · refine .inl (List.mem_of_getElem? (i := n) ?_)
    rw [Code.itemAddresses, Code.getElem?_addressesFrom (by simpa using inside), Nat.zero_add]
  · refine .inr ?_
    rw [List.take_of_length_le (by simp), Code.size]

end Layout

namespace Script

theorem assemble_eq_ok {s : Script} {limit : Nat} {a : Assembled} (assembled : s.assemble limit = .ok a) :
    ∃ c d passes, s.lower = .ok c ∧ c.settle limit = .ok (d, passes) ∧ d.emit = .ok a.bytes ∧
      a.layout = .ofCode d passes := by
  obtain ⟨c, lowered, rest⟩ := bind_eq_ok.1 assembled
  obtain ⟨⟨d, passes⟩, settled, rest⟩ := bind_eq_ok.1 rest
  obtain ⟨bytes, emitted, rest⟩ := bind_eq_ok.1 rest
  obtain ⟨table, -, done⟩ := bind_eq_ok.1 rest
  cases done
  exact ⟨c, d, passes, lowered, settled, emitted, rfl⟩

theorem codeAddress_le {s : Script} {limit : Nat} {a : Assembled} (assembled : s.assemble limit = .ok a)
    {i : Instruction} (invertible : i.Invertible) {o : Operand} (isCode : o ∈ i.codeOperands) {t : Nat}
    (leads : o.codeAddress? (a.layout.address s) = some t) : t ≤ a.bytes.length := by
  obtain ⟨c, d, passes, -, -, emitted, layout⟩ := assemble_eq_ok assembled
  cases o with
  | label label width isElse span =>
    cases leads
    rw [Code.length_emitItems (Code.emit_eq_ok.1 emitted), layout]
    exact Layout.address_le s d passes label
  | offset value width isElse span => exact absurd isCode (invertible.targets value width isElse span)
  | _ => cases leads

/-- The instructions of a script where they were assembled, as they come back. -/
structure Laid (s : Script) (l : Layout) (data : Bytes) (is : List Instruction) (ds : List Decoded) :
    Prop where
  each : ∀ d ∈ ds, d.Valid data
  contiguous : Decoded.Contiguous 0 data.length ds
  offsets : ds.map (·.offset) = l.itemAddresses
  instructions : ds.map (·.instruction) = is.map fun i => (i.resolve (l.address s)).canonical
  targets : ∀ i ∈ is, (i.resolve (l.address s)).canonical.codeTargets.map (·.2) =
    i.codeOperands.filterMap (Operand.codeAddress? (l.address s))
  labels : ∀ label, l.address s label ∈ l.itemAddresses ∨ l.address s label = data.length

variable {s : Script} {limit : Nat} {a : Assembled} {is : List Instruction}

theorem exists_laid (assembled : s.assemble limit = .ok a) (items : s.items = is.map .instruction)
    (wellFormed : ∀ i ∈ is, (Item.instruction i).WellFormed) (invertible : ∀ i ∈ is, i.Invertible)
    (counts : ∀ i ∈ is, i.HasCount) : ∃ ds, s.Laid a.layout a.bytes is ds := by
  obtain ⟨c, d, passes, lowered, settled, emitted, layout⟩ := assemble_eq_ok assembled
  rw [layout]
  have proper : ∀ i ∈ is, i.IsProper := by
    intro i member
    obtain ⟨c, inAll, name, takes⟩ := wellFormed i member
    exact Instruction.isProper_of_takes inAll name takes
  obtain ⟨codes, resolved, resolves⟩ := exists_resolved_codes lowered settled emitted items proper
  have sizes := sizes_of_resolves resolves
  have stored : Code.emitItems d.blockAddresses 0 codes = .ok a.bytes := by
    rw [emitItems_of_resolves resolves fun item inItems q inItem => ?_]
    · exact Code.emit_eq_ok.1 emitted
    · exact getElem?_of_lt (Code.target_of_emitItems (Code.emit_eq_ok.1 emitted) inItems inItem).1
  have length : a.bytes.length = d.size := by
    rw [Code.length_emitItems stored, sizes, Code.size]
  have survives : ∀ i ∈ is, (i.resolve ((Layout.ofCode d passes).address s)).Survives a.bytes.length := by
    intro i member
    obtain ⟨c, inAll, name, takes⟩ := wellFormed i member
    have back := invertible i member
    exact Instruction.survives_resolve inAll name takes (back.tail c inAll name) (counts i member c inAll name)
      fun o isCode t leads => codeAddress_le assembled back isCode (layout ▸ leads)
  have readable : List.Forall₂ (fun (i : Instruction) (code : ItemCode) => i.Readable a.bytes.length ∧ ∃ code',
      i.lower {} = .ok code' ∧ ∀ stop address bs, code.emit d.blockAddresses stop address = .ok bs →
        code'.emit d.blockAddresses stop address = .ok bs)
      (is.map fun i => (i.resolve ((Layout.ofCode d passes).address s)).canonical) codes := by
    refine List.forall₂_map_left_iff.2 (((List.forall₂_and_left ..).2 ⟨survives, resolved⟩).imp ?_)
    rintro i code ⟨survives, done⟩
    obtain ⟨isReadable, code', lowered', emits⟩ := survives.canonical done
    exact ⟨isReadable, code', lowered', emits d.blockAddresses⟩
  have same := readable.length_eq
  refine ⟨Decoded.layOut 0 _ codes, Decoded.layOut_valid readable stored (by simp), ?_, ?_,
    Decoded.layOut_instructions same, fun i member => ?_, fun label => ?_⟩
  · have contiguous : Decoded.Contiguous 0 _ _ := Decoded.layOut_contiguous same
    rwa [Nat.zero_add, sizes, ← Code.size, ← length] at contiguous
  · rw [Decoded.layOut_offsets same, sizes]
    rfl
  · obtain ⟨c, inAll, name, takes⟩ := wellFormed i member
    obtain ⟨code, -, done⟩ := exists_right_of_mem resolved member
    exact Instruction.codeTargets_canonical inAll name takes (survives i member) done
  · exact length ▸ Layout.address_mem s d passes label

/-- Execution that starts at one of the addresses gets to the item: it goes on after an item that does
not end it, and it follows the labels that lead to code. -/
inductive Reaches (s : Script) (l : Layout) (starts : List Nat) : Nat → Prop
  | start {k address : Nat} (here : l.itemAddresses[k]? = some address) (isStart : address ∈ starts) :
    Reaches s l starts k
  | next {k : Nat} {i : Instruction} (reached : Reaches s l starts k)
    (here : s.items[k]? = some (.instruction i)) (goesOn : i.endsFlow = false) : Reaches s l starts (k + 1)
  | jump {k n address : Nat} {i : Instruction} {label : String} {width : Option Width} {isElse : Bool}
    {span : Option Span} (reached : Reaches s l starts k) (here : s.items[k]? = some (.instruction i))
    (leads : .label label width isElse span ∈ i.codeOperands) (found : l.addressOf s label = .ok address)
    (there : l.itemAddresses[n]? = some address) : Reaches s l starts n

namespace Laid

variable {l : Layout} {data : Bytes} {ds : List Decoded} {starts : List Nat}

theorem getElem? (laid : s.Laid l data is ds) {k : Nat} {d : Decoded} (here : ds[k]? = some d) :
    l.itemAddresses[k]? = some d.offset ∧ ∃ i, is[k]? = some i ∧
      d.instruction = (i.resolve (l.address s)).canonical := by
  constructor
  · rw [← laid.offsets, List.getElem?_map, here]
    rfl
  · have instruction : (is.map fun i => (i.resolve (l.address s)).canonical)[k]? = some d.instruction := by
      rw [← laid.instructions, List.getElem?_map, here]
      rfl
    rw [List.getElem?_map, Option.map_eq_some_iff] at instruction
    obtain ⟨i, here, same⟩ := instruction
    exact ⟨i, here, same.symm⟩

theorem mem_targets (laid : s.Laid l data is ds) {i : Instruction} (member : i ∈ is)
    (invertible : i.Invertible) {t : Nat} :
    t ∈ (i.resolve (l.address s)).canonical.codeTargets.map (·.2) ↔ ∃ label width isElse span,
      .label label width isElse span ∈ i.codeOperands ∧ l.address s label = t := by
  rw [laid.targets i member, List.mem_filterMap]
  constructor
  · rintro ⟨o, isCode, leads⟩
    cases o with
    | label label width isElse span => exact ⟨label, width, isElse, span, isCode, Option.some.inj leads⟩
    | offset value width isElse span => exact absurd isCode (invertible.targets value width isElse span)
    | _ => cases leads
  · rintro ⟨label, width, isElse, span, isCode, same⟩
    exact ⟨_, isCode, congrArg some same⟩

theorem exists_offset (laid : s.Laid l data is ds) {t : Nat} (isAddress : t ∈ l.itemAddresses) :
    ∃ e ∈ ds, e.offset = t := by
  rw [← laid.offsets] at isAddress
  exact List.mem_map.1 isAddress

theorem closed (laid : s.Laid l data is ds) (invertible : ∀ i ∈ is, i.Invertible) {d : Decoded} (member : d ∈ ds)
    {t : Nat} (isNext : t ∈ d.next) (before : t < data.length) : ∃ e ∈ ds, e.offset = t := by
  obtain ⟨k, here⟩ := List.mem_iff_getElem?.1 member
  rcases List.mem_append.1 isNext with follows | jumps
  · split at follows
    · simp at follows
    · obtain rfl := List.mem_singleton.1 follows
      rcases laid.contiguous.next here with ⟨-, atEnd⟩ | ⟨e, isNext, same⟩
      · omega
      · exact ⟨e, List.mem_of_getElem? isNext, same⟩
  · obtain ⟨-, i, isSource, same⟩ := laid.getElem? here
    rw [List.mem_reverse, same, laid.mem_targets (List.mem_of_getElem? isSource)
      (invertible i (List.mem_of_getElem? isSource))] at jumps
    obtain ⟨label, -, -, -, -, rfl⟩ := jumps
    rcases laid.labels label with isAddress | atEnd
    · exact laid.exists_offset isAddress
    · omega

/-- What holds at the starts and is handed on holds wherever execution gets. -/
theorem reached (laid : s.Laid l data is ds) (items : s.items = is.map .instruction)
    (invertible : ∀ i ∈ is, i.Invertible) {P : Decoded → Prop} (base : ∀ d ∈ ds, d.offset ∈ starts → P d)
    (step : ∀ d ∈ ds, P d → ∀ e ∈ ds, e.offset ∈ d.next → P e) {k : Nat} (reaches : s.Reaches l starts k)
    {d : Decoded} (here : ds[k]? = some d) : P d := by
  have before {k : Nat} {i : Instruction} (isItem : s.items[k]? = some (.instruction i)) : ∃ e, ds[k]? = some e ∧
      e ∈ ds ∧ i ∈ is ∧ e.instruction = (i.resolve (l.address s)).canonical := by
    rw [items, List.getElem?_map, Option.map_eq_some_iff] at isItem
    obtain ⟨_, isSource, same⟩ := isItem
    cases same
    have lengths : ds.length = is.length := by simpa using congrArg List.length laid.instructions
    obtain ⟨e, here⟩ : ∃ e, ds[k]? = some e :=
      ⟨_, List.getElem?_eq_getElem (lengths ▸ (List.getElem?_eq_some_iff.1 isSource).1)⟩
    obtain ⟨-, i', isSource', same⟩ := laid.getElem? here
    cases isSource.symm.trans isSource'
    exact ⟨e, here, List.mem_of_getElem? here, List.mem_of_getElem? isSource, same⟩
  induction reaches generalizing d with
  | start isAddress isStart =>
    rw [(laid.getElem? here).1] at isAddress
    cases isAddress
    exact base d (List.mem_of_getElem? here) isStart
  | next _ isItem goesOn ih =>
    obtain ⟨e, atItem, inE, -, same⟩ := before isItem
    rcases laid.contiguous.next atItem with ⟨atEnd, -⟩ | ⟨d', isNext, follows⟩
    · rw [here] at atEnd
      cases atEnd
    · cases here.symm.trans isNext
      refine step e inE (ih atItem) d (List.mem_of_getElem? here) (List.mem_append_left _ ?_)
      have flows : e.instruction.endsFlow = false := same ▸ goesOn
      simp [flows, follows]
  | jump _ isItem leads found there ih =>
    obtain ⟨e, atItem, inE, member, same⟩ := before isItem
    refine step e inE (ih atItem) d (List.mem_of_getElem? here) (List.mem_append_right _ ?_)
    rw [List.mem_reverse, same, laid.mem_targets member (invertible _ member)]
    refine ⟨_, _, _, _, leads, ?_⟩
    rw [(laid.getElem? here).1] at there
    cases there
    simp only [Layout.address, found]
    rfl

/-- What was assembled is code from end to end, and all of it can be reached from the starts. -/
theorem covered (laid : s.Laid l data is ds) (items : s.items = is.map .instruction)
    (invertible : ∀ i ∈ is, i.Invertible) (inside : ∀ address ∈ starts, address ∈ l.itemAddresses)
    (reaches : ∀ k < s.items.length, s.Reaches l starts k) :
    Recovery.Covered data (starts.map fun (address : Nat) => (.event, address)) ds where
  each := laid.each
  contiguous := laid.contiguous
  closed _ member _ isNext before := laid.closed invertible member isNext before
  started mark member _ := by
    obtain ⟨address, isStart, rfl⟩ := List.mem_map.1 member
    exact laid.exists_offset (inside address isStart)
  reached P base step d member := by
    obtain ⟨k, here⟩ := List.mem_iff_getElem?.1 member
    obtain ⟨-, i, isSource, -⟩ := laid.getElem? here
    have inItems : k < s.items.length := by
      rw [items, List.length_map]
      exact (List.getElem?_eq_some_iff.1 isSource).1
    refine laid.reached items invertible (fun d member isStart => base d member ?_) step (reaches k inItems) here
    rw [List.map_map]
    exact List.mem_map.2 ⟨d.offset, isStart, rfl⟩

end Laid

end Script

mutual

def Operand.flatten (address : String → Nat) : Operand → Operand
  | .int value width _ =>
    .int (Bytes.storedValue value (width.getD (.ofLiteral value)).bytes) (some (width.getD (.ofLiteral value))) none
  | .label name _ isElse _ => .offset (address name) none isElse none
  | .offset value _ isElse _ => .offset value none isElse none
  | .expr op args _ => .expr op (Operand.flattenAll address args) none
  | .message commands _ => .message (commands.map .withoutSpans) none
  | .atom name _ => .atom name none
  | .text bytes _ => .text bytes none

def Operand.flattenAll (address : String → Nat) : List Operand → List Operand
  | [] => []
  | o :: os => o.flatten address :: Operand.flattenAll address os

end

def Item.flatten (address : String → Nat) : Item → Item
  | .instruction i => .instruction ⟨i.opcode, i.operands.map (Operand.flatten address), none⟩
  | .data d => .data ⟨d.width, d.values.map (Operand.flatten address), none⟩

/-- The items of a script that is laid out, each with its address. -/
def Script.stream (s : Script) (l : Layout) : List (Nat × Item) :=
  l.itemAddresses.zip (s.items.map (Item.flatten (l.address s)))

/-- The number of labels and addresses in the operands of a script. -/
def Script.referenceCount (s : Script) : Nat := Operand.referenceCount (s.items.flatMap Item.operands)

namespace Operand

variable {address address' : String → Nat}

theorem flattenAll_eq_map (os : List Operand) : flattenAll address os = os.map (flatten address) := by
  induction os with
  | nil => rfl
  | cons o os ih => rw [flattenAll, ih, List.map_cons]

theorem flatten_ofConstant {value : Int} {w : Width} (inRange : Bytes.InRange value w.bytes) :
    (ofConstant value w).flatten address = .int value (some w) none := by
  have width : (if w = .ofLiteral value then none else some w : Option Width).getD (.ofLiteral value) = w := by
    split <;> simp_all
  rw [ofConstant, flatten, width, Bytes.storedValue, Bytes.signed_pack inRange]

theorem withoutSpans_withoutSpans (command : MessageCommand) :
    command.withoutSpans.withoutSpans = command.withoutSpans := by
  simp only [MessageCommand.withoutSpans, List.map_map]
  congr 1
  refine List.map_congr_left fun o _ => ?_
  cases o <;> rfl

theorem flatten_canonical_resolve (o : Operand) :
    (o.mapLeaves (resolveReference address)).canonical.flatten address' = o.flatten address := by
  induction o using expr_induction with
  | leaf o notExpr =>
    cases o with
    | int value width span => exact flatten_ofConstant (Bytes.storedValue_inRange ..)
    | message commands span =>
      simp only [mapLeaves, resolveReference, canonical, flatten, List.map_map]
      congr 1
      exact List.map_congr_left fun command _ => withoutSpans_withoutSpans command
    | expr op args span => exact absurd rfl (notExpr op args span)
    | _ => rfl
  | expr op args span ih =>
    simp only [mapLeaves, mapLeavesAll_eq_map, canonical, canonicalAll_eq_map, flatten, flattenAll_eq_map,
      List.map_map]
    congr 1
    exact List.map_congr_left ih

theorem flatten_mapLeaves {change : Operand → Operand} (h : Relabels change) {o : Operand}
    (agree : ∀ leaf ∈ o.walk, leaf.isReference = true → (change leaf).flatten address' = leaf.flatten address) :
    (o.mapLeaves change).flatten address' = o.flatten address := by
  induction o using expr_induction with
  | leaf o notExpr =>
    rcases h.mapLeaves_cases o with ⟨isRef, mapped, -⟩ | ⟨op, args, span, rfl, -⟩ | ⟨notRef, mapped⟩
    · rw [mapped]
      exact agree o o.mem_walk_self isRef
    · exact absurd rfl (notExpr op args span)
    · rw [mapped]
      cases o <;> first | exact absurd rfl (notExpr _ _ _) | rfl | cases notRef
  | expr op args span ih =>
    simp only [mapLeaves, mapLeavesAll_eq_map, flatten, flattenAll_eq_map, List.map_map]
    congr 1
    exact List.map_congr_left fun a isArg => ih a isArg fun leaf inArg => agree leaf (mem_walk_of_arg isArg inArg)

theorem referenceCount_flatMap {α : Type} (f : α → List Operand) (xs : List α) :
    referenceCount (xs.flatMap f) = (xs.map fun x => referenceCount (f x)).sum := by
  induction xs with
  | nil => rfl
  | cons x xs ih =>
    rw [List.flatMap_cons, List.map_cons, List.sum_cons, ← ih]
    simp only [referenceCount, walkAll_eq_flatMap, List.flatMap_append, List.countP_append]

end Operand

namespace Script

variable {s : Script} {l : Layout} {data : Bytes} {is : List Instruction} {ds : List Decoded}

theorem Laid.referenceCount (laid : s.Laid l data is ds) (items : s.items = is.map .instruction) :
    (ds.map fun d => Operand.referenceCount d.instruction.operands).sum = s.referenceCount := by
  have counts : (ds.map (·.instruction)).map (fun i => Operand.referenceCount i.operands) =
      is.map fun i => Operand.referenceCount i.operands := by
    rw [laid.instructions, List.map_map]
    refine List.map_congr_left fun i _ => ?_
    have resolved := Operand.referenceCount_mapLeavesAll (Operand.relabels_resolveReference (l.address s)) i.operands
    exact (Operand.referenceCount_map fun o _ => o.countP_walk_canonical).trans resolved
  rw [List.map_map] at counts
  rw [Script.referenceCount, Operand.referenceCount_flatMap, items, List.map_map]
  exact congrArg List.sum counts

end Script

namespace Recovery

variable {r : Recovery} {s : Script} {pins : List Pin} {address : String → Nat}

theorem flatten_recoverReference {size : Nat} {d : Decoded} (member : d ∈ r.code)
    (readable : d.instruction.Readable size) (labels : ∀ t ∈ r.targets, r.isRaw t = false →
      ∃ name, r.marks.nameAt? t = some name ∧ address name = t) {leaf : Operand}
    (inside : leaf ∈ Operand.walkAll d.instruction.operands) (isRef : leaf.isReference = true) :
    (r.recoverReference pins leaf).flatten address = leaf.flatten address := by
  obtain ⟨t, w, isElse, rfl, -⟩ := readable.reference inside isRef
  cases raw : r.isRaw t with
  | true => simp [recoverReference, nameTarget, raw, Pin.loosen, Operand.flatten]
  | false =>
    obtain ⟨name, named, same⟩ := labels t (mem_targets member inside) raw
    simp [recoverReference, nameTarget, raw, named, Pin.loosen, Operand.flatten, same]

end Recovery

theorem Item.exists_instructions {items : List Item} (code : ∀ item ∈ items, ∃ i, item = .instruction i) :
    ∃ is : List Instruction, items = is.map .instruction := by
  induction items with
  | nil => exact ⟨[], rfl⟩
  | cons item items ih =>
    obtain ⟨⟨i, rfl⟩, others⟩ := List.forall_mem_cons.1 code
    obtain ⟨is, rfl⟩ := ih others
    exact ⟨i :: is, rfl⟩

namespace Script

theorem check_starts {size : Nat} {starts : List Nat} (inside : ∀ address ∈ starts, address ≤ size) :
    (starts.map fun (address : Nat) => ((none, (address : Int)) : Seed)).mapM (Seed.check size) =
      .ok (starts.map fun (address : Nat) => (.event, address)) := by
  rw [mapM_eq_ok, List.forall₂_map_left_iff, List.forall₂_map_right_iff, List.forall₂_same]
  intro address member
  exact Recovery.check_eq_ok.2 ⟨⟨Int.natCast_nonneg _, Int.ofNat_le.2 (inside address member)⟩, rfl⟩

variable {s : Script} {l : Layout} {data : Bytes} {is : List Instruction} {ds : List Decoded}

/-- The script that was recovered from the instructions has their stream. -/
theorem Laid.stream (laid : s.Laid l data is ds) (items : s.items = is.map .instruction) {marks : Marks}
    {target : Target} {entries : List (EntryPoint × Nat)} {s₀ : Script} {pins : List Pin} {d : Code} {passes : Nat}
    (scripts : (Recovery.mk data marks ds).Scripts target entries s₀)
    (offsets : d.itemAddresses = (Recovery.mk data marks ds).scriptUnits.map (·.1))
    (labels : ∀ t name binding, (Recovery.mk data marks ds).marks.nameAt? t = some name →
      s₀.labels.get? name = some binding → d.blockAddresses[binding.block]? = some t) :
    (s₀.loosen pins).stream (.ofCode d passes) = s.stream l := by
  have placed : (Recovery.mk data marks ds).Placed s₀ (d.blockAddresses.getD · 0) := by
    refine ⟨scripts.builds.items, fun t member notRaw => ?_⟩
    obtain ⟨name, binding, named, found⟩ := scripts.targets t member notRaw
    refine ⟨name, binding, named, found, ?_⟩
    rw [List.getD_eq_getElem?_getD, labels t name binding named found, Option.getD_some]
  have addresses : ∀ t ∈ (Recovery.mk data marks ds).targets, (Recovery.mk data marks ds).isRaw t = false →
      ∃ name, (Recovery.mk data marks ds).marks.nameAt? t = some name ∧
        (Layout.ofCode d passes).address (s₀.loosen pins) name = t := by
    intro t member notRaw
    obtain ⟨name, binding, named, found, start⟩ := placed.declared t member notRaw
    exact ⟨name, named, (Layout.address_eq (s := s₀.loosen pins) found).trans start⟩
  have back : ∀ e ∈ ds, ((Item.instruction e.instruction).mapReferences
      ((Recovery.mk data marks ds).recoverReference pins)).flatten
        ((Layout.ofCode d passes).address (s₀.loosen pins)) =
          (Item.instruction e.instruction).flatten ((Layout.ofCode d passes).address (s₀.loosen pins)) := by
    intro e member
    have readable := ((Instruction.decode_eq_ok {} []).1 (laid.each e member).decoded).1
    simp only [Item.mapReferences, Item.flatten, Operand.mapLeavesAll_eq_map, List.map_map]
    congr 2
    refine List.map_congr_left fun o isOperand => ?_
    refine Operand.flatten_mapLeaves (Recovery.relabels_recoverReference _ pins) fun leaf inLeaf isRef => ?_
    refine Recovery.flatten_recoverReference member readable addresses ?_ isRef
    rw [Operand.walkAll_eq_flatMap]
    exact List.mem_flatMap.2 ⟨o, isOperand, inLeaf⟩
  have source : ∀ address, (is.map fun i => (i.resolve (l.address s)).canonical).map (fun i =>
      (Item.instruction i).flatten address) = s.items.map (Item.flatten (l.address s)) := by
    intro address
    rw [items, List.map_map, List.map_map]
    refine List.map_congr_left fun i _ => ?_
    simp only [Function.comp_apply, Item.flatten, Instruction.canonical, Instruction.operands_resolve, List.map_map]
    congr 2
    exact List.map_congr_left fun o _ => o.flatten_canonical_resolve
  rw [Script.stream, Script.stream, Recovery.loosen_items placed.items,
    Recovery.scriptRawUnits_of_contiguous laid.contiguous, List.map_map, List.map_map, ← source,
    ← laid.instructions, List.map_map]
  congr 1
  · change d.itemAddresses = _
    rw [offsets, Recovery.offsets_of_contiguous laid.contiguous, laid.offsets]
  · exact List.map_congr_left back

/-- Source that is assembled and disassembled comes back as the same stream, if it is all code, its counts can be read
and all of it can be reached from the addresses that are given. -/
theorem exists_disassemble {text : String} {s : Script} {passes : Nat} {a : Assembled} {starts : List Nat}
    {limit : Nat} (parsed : parse text = .ok s)
    (code : ∀ item ∈ s.items, ∃ i, item = .instruction i ∧ i.Invertible ∧ i.HasCount)
    (assembled : s.assemble passes = .ok a) (inside : ∀ address ∈ starts, address ∈ a.layout.itemAddresses)
    (reaches : ∀ k < s.items.length, s.Reaches a.layout starts k) (enough : 2 * s.referenceCount + 1 ≤ limit)
    (target : Option Target) : ∃ s' l,
      disassemble a.bytes (starts.map fun (address : Nat) => (none, (address : Int))) target limit = .ok s' ∧
        s'.layout limit = .ok l ∧ s'.stream l = s.stream a.layout := by
  obtain ⟨is, items⟩ := Item.exists_instructions fun item member => (code item member).imp fun _ h => h.1
  have isItem : ∀ i ∈ is, .instruction i ∈ s.items := fun i member => items ▸ List.mem_map_of_mem member
  have each : ∀ i ∈ is, i.Invertible ∧ i.HasCount := by
    intro i member
    obtain ⟨_, same, holds⟩ := code _ (isItem i member)
    cases same
    exact holds
  have invertible : ∀ i ∈ is, i.Invertible := fun i member => (each i member).1
  have wellFormed : ∀ i ∈ is, (Item.instruction i).WellFormed := fun i member =>
    (parse_wellFormed parsed).items _ (isItem i member)
  obtain ⟨ds, laid⟩ := exists_laid assembled items wellFormed invertible fun i member => (each i member).2
  have covered := laid.covered items invertible inside reaches
  have within : ∀ address ∈ starts, address ≤ a.bytes.length := by
    intro address isStart
    obtain ⟨d, member, rfl⟩ := laid.exists_offset (inside address isStart)
    exact (laid.each d member).inside.le
  have checked := check_starts within
  have bound : 2 * (ds.map fun d => Operand.referenceCount d.instruction.operands).sum < limit := by
    rw [laid.referenceCount items]
    omega
  obtain ⟨s', disassembled⟩ := covered.exists_disassemble checked (by simp) target bound
  obtain ⟨r, s₀, pins, c, d, count, recovered, scripts, rfl, lowered, settled, -, offsets, labels⟩ :=
    disassemble_layout disassembled
  obtain rfl : _ = r := Except.ok.inj ((covered.ofSeeds checked).symm.trans recovered)
  exact ⟨_, _, disassembled, layout_eq_ok.2 ⟨c, d, count, lowered, settled, rfl⟩,
    laid.stream items scripts offsets labels⟩

end Script

end EventScript
