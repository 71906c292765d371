import EventScript.Proofs.Labelling
import EventScript.Proofs.Rereading

namespace EventScript

theorem Atom.isName_name (a : Atom) : Lexeme.IsName a.name := by
  have table : ∀ n < 53, Lexeme.IsName (ofNat n).name := by decide +kernel
  have here := table a.ctorIdx (by cases a <;> decide)
  rwa [ofNat_ctorIdx] at here

theorem LabelKind.isLabel_labelName (kind : LabelKind) (offset : Nat) :
    Lexeme.IsLabel (Marks.labelName kind offset) := by
  have digits : (Nat.toDigits 16 offset).all Lexeme.isIdentifierChar = true :=
    List.all_eq_true.2 fun c member => Lexeme.isIdentifierChar_of_isHexDigit (Text.isHexDigit_of_mem_toDigits member)
  have name : (Marks.labelName kind offset).toList = (kind.stem ++ "_").toList ++ Nat.toDigits 16 offset := by
    simp [Marks.labelName, Text.hex]
  obtain ⟨stem, length⟩ : (kind.stem ++ "_").toList.all Lexeme.isIdentifierChar = true ∧
      (kind.stem ++ "_").toList.length = 4 := by
    cases kind <;> decide +kernel
  refine ⟨⟨?_, by rw [name, List.all_append, stem, digits, Bool.and_self]⟩, fun same => ?_⟩
  · rw [name]
    cases kind <;> rfl
  · have short := congrArg (·.toList.length) same
    have some := List.length_pos_iff.2 (Nat.toDigits_ne_nil (n := offset) (b := 16))
    simp only [name, List.length_append, length] at short
    have word : "else".toList.length = 4 := rfl
    omega

theorem Marks.isLabel_nameAt? {marks : Marks} {offset : Nat} {name : String}
    (named : marks.nameAt? offset = some name) : Lexeme.IsLabel name := by
  obtain ⟨kind, -, rfl⟩ := Option.map_eq_some_iff.1 named
  exact kind.isLabel_labelName offset

theorem Lexeme.inRange_of_bytes {value : Int} {w : Width} (inRange : Bytes.InRange value w.bytes) :
    Lexeme.InRange value := by
  have wide := Width.inRange_mono inRange
  simp only [Bytes.InRange, Width.bytes] at wide
  simp only [Lexeme.InRange, leastLiteral, greatestLiteral]
  omega

theorem Lexeme.inRange_of_bits {value : Int} {w : Width} (nonneg : 0 ≤ value) (bound : value < 2 ^ w.bits) :
    Lexeme.InRange value := by
  simp only [Lexeme.InRange, leastLiteral, greatestLiteral]
  cases w <;> simp only [Width.bits, Width.bytes, Nat.reduceMul, Int.reducePow] at bound <;> omega

namespace Operand

/-- What is read and accepted by a slot can be spelled: integers and addresses have at most 32 bits,
and the name of an atom comes from the slot. -/
theorem isSpelled_of_isRead {o : Operand} (isRead : o.IsRead) (checked : o.checkExpression = .ok ())
    {slot : Slot} (accepted : slot.accepts o = true) : o.IsSpelled := by
  induction o using Operand.expr_induction generalizing slot with
  | leaf o notExpr =>
    rw [isSpelled_leaf notExpr]
    have plain := (isRead_leaf notExpr).1 isRead
    cases o with
    | int value width span => exact Lexeme.inRange_of_bytes plain.2.2
    | atom name span =>
      cases slot <;> simp only [Slot.accepts, isExpression, isReference, Bool.false_eq_true, Bool.false_and,
        beq_iff_eq] at accepted
      case atom a => exact accepted ▸ a.isName_name
    | text bytes span => exact True.intro
    | label => exact plain.elim
    | offset value width isElse span =>
      obtain ⟨-, w, rfl, nonneg, bound⟩ := plain
      exact ⟨nonneg, Lexeme.inRange_of_bits nonneg bound⟩
    | expr op args span => exact absurd rfl (notExpr op args span)
    | message => exact plain.elim
  | expr op args span ih =>
    obtain ⟨⟨-, proper⟩, each⟩ := isRead_expr.1 isRead
    obtain ⟨operator, member, rfl, ⟨shape, chosen⟩, inner⟩ := checkExpression_expr checked
    rw [Operator.ofName?_eq_some.2 ⟨member, rfl⟩, Option.any_some] at proper
    obtain ⟨-, accepts⟩ := (Placement.shapeOf_eq_ok member proper).1 chosen
    refine isSpelled_expr.2 ⟨⟨operator, member, rfl, fun a _ => ⟨fun width role => ?_, fun role => ?_⟩⟩,
      fun a isArg => ?_⟩
    · simp [Operator.isProper, role] at proper
    · simp [Operator.isProper, role] at proper
    · obtain ⟨slot, -, here⟩ := exists_left_of_mem accepts isArg
      exact ih a isArg (each a isArg) (inner a isArg) here

end Operand

namespace MessageCommand

variable {p : Placement} {slot : Slot} {command : MessageCommand} {commands : List MessageCommand}

theorem isArgument_of_isField {a : Operand} (isField : a.IsField) (kind : MessageOp.isMessageSlot slot = true)
    (accepted : slot.acceptsField a = true) {bs : Bytes} (lowered : p.lowerMessageArg slot a = .ok bs) :
    a.IsArgument := by
  cases a with
  | text => exact True.intro
  | int value width span =>
    cases slot <;> simp only [Slot.acceptsField, Bool.false_eq_true] at accepted
    case field f =>
      obtain ⟨holds, -⟩ := lowerField_eq_ok.1 lowered
      unfold Field.Holds at holds
      split at holds
      · exact Lexeme.inRange_of_bytes holds
      · refine Lexeme.inRange_of_bits (w := f.width) holds.1 (holds.2.trans_eq ?_)
        cases f.width <;> rfl
    case literal v =>
      obtain rfl : value = v := by simpa using (Bool.and_eq_true_iff.1 accepted).1
      exact Lexeme.inRange_of_bytes (w := .byte) (of_decide_eq_true kind)
  | _ => exact isField.elim

theorem isArgument_of_storesAll {slots : Shape} {args : List Operand} {index : Nat} {bs : Bytes}
    (kinds : ∀ slot ∈ slots, MessageOp.isMessageSlot slot = true)
    (accepts : List.Forall₂ (fun slot o => slot.acceptsField o = true) slots args)
    (isField : ∀ a ∈ args, a.IsField)
    (stored : StoresAll (fun _ slot o b => p.lowerMessageArg slot o = .ok b) index slots args bs) :
    ∀ a ∈ args, a.IsArgument := by
  induction accepts generalizing index bs with
  | nil => simp
  | cons accepted _ ih =>
    obtain ⟨kind, kinds⟩ := List.forall_mem_cons.1 kinds
    obtain ⟨here, isField⟩ := List.forall_mem_cons.1 isField
    obtain ⟨b, b', -, lowered, stored⟩ := stored
    exact List.forall_mem_cons.2 ⟨isArgument_of_isField here kind accepted lowered, ih kinds isField stored⟩

/-- A command that was read and can be stored is one of a checked body. -/
theorem IsRead.isNormal (isRead : command.IsRead) {bs : Bytes} (lowered : p.lowerMessageCommand command = .ok bs) :
    command.IsNormal := by
  obtain ⟨-, content⟩ := isRead
  rw [IsNormal]
  split at content
  · rename_i text
    obtain ⟨bytes, args, nonempty⟩ := content
    rw [if_pos text]
    refine ⟨bytes, none, args, nonempty, ?_⟩
    unfold Placement.lowerMessageCommand at lowered
    rw [if_pos (show (command.op == MessageOp.textName) = true from text), args] at lowered
    by_contra commandByte
    simp [commandByte, Placement.fail] at lowered
  · rename_i notText
    rw [if_neg notText]
    obtain ⟨m, member, name⟩ := Placement.op_of_lowerMessageCommand (by simpa using notText) lowered
    obtain ⟨op, args, span⟩ := command
    obtain rfl : m.name = op := name
    obtain ⟨slots, form, accepts, body, -, stored⟩ := (lowerMessageCommand_eq_ok member).1 lowered
    have kinds : ∀ slot ∈ slots, MessageOp.isMessageSlot slot = true :=
      fun slot inForm => MessageOp.isMessageSlot_of_mem member form inForm
    refine ⟨m, member, rfl, ⟨slots, form, accepts⟩, fun a isArg =>
      ⟨isArgument_of_storesAll kinds accepts content stored a isArg, ?_⟩⟩
    have isField := content a isArg
    cases a <;> first | rfl | skip
    case int value width argSpan => rw [dropWidth, isField.1]

theorem Tidy.normal (tidy : Tidy commands) {bs : Bytes} (stored : p.StoresBody commands bs) : Normal commands := by
  refine ⟨fun command member => ?_, tidy.apart⟩
  obtain ⟨parts, lowered, -⟩ := stored
  obtain ⟨part, -, here⟩ := exists_right_of_mem (mapM_eq_ok.1 lowered) member
  exact (tidy.each command member).isNormal here

end MessageCommand

namespace Command

variable {c : Command} {p : Placement} {os : List Operand} {size : Nat} {code : ItemCode}

theorem Splits.drop_of_terminated {slots rest : Shape} {first others : List Operand}
    (splits : c.Splits size os slots rest first others) (member : c ∈ all) (kind : c.layout = .terminated) :
    os.drop 1 = others := by
  have table : ∀ c ∈ all, c.layout = .terminated → ∀ shape ∈ c.shapes, shape.minOperands = 1 := by
    decide +kernel
  have single := table c member kind _ splits.form
  rw [Shape.minOperands_append splits.fixed splits.tail, splits.admits.length_eq] at single
  rw [splits.split, ← single, List.drop_left]

theorem Splits.isElse {slots rest : Shape} {first others : List Operand}
    (splits : c.Splits size os slots rest first others) {index : Nat} {o : Operand} (here : os[index]? = some o)
    (slot : (slots ++ rest).slotAt index = some .elsePointer) : o.isElse = true := by
  rw [Shape.slotAt_append splits.fixed splits.tail] at slot
  have same := splits.admits.length_eq
  split at slot
  · rename_i inside
    rw [splits.split, List.getElem?_append_left (same ▸ inside)] at here
    have pair : (.elsePointer, o) ∈ slots.zip first :=
      List.mem_of_getElem? (List.getElem?_zip_eq_some.2 ⟨slot, here⟩)
    exact (List.forall₂_zip splits.admits pair).isElse rfl
  · rcases splits.tail with rfl | rfl <;> cases slot

theorem Readable.takes (member : c ∈ all) (readable : c.Readable size os) (lowered : p.lowerCommand c os = .ok code) :
    c.Takes os := by
  by_cases kind : c.layout = .message
  · simp only [Readable, Takes, kind] at readable ⊢
    obtain ⟨commands, rfl, tidy⟩ := readable
    have stored : p.lowerMessage commands none = .ok code := by
      simpa [Placement.lowerCommand, kind] using lowered
    obtain ⟨bs, stored, -⟩ := Placement.lowerMessage_eq_ok.1 stored
    exact ⟨commands, none, rfl, tidy.normal stored⟩
  · obtain ⟨slots, rest, first, others, splits⟩ := (readable_iff kind).1 readable
    obtain ⟨checked, open_, -⟩ := (splits.fills.lowers_iff member kind).1 lowered
    rw [← splits.split] at checked
    refine (takes_iff kind).2 ⟨slots ++ rest, (splits.fills.shapeOf_iff member).2 ⟨rfl, checked⟩, fun o inside => ?_,
      fun index o here isElse => ?_, fun terminated o inTail => ?_⟩
    · obtain ⟨slot, -, accepted⟩ := splits.fits.exists_slot inside
      exact Operand.isSpelled_of_isRead (splits.isRead o inside) (checked o inside) accepted
    · exact splits.isElse here isElse
    · rw [splits.drop_of_terminated member terminated] at inTail
      exact open_ terminated o inTail

end Command

namespace Relabels

variable {change : Operand → Operand} {o : Operand} {os : List Operand}

theorem isInt (keeps : Relabels change) (o : Operand) : (o.mapLeaves change).isInt = o.isInt := by
  rcases keeps.mapLeaves_cases o with ⟨isRef, mapped, still, -⟩ | ⟨op, args, span, rfl, mapped⟩ | ⟨-, mapped⟩
  · rw [mapped]
    cases o <;> cases h : change _ <;> simp_all [Operand.isInt, Operand.isReference]
  · rw [mapped]
    rfl
  · rw [mapped]

theorem isReference (keeps : Relabels change) (o : Operand) : (o.mapLeaves change).isReference = o.isReference := by
  rcases keeps.mapLeaves_cases o with ⟨isRef, mapped, still, -⟩ | ⟨op, args, span, rfl, mapped⟩ | ⟨-, mapped⟩
  · rw [mapped, still, isRef]
  · rw [mapped]
    rfl
  · rw [mapped]

theorem isSpelled (keeps : Relabels change)
    (spelled : ∀ leaf ∈ o.walk, leaf.isReference = true → leaf.Spelled → (change leaf).Spelled)
    (isSpelled : o.IsSpelled) : (o.mapLeaves change).IsSpelled := by
  induction o using Operand.expr_induction with
  | leaf o notExpr =>
    rcases keeps.mapLeaves_cases o with ⟨isRef, mapped, still, -⟩ | ⟨op, args, span, same, -⟩ | ⟨-, mapped⟩
    · rw [mapped, Operand.isSpelled_leaf (by intro _ _ _ h; simp [h, Operand.isReference] at still)]
      exact spelled o o.mem_walk_self isRef (isSpelled o o.mem_walk_self)
    · exact absurd same (notExpr op args span)
    · rwa [mapped]
  | expr op args span ih =>
    obtain ⟨⟨operator, member, name, single⟩, each⟩ := Operand.isSpelled_expr.1 isSpelled
    rw [Operand.mapLeaves, Operand.mapLeavesAll_eq_map, Operand.isSpelled_expr]
    refine ⟨⟨operator, member, name, fun a same => ?_⟩, fun a isArg => ?_⟩
    · obtain ⟨a', rfl, rfl⟩ := List.map_eq_singleton_iff.1 same
      rw [keeps.isInt, keeps.isReference]
      exact single a' rfl
    · obtain ⟨a', isArg', rfl⟩ := List.mem_map.1 isArg
      refine ih a' isArg' (fun leaf inside => spelled leaf ?_) (each a' isArg')
      rw [Operand.walk, Operand.walkAll_eq_flatMap]
      exact List.mem_cons_of_mem _ (List.mem_flatMap.2 ⟨a', isArg', inside⟩)

theorem exists_of_mem_walk (keeps : Relabels change) {leaf : Operand} (isRef : leaf.isReference = true)
    (inside : leaf ∈ (o.mapLeaves change).walk) : ∃ leaf' ∈ o.walk, leaf'.isReference = true ∧ change leaf' = leaf := by
  induction o using Operand.expr_induction with
  | leaf o notExpr =>
    have whole {o' : Operand} (same : ∀ op args span, o' ≠ .expr op args span) : o'.walk = [o'] := by
      cases o' <;> first | rfl | exact absurd rfl (same _ _ _)
    rcases keeps.mapLeaves_cases o with ⟨isRef', mapped, still, -⟩ | ⟨op, args, span, same, -⟩ | ⟨notRef, mapped⟩
    · rw [mapped, whole (by intro _ _ _ h; simp [h, Operand.isReference] at still), List.mem_singleton] at inside
      exact ⟨o, o.mem_walk_self, isRef', inside.symm⟩
    · exact absurd same (notExpr op args span)
    · rw [mapped, whole notExpr, List.mem_singleton] at inside
      rw [inside, notRef] at isRef
      cases isRef
  | expr op args span ih =>
    simp only [Operand.mapLeaves, Operand.mapLeavesAll_eq_map, Operand.walk, Operand.walkAll_eq_flatMap,
      List.mem_cons, List.mem_flatMap, List.mem_map] at inside ⊢
    rcases inside with rfl | ⟨_, ⟨a, isArg, rfl⟩, inArg⟩
    · cases isRef
    · obtain ⟨leaf', inside', found⟩ := ih a isArg inArg
      exact ⟨leaf', .inr ⟨a, isArg, inside'⟩, found⟩

theorem takes (keeps : Relabels change) {c : Command}
    (spelled : ∀ leaf ∈ Operand.walkAll os, leaf.isReference = true → leaf.Spelled → (change leaf).Spelled)
    (takes : c.Takes os) : c.Takes (Operand.mapLeavesAll change os) := by
  rw [Operand.mapLeavesAll_eq_map]
  by_cases kind : c.layout = .message
  · simp only [Command.Takes, kind] at takes ⊢
    obtain ⟨commands, span, rfl, normal⟩ := takes
    exact ⟨commands, span, congrArg (fun o => [o]) (keeps.other _ rfl), normal⟩
  · obtain ⟨shape, chosen, isSpelled, elses, open_⟩ := (Command.takes_iff kind).1 takes
    refine (Command.takes_iff kind).2 ⟨shape, (keeps.shapeOf c os).trans chosen, fun o inside => ?_,
      fun index o here slot => ?_, fun terminated o inTail => ?_⟩
    · obtain ⟨o', inside', rfl⟩ := List.mem_map.1 inside
      refine keeps.isSpelled (fun leaf inLeaf => spelled leaf ?_) (isSpelled o' inside')
      rw [Operand.walkAll_eq_flatMap]
      exact List.mem_flatMap.2 ⟨o', inside', inLeaf⟩
    · rw [List.getElem?_map, Option.map_eq_some_iff] at here
      obtain ⟨o', here, rfl⟩ := here
      rw [keeps.isElse]
      exact elses index o' here slot
    · rw [← List.map_drop] at inTail
      obtain ⟨o', inTail', rfl⟩ := List.mem_map.1 inTail
      rw [keeps.isTerminator]
      exact open_ terminated o' inTail'

end Relabels

theorem Data.IsTile.wellFormed {d : Data} (isTile : d.IsTile) : (Item.data d).WellFormed := by
  refine ⟨isTile.values, fun v member => ?_⟩
  rcases isTile with ⟨run, rfl⟩ | ⟨row, -, rfl⟩
  · obtain rfl := List.mem_singleton.1 member
    exact ⟨rfl, (Operand.isSpelled_leaf (by intro _ _ _ h; cases h)).2 True.intro⟩
  · obtain ⟨b, -, rfl⟩ := List.mem_map.1 member
    refine ⟨rfl, (Operand.isSpelled_leaf (by intro _ _ _ h; cases h)).2 ?_⟩
    have bound := b.toNat_lt
    simp only [Operand.Spelled, Lexeme.InRange, Lexeme.leastLiteral, Lexeme.greatestLiteral]
    omega

namespace Recovery

variable {r : Recovery} {s : Script} {target : Target} {entries : List (EntryPoint × Nat)}

/-- A reference that was read stays an offset where no label can stand, and becomes the name of a label
elsewhere. -/
theorem recoverReference_cases (pins : List Pin) {d : Decoded} (member : d ∈ r.code) {size : Nat}
    (readable : d.instruction.Readable size) {leaf : Operand}
    (inside : leaf ∈ Operand.walkAll d.instruction.operands) (isRef : leaf.isReference = true) :
    ∃ (t : Nat) (width : Option Width) (isElse : Bool), leaf = .offset t width isElse none ∧ t ∈ r.targets ∧
      ((r.isRaw t = true ∧ ∃ width', r.recoverReference pins leaf = .offset t width' isElse none) ∨
        r.isRaw t = false ∧ ∃ name width', r.marks.nameAt? t = some name ∧
          r.recoverReference pins leaf = .label name width' isElse none) := by
  obtain ⟨t, w, isElse, rfl, -⟩ := readable.reference inside isRef
  have isTarget := mem_targets member inside
  refine ⟨t, some w, isElse, rfl, isTarget, ?_⟩
  cases raw : r.isRaw t with
  | true =>
    refine .inl ⟨rfl, if some w = some (.ofAddress t) then none else some w, ?_⟩
    simp only [recoverReference, Function.comp_apply, nameTarget, Int.toNat_natCast, raw, if_true]
    rfl
  | false =>
    obtain ⟨name, named⟩ := nameAt?_of_target isTarget raw
    refine .inr ⟨rfl, name, (some w).filter fun w => pins.contains (name, w), named, ?_⟩
    simp only [recoverReference, Function.comp_apply, nameTarget, Int.toNat_natCast, raw, named,
      Bool.false_eq_true, if_false, Option.getD_some]
    rfl

theorem Ordered.rawUnit_cases (ordered : r.Ordered) {unit : Nat × Item} (member : unit ∈ r.scriptRawUnits) :
    (∃ d ∈ r.code, d.Valid r.data ∧ unit = (d.offset, .instruction d.instruction)) ∨
      ∃ d : Data, d.IsTile ∧ unit.2 = .data d := by
  obtain ⟨region, inRegions, inRegion⟩ := List.mem_flatMap.1 member
  cases region with
  | code d =>
    obtain rfl := List.mem_singleton.1 inRegion
    have inCode := mem_of_code_mem_regionsFrom inRegions
    exact .inl ⟨d, inCode, ordered.each d inCode, rfl⟩
  | gap start stop =>
    simp only [rawUnits, units, List.mem_flatMap, List.mem_map] at inRegion
    obtain ⟨_, -, tile, inTiles, rfl⟩ := inRegion
    exact .inr ⟨tile.2, Data.isTile_tileFrom tile inTiles, rfl⟩

theorem Ordered.wellFormed_unit (ordered : r.Ordered) (pins : List Pin) {unit : Nat × Item}
    (member : unit ∈ r.scriptRawUnits) : (unit.2.mapReferences (r.recoverReference pins)).WellFormed := by
  rcases ordered.rawUnit_cases member with ⟨d, inCode, valid, same⟩ | ⟨d, isTile, same⟩
  · obtain ⟨readable, code, -, lowered, -⟩ := (Instruction.decode_eq_ok {} []).1 valid.decoded
    obtain ⟨-, c, inAll, name, operands⟩ := id readable
    obtain ⟨c', inAll', name', body, lowered, -⟩ := Instruction.lower_eq_ok.1 lowered
    obtain rfl : c = c' := Option.some.inj
      ((Command.ofName?_eq_some.2 ⟨inAll, name⟩).symm.trans (Command.ofName?_eq_some.2 ⟨inAll', name'⟩))
    rw [same]
    refine ⟨c, inAll, name, (relabels_recoverReference r pins).takes (fun leaf inside isRef spelled => ?_)
      (operands.takes inAll lowered)⟩
    obtain ⟨t, _, _, rfl, -, ⟨-, _, recovered⟩ | ⟨-, label, _, named, recovered⟩⟩ :=
      recoverReference_cases pins inCode readable inside isRef
    · rw [recovered]
      exact spelled
    · rw [recovered]
      exact (Marks.isLabel_nameAt? named).1
  · rw [same]
    exact isTile.wellFormed

theorem Ordered.labelNames_unit (ordered : r.Ordered) (pins : List Pin) {unit : Nat × Item}
    (member : unit ∈ r.scriptRawUnits) {name : String}
    (used : name ∈ (unit.2.mapReferences (r.recoverReference pins)).labelNames) :
    ∃ t ∈ r.targets, r.isRaw t = false ∧ r.marks.nameAt? t = some name := by
  obtain ⟨leaf, inside, isName⟩ := List.mem_filterMap.1 used
  obtain ⟨⟨_, span⟩, reference, rfl⟩ := Option.map_eq_some_iff.1 isName
  have isRef : leaf.isReference = true := by cases leaf <;> first | rfl | cases reference
  rcases ordered.rawUnit_cases member with ⟨d, inCode, valid, same⟩ | ⟨d, isTile, same⟩
  · obtain ⟨readable, -⟩ := (Instruction.decode_eq_ok {} []).1 valid.decoded
    rw [same] at inside
    simp only [Item.mapReferences, Item.operands, Operand.mapLeavesAll_eq_map, Operand.walkAll_eq_flatMap,
      List.mem_flatMap, List.mem_map] at inside
    obtain ⟨_, ⟨o, isOperand, rfl⟩, inOperand⟩ := inside
    obtain ⟨leaf', inside', isRef', rfl⟩ := (relabels_recoverReference r pins).exists_of_mem_walk isRef inOperand
    have inWalk : leaf' ∈ Operand.walkAll d.instruction.operands := by
      rw [Operand.walkAll_eq_flatMap]
      exact List.mem_flatMap.2 ⟨o, isOperand, inside'⟩
    obtain ⟨t, _, _, -, isTarget, ⟨-, _, recovered⟩ | ⟨notRaw, label, _, named, recovered⟩⟩ :=
      recoverReference_cases pins inCode readable inWalk isRef'
    · rw [recovered] at reference
      cases reference
    · rw [recovered] at reference
      cases reference
      exact ⟨t, isTarget, notRaw, named⟩
  · rw [same] at inside
    rw [Item.mapReferences, Item.operands,
      Data.walkAll_of_takes fun v inValues => (isTile.wellFormed.2 v inValues).1] at inside
    rcases isTile with ⟨run, rfl⟩ | ⟨row, -, rfl⟩
    · obtain rfl := List.mem_singleton.1 inside
      cases isRef
    · obtain ⟨b, -, rfl⟩ := List.mem_map.1 inside
      cases isRef

/-- The script of a recovery is well formed, whatever is pinned, if its entry points are items of it
and have keys that can be written. -/
theorem Ordered.wellFormed (ordered : r.Ordered) (scripts : r.Scripts target entries s)
    (inside : ∀ e ∈ entries, e.2 ∈ r.scriptUnits.map (·.1) ++ [r.data.length])
    (keys : ∀ e ∈ entries, ∀ key, e.1.key = some key → Lexeme.InRange key) (pins : List Pin) :
    (s.loosen pins).WellFormed := by
  have items := loosen_items scripts.builds.items pins
  have entry {e : EntryPoint × String} (member : e ∈ s.entries) : ∃ e' ∈ entries, e.1 = e'.1 ∧
      r.marks.nameAt? e'.2 = some e.2 := exists_left_of_mem scripts.entries member
  constructor
  · constructor
    · refine scripts.builds.bindings.trans (List.ext_getElem? fun k => ?_)
      simp [Script.loosen, Function.comp_def]
    · simpa [Script.loosen, Function.comp_def] using scripts.builds.distinct
    · intro k b found
      simp only [Script.loosen, List.getElem?_map, Option.map_eq_some_iff] at found
      obtain ⟨b, found, rfl⟩ := found
      obtain ⟨_, _, -, named, -⟩ := scripts.builds.starts k b found
      exact .inl (Marks.isLabel_nameAt? named)
    · intro item member
      rw [items] at member
      obtain ⟨unit, inUnits, rfl⟩ := List.mem_map.1 member
      exact ordered.wellFormed_unit pins inUnits
    · intro e member key isKey
      obtain ⟨e', declared, same, -⟩ := entry member
      exact keys e' declared key (same ▸ isKey)
    · intro e member
      obtain ⟨e', -, -, named⟩ := entry member
      exact (Marks.isLabel_nameAt? named).1
    · exact scripts.scope
    · exact scripts.distinct
  · have isBlock {label : String} (found : ∃ b ∈ s.blocks, b.label = label) :
        ∃ b ∈ (s.loosen pins).blocks, b.label = label := by
      obtain ⟨b, inBlocks, same⟩ := found
      exact ⟨_, List.mem_map.2 ⟨b, inBlocks, rfl⟩, same⟩
    intro name used
    rcases List.mem_append.1 used with inItems | inEntries
    · rw [items, List.flatMap_map, List.mem_flatMap] at inItems
      obtain ⟨unit, inUnits, here⟩ := inItems
      obtain ⟨t, isTarget, notRaw, named⟩ := ordered.labelNames_unit pins inUnits here
      obtain ⟨name', binding, named', found⟩ := scripts.targets t isTarget notRaw
      cases named.symm.trans named'
      exact isBlock (Script.exists_block_of_bindings scripts.builds.bindings found)
    · obtain ⟨e, member, rfl⟩ := List.mem_map.1 inEntries
      obtain ⟨e', declared, -, named⟩ := entry member
      exact isBlock (scripts.builds.named e'.2 (inside e' declared) e.2 named)

end Recovery

theorem Script.disassemble_wellFormed {data : Bytes} {seeds : List Seed} {target : Option Target} {limit : Nat}
    {s : Script} (disassembled : disassemble data seeds target limit = .ok s)
    (keys : ∀ entry offset, (some entry, offset) ∈ seeds → ∀ key, entry.key = some key → Lexeme.InRange key) :
    s.WellFormed := by
  obtain ⟨r, s₀, recovered, built, minimized⟩ := disassemble_eq_ok.1 disassembled
  obtain ⟨-, ordered⟩ := Recovery.ofSeeds_ordered recovered
  obtain ⟨pins, _, rfl, -⟩ := minimizePins_eq_ok minimized
  have declared {e : EntryPoint × Nat} (member : e ∈ declaredEntries seeds) :
      ∃ offset : Int, (some e.1, offset) ∈ seeds ∧ offset.toNat = e.2 := mem_declaredEntries.1 member
  refine ordered.wellFormed (Recovery.script_eq_ok built) (fun e member => ?_) (fun e member => ?_) pins
  · obtain ⟨offset, inSeeds, same⟩ := declared member
    exact same ▸ (Recovery.seed_offset recovered inSeeds).2
  · obtain ⟨offset, inSeeds, -⟩ := declared member
    exact keys e.1 offset inSeeds

end EventScript
