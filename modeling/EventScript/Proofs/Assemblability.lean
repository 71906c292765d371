import EventScript.Proofs.Canonical
import EventScript.Proofs.Reassembly

namespace EventScript

def Error.IsRange (e : Error) : Prop := ∃ error, e = .encode error ∧ error.cause.reason = "OutOfRange"

namespace Operand

def IsDeclared (labels : LabelTable) (o : Operand) : Prop :=
  ∀ name span, o.reference? = some (name, span) → ∃ binding, labels.get? name = some binding

def isValue : Operand → Bool
  | int .. | label .. | offset .. | expr .. => true
  | _ => false

end Operand

namespace Slot

def isOrdinary : Slot → Bool
  | message | format | field _ => false
  | _ => true

def takesValue : Slot → Bool
  | expr _ | assignable | update | integer | variadic | literal _ => true
  | _ => false

theorem isValue_of_accepts {slot : Slot} (value : slot.takesValue = true) {o : Operand}
    (accepts : slot.accepts o = true) : o.isValue = true := by
  cases slot <;> cases value
  all_goals cases o <;> first | rfl | cases accepts

/-- The operand stands in its slot, is checked throughout and names declared labels. -/
structure Holds (labels : LabelTable) (slot : Slot) (o : Operand) : Prop where
  ordinary : slot.isOrdinary = true
  accepts : slot.accepts o = true
  checked : o.checkExpression = .ok ()
  declared : ∀ leaf ∈ o.walk, leaf.IsDeclared labels

end Slot

theorem Command.isOrdinary_of_mem {c : Command} (member : c ∈ all) (noMessage : c.layout ≠ .message)
    {shape : Shape} (form : shape ∈ c.shapes) {slot : Slot} (inForm : slot ∈ shape) : slot.isOrdinary = true := by
  have table : ∀ c ∈ all, c.layout ≠ .message → ∀ shape ∈ c.shapes, ∀ slot ∈ shape, slot.isOrdinary = true := by
    decide +kernel
  exact table c member noMessage shape form slot inForm

theorem Command.takesValue_of_mem {c : Command} (member : c ∈ all) (kind : c.layout = .assignment)
    {shape : Shape} (form : shape ∈ c.shapes) {slot : Slot} (inForm : slot ∈ shape) : slot.takesValue = true := by
  have table : ∀ c ∈ all, c.layout = .assignment → ∀ shape ∈ c.shapes, ∀ slot ∈ shape, slot.takesValue = true := by
    decide +kernel
  exact table c member kind shape form slot inForm

theorem Operator.isOrdinary_of_mem {o : Operator} (member : o ∈ all) {shape : Shape} (form : shape ∈ o.shapes)
    {slot : Slot} (inForm : slot ∈ shape) : slot.isOrdinary = true := by
  have table : ∀ o ∈ all, ∀ shape ∈ o.shapes, ∀ slot ∈ shape, slot.isOrdinary = true := by
    decide +kernel
  exact table o member shape form slot inForm

namespace Placement

variable {p : Placement} {o : Operand}

theorem fail_failsOnly {α : Type} {cause : EncodeCause} (reason : cause.reason = "OutOfRange") (span : Option Span) :
    FailsOnly Error.IsRange (p.fail cause span : Except Error α) :=
  .error ⟨_, rfl, reason⟩

theorem lowerInt_failsOnly (value : Int) (width : Option Width) (span : Option Span) :
    FailsOnly Error.IsRange (p.lowerInt value width span) := by
  unfold lowerInt
  dsimp only
  split
  · exact .of_ok rfl
  · exact fail_failsOnly rfl span

theorem lowerPointer_failsOnly (isRef : o.isReference = true) (declared : o.IsDeclared p.labels) :
    FailsOnly Error.IsRange (p.lowerPointer o) := by
  cases o with
  | label name width isElse span =>
    obtain ⟨binding, found⟩ := declared name span rfl
    simp only [lowerPointer, found]
    exact .of_ok rfl
  | offset value width isElse span =>
    simp only [lowerPointer]
    split
    · exact .of_ok rfl
    · exact fail_failsOnly rfl span
  | _ => cases isRef

theorem lowerSlot_failsOnly {slot : Slot} (holds : slot.Holds p.labels o) {expression : Except Error ItemCode}
    (value : o.isValue = true → FailsOnly Error.IsRange expression) :
    FailsOnly Error.IsRange (p.lowerSlot slot o expression) := by
  have declared := holds.declared o o.mem_walk_self
  have accepts := holds.accepts
  cases slot with
  | pointer =>
    simp only [Slot.accepts, Bool.and_eq_true] at accepts
    exact lowerPointer_failsOnly accepts.1 declared
  | elsePointer => exact lowerPointer_failsOnly accepts declared
  | text =>
    cases o with
    | text bytes span =>
      simp only [lowerSlot]
      split
      · exact fail_failsOnly rfl span
      · exact .of_ok rfl
    | _ => cases accepts
  | atom a => exact .of_ok rfl
  | message | format | field => cases holds.ordinary
  | _ => exact value (Slot.isValue_of_accepts rfl accepts)

end Placement

namespace Shape

theorem slotAt_of_lt {shape : Shape} {i : Nat} (inside : i < shape.length) : shape.slotAt i = shape[i]? := by
  unfold slotAt
  split
  · rename_i last
    simp only [isVariadic, List.getLast?_eq_getElem?, Bool.and_eq_true, beq_iff_eq, decide_eq_true_eq] at last
    have same : i = shape.length - 1 := by omega
    rw [same, last.1]
  · rfl

theorem slotAt_of_variadic {shape : Shape} (variadic : shape.isVariadic = true) {i : Nat}
    (after : shape.minOperands ≤ i) : shape.slotAt i = some .variadic := by
  simp only [minOperands, variadic, if_true] at after
  simp [slotAt, variadic, after]

variable {check : Slot → Operand → Bool} {shape : Shape} {os : List Operand}

theorem Fits.of_mem_zip (fits : Fits check shape os) {slot : Slot} {o : Operand} {n : Nat}
    (member : (slot, o) ∈ (shape.take n).zip os) : slot ∈ shape ∧ o ∈ os ∧ check slot o = true := by
  obtain ⟨i, here⟩ := List.mem_iff_getElem?.1 member
  obtain ⟨atSlot, atOperand⟩ := List.getElem?_zip_eq_some.1 here
  obtain ⟨inTake, rfl⟩ := List.getElem?_eq_some_iff.1 atSlot
  obtain ⟨inside, rfl⟩ := List.getElem?_eq_some_iff.1 atOperand
  rw [List.length_take] at inTake
  have bound : i < shape.length := by omega
  have accepted := fits.each i inside
  rw [slotAt_of_lt bound, List.getElem?_eq_getElem bound, Option.any_some] at accepted
  rw [List.getElem_take]
  exact ⟨List.getElem_mem bound, List.getElem_mem inside, accepted⟩

theorem Fits.of_mem_drop (fits : Fits check shape os) (variadic : shape.isVariadic = true) {o : Operand}
    (member : o ∈ os.drop shape.minOperands) : check .variadic o = true := by
  obtain ⟨i, inside, rfl⟩ := List.getElem_of_mem member
  rw [List.length_drop] at inside
  have accepted := fits.each (shape.minOperands + i) (by omega)
  rw [slotAt_of_variadic variadic (by omega), Option.any_some] at accepted
  rw [List.getElem_drop]
  exact accepted

end Shape

namespace Placement

variable {p : Placement} {o : Operand} {os : List Operand}

theorem lowerExpr_failsOnly (isValue : o.isValue = true) (checked : o.checkExpression = .ok ())
    (declared : ∀ leaf ∈ o.walk, leaf.IsDeclared p.labels) : FailsOnly Error.IsRange (p.lowerExpr o) := by
  induction o using Operand.expr_induction with
  | leaf o notExpr =>
    cases o with
    | int value width span => exact lowerInt_failsOnly value width span
    | label name width isElse span =>
      rw [lowerExpr_reference p rfl]
      exact (lowerPointer_failsOnly rfl (declared _ (Operand.mem_walk_self _))).map
    | offset value width isElse span =>
      rw [lowerExpr_reference p rfl]
      exact (lowerPointer_failsOnly rfl (declared _ (Operand.mem_walk_self _))).map
    | expr op args span => exact absurd rfl (notExpr op args span)
    | _ => cases isValue
  | expr op args span ih =>
    obtain ⟨operator, member, rfl, ⟨shape, chosen⟩, argsChecked⟩ := Operand.checkExpression_expr checked
    by_cases constant : ∃ value width argSpan forced, args = [.int value width argSpan] ∧
        Operator.constantWidth? operator.name = some forced
    · obtain ⟨value, width, argSpan, forced, rfl, isForced⟩ := constant
      rw [lowerExpr_constant p isForced]
      exact lowerInt_failsOnly value (some forced) argSpan
    · have notConstant : ∀ value width argSpan, args = [.int value width argSpan] →
          Operator.constantWidth? operator.name = none := by
        intro value width argSpan isInt
        cases isForced : Operator.constantWidth? operator.name with
        | none => rfl
        | some forced => exact absurd ⟨value, width, argSpan, forced, isInt, isForced⟩ constant
      rw [lowerExpr_operator p span notConstant, Operator.ofName?_eq_some.2 ⟨member, rfl⟩]
      dsimp only
      rw [chosen]
      obtain ⟨form, fits⟩ :=
        (Shape.choose_eq_ok (Operator.regular member).separate Slot.not_accepts_of_exclusive).1 chosen
      have each : ∀ part ∈ p.lowerArgs shape args, FailsOnly Error.IsRange part := by
        intro part inParts
        rw [lowerArgs_eq_zipWith, ← List.map_uncurry_zip_eq_zipWith] at inParts
        obtain ⟨⟨slot, a⟩, inZip, rfl⟩ := List.mem_map.1 inParts
        rw [← List.take_length (l := shape)] at inZip
        obtain ⟨inForm, isArg, accepts⟩ := fits.of_mem_zip inZip
        have inner : ∀ leaf ∈ a.walk, leaf.IsDeclared p.labels := fun leaf inArg =>
          declared leaf (Operand.mem_walk_of_arg isArg inArg)
        exact lowerSlot_failsOnly ⟨Operator.isOrdinary_of_mem member form inForm, accepts, argsChecked a isArg, inner⟩
          fun argValue => ih a isArg argValue (argsChecked a isArg) inner
      refine (FailsOnly.mapM fun part inParts => each part ?_).map
      split at inParts
      · exact List.mem_reverse.1 inParts
      · exact inParts

theorem lowerSlot_of_holds {slot : Slot} (holds : slot.Holds p.labels o) :
    FailsOnly Error.IsRange (p.lowerSlot slot o (p.lowerExpr o)) :=
  lowerSlot_failsOnly holds fun isValue => lowerExpr_failsOnly isValue holds.checked holds.declared

theorem lowerFixed_failsOnly {slots : Shape} (holds : ∀ pair ∈ slots.zip os, pair.1.Holds p.labels pair.2)
    (index : Nat) : FailsOnly Error.IsRange (p.lowerFixed index slots os) := by
  induction os generalizing slots index with
  | nil => cases slots <;> exact .of_ok rfl
  | cons o os ih =>
    cases slots with
    | nil => exact .of_ok rfl
    | cons slot slots =>
      rw [List.zip_cons_cons, List.forall_mem_cons] at holds
      refine FailsOnly.bind ?_ fun _ _ => FailsOnly.bind (ih holds.2 (index + 1)) fun _ _ => .of_ok rfl
      exact lowerSlot_of_holds (p := p.atOperand index) holds.1

theorem lowerTail_failsOnly (holds : ∀ o ∈ os, Slot.Holds p.labels .variadic o) (terminated : Bool) (index : Nat) :
    FailsOnly Error.IsRange (p.lowerTail terminated index os) := by
  induction os generalizing index with
  | nil => exact .of_ok rfl
  | cons o os ih =>
    obtain ⟨here, others⟩ := List.forall_mem_cons.1 holds
    unfold lowerTail
    dsimp only
    split
    · exact fail_failsOnly rfl _
    · refine FailsOnly.bind ?_ fun _ _ => FailsOnly.bind (ih others (index + 1)) fun _ _ => .of_ok rfl
      exact lowerExpr_failsOnly (p := p.atOperand index) (Slot.isValue_of_accepts rfl here.accepts) here.checked
        here.declared

section Operands

variable {c : Command} (member : c ∈ Command.all) (noMessage : c.layout ≠ .message) {shape : Shape}
  (chosen : c.shapeOf os = .ok shape) (declared : ∀ leaf ∈ Operand.walkAll os, leaf.IsDeclared p.labels)

include declared in
theorem declared_of_mem (inOperands : o ∈ os) : ∀ leaf ∈ o.walk, leaf.IsDeclared p.labels := by
  intro leaf inside
  apply declared
  rw [Operand.walkAll_eq_flatMap]
  exact List.mem_flatMap.2 ⟨o, inOperands, inside⟩

include member noMessage chosen declared in
theorem lowerOperands_failsOnly : FailsOnly Error.IsRange (p.lowerOperands c shape os) := by
  obtain ⟨form, fits, checked⟩ := (Command.shapeOf_eq_ok member).1 chosen
  have fixed : ∀ pair ∈ (shape.take shape.minOperands).zip os, pair.1.Holds p.labels pair.2 := by
    rintro ⟨slot, o⟩ inZip
    obtain ⟨inForm, inOperands, accepts⟩ := fits.of_mem_zip inZip
    exact ⟨Command.isOrdinary_of_mem member noMessage form inForm, accepts, checked o inOperands,
      declared_of_mem declared inOperands⟩
  refine FailsOnly.bind (lowerFixed_failsOnly fixed 0) fun start _ => ?_
  dsimp only
  split
  · exact .of_ok rfl
  · rename_i variadic
    refine FailsOnly.bind (lowerTail_failsOnly (fun o inTail => ?_) _ _) fun tail _ => ?_
    · have inOperands := List.mem_of_mem_drop inTail
      exact ⟨rfl, fits.of_mem_drop (by simpa using variadic) inTail, checked o inOperands,
        declared_of_mem declared inOperands⟩
    · split <;> exact .of_ok rfl

include member chosen declared in
theorem lowerExpr_of_assignment (kind : c.layout = .assignment) (index : Nat) (inOperands : o ∈ os) :
    FailsOnly Error.IsRange ((p.atOperand index).lowerExpr o) := by
  obtain ⟨form, fits, checked⟩ := (Command.shapeOf_eq_ok member).1 chosen
  refine lowerExpr_failsOnly ?_ (checked o inOperands) (declared_of_mem declared inOperands)
  obtain ⟨i, inside, rfl⟩ := List.getElem_of_mem inOperands
  have accepted := fits.each i inside
  obtain ⟨slot, isSlot, accepts⟩ := (Option.any_eq_true ..).1 accepted
  rcases Shape.mem_of_slotAt isSlot with inForm | rfl
  · exact Slot.isValue_of_accepts (Command.takesValue_of_mem member kind form inForm) accepts
  · exact Slot.isValue_of_accepts rfl accepts

end Operands

theorem lowerMessageCommand_failsOnly {command : MessageCommand} (isNormal : command.IsNormal) :
    FailsOnly Error.IsRange (p.lowerMessageCommand command) := by
  unfold lowerMessageCommand
  unfold MessageCommand.IsNormal MessageCommand.isText at isNormal
  split
  · rename_i text
    rw [if_pos text] at isNormal
    obtain ⟨bytes, span, args, -, allText⟩ := isNormal
    simp only [args, allText, if_true]
    exact .of_ok rfl
  · rename_i notText
    rw [if_neg notText] at isNormal
    obtain ⟨m, member, named, ⟨shape, form, accepted⟩, -⟩ := isNormal
    rw [MessageOp.ofName?_eq_some.2 ⟨member, named⟩]
    dsimp only
    rw [← named, (MessageOp.choose_eq_ok member).2 ⟨form, accepted⟩]
    refine FailsOnly.bind (FailsOnly.mapM fun pair _ => ?_) fun _ _ => .of_ok rfl
    obtain ⟨slot, arg⟩ := pair
    dsimp only
    unfold lowerMessageArg
    split
    · exact .of_ok rfl
    · exact .of_ok rfl
    · exact .ite (fun _ => .of_ok rfl) fun _ => fail_failsOnly rfl _
    · exact .of_ok rfl

theorem lowerMessage_failsOnly {commands : List MessageCommand} (normal : MessageCommand.Normal commands)
    (span : Option Span) : FailsOnly Error.IsRange (p.lowerMessage commands span) := by
  refine FailsOnly.bind (FailsOnly.mapM fun command inBody => ?_) fun parts _ => ?_
  · exact lowerMessageCommand_failsOnly (normal.each command inBody)
  · dsimp only
    split
    · exact fail_failsOnly rfl span
    · exact .of_ok rfl

theorem lowerCommand_failsOnly {c : Command} (member : c ∈ Command.all) (takes : c.Takes os)
    (declared : ∀ leaf ∈ Operand.walkAll os, leaf.IsDeclared p.labels) :
    FailsOnly Error.IsRange (p.lowerCommand c os) := by
  by_cases noMessage : c.layout = .message
  · simp only [Command.Takes, noMessage] at takes
    obtain ⟨commands, span, rfl, normal⟩ := takes
    simp only [lowerCommand, noMessage]
    exact lowerMessage_failsOnly normal span
  · obtain ⟨shape, chosen, -⟩ := (Command.takes_iff noMessage).1 takes
    have operands := lowerOperands_failsOnly member noMessage chosen declared
    unfold lowerCommand
    split
    · contradiction
    · simp only [chosen]
      split
      · rename_i kind
        refine FailsOnly.bind ?_ fun _ _ => FailsOnly.bind ?_ fun _ _ => .of_ok rfl
        · exact lowerExpr_of_assignment member chosen declared kind 1 (by simp)
        · exact lowerExpr_of_assignment member chosen declared kind 0 (by simp)
      · exact operands.map
      · exact operands

end Placement

theorem Data.lowerValue_failsOnly {labels : LabelTable} {d : Data} {v : Operand} (takes : Data.takes d.width v = true)
    (declared : v.IsDeclared labels) : FailsOnly Error.IsRange (d.lowerValue labels v) := by
  cases v with
  | int value width span => exact .ite (fun _ => .of_ok rfl) fun _ => .error ⟨_, rfl, rfl⟩
  | text bytes span => exact .of_ok rfl
  | offset value width isElse span => exact .of_ok rfl
  | label name width isElse span =>
    obtain ⟨binding, found⟩ := declared name span rfl
    simp only [lowerValue, found]
    exact .of_ok rfl
  | _ => cases takes

theorem Item.lower_failsOnly {labels : LabelTable} {item : Item} (wellFormed : item.WellFormed)
    (declared : ∀ leaf ∈ Operand.walkAll item.operands, leaf.IsDeclared labels) :
    FailsOnly Error.IsRange (item.lower labels) := by
  cases item with
  | instruction i =>
    obtain ⟨c, member, named, takes⟩ := wellFormed
    simp only [Item.lower, Instruction.lower, Command.ofName?_eq_some.2 ⟨member, named⟩]
    exact (Placement.lowerCommand_failsOnly (p := ⟨labels, ⟨i.opcode, 0⟩, i.span⟩) member takes declared).map
  | data d =>
    refine FailsOnly.mapM fun v member => ?_
    obtain ⟨takes, -⟩ := wellFormed.2 v member
    exact Data.lowerValue_failsOnly takes
      (Placement.declared_of_mem (p := ⟨labels, ⟨"", 0⟩, none⟩) declared member v v.mem_walk_self)

namespace Script

variable {s : Script}

theorem WellFormed.exists_get? (wellFormed : s.WellFormed) {name : String} (used : name ∈ s.usedLabels) :
    ∃ binding, s.labels.get? name = some binding := by
  obtain ⟨b, member, same⟩ := wellFormed.declared name used
  refine Option.ne_none_iff_exists'.1 fun missing => ?_
  exact wellFormed.get?_eq_none.1 missing b member same

theorem WellFormed.lowerBlocks_failsOnly (wellFormed : s.WellFormed) : FailsOnly Error.IsRange s.lowerBlocks := by
  refine FailsOnly.mapM fun b inBlocks => FailsOnly.mapM fun item inBlock => ?_
  have inItems : item ∈ s.items := List.mem_flatMap.2 ⟨b, inBlocks, inBlock⟩
  refine Item.lower_failsOnly (wellFormed.items item inItems) fun leaf inside name span isName => ?_
  refine wellFormed.exists_get? (List.mem_append_left _ (List.mem_flatMap.2 ⟨item, inItems, ?_⟩))
  exact List.mem_filterMap.2 ⟨leaf, inside, by rw [isName]; rfl⟩

theorem WellFormed.lower_placed (wellFormed : s.WellFormed) {c : Code} (lowered : s.lowerBlocks = .ok c) :
    c.IsPlaced :=
  Script.lower_placed lowered fun _ _ => block_lt_of_bindings wellFormed.bindings

theorem WellFormed.lower_failsOnly (wellFormed : s.WellFormed) : FailsOnly Error.IsRange s.lower := by
  refine wellFormed.lowerBlocks_failsOnly.bind fun c lowered => ?_
  have placed := wellFormed.lower_placed lowered
  rw [if_pos (Code.all_placed.2 fun p inCode _ => placed.pointer inCode)]
  exact .of_ok rfl

theorem WellFormed.exists_entryAddresses (wellFormed : s.WellFormed) {l : Layout}
    (lengths : l.blockAddresses.length = s.blocks.length) : ∃ table, s.entryAddresses l = .ok table := by
  refine exists_mapM fun e member => ?_
  have inEntries := (List.mergeSort_perm ..).mem_iff.1 member
  obtain ⟨binding, found⟩ :=
    wellFormed.exists_get? (List.mem_append_right _ (List.mem_map.2 ⟨e, inEntries, rfl⟩))
  have inside := block_lt_of_bindings wellFormed.bindings found
  have address : l.addressOf s e.2 = .ok (l.blockAddresses.getD binding.block 0) := by
    rw [Layout.addressOf_eq found, blockAddress_of_lt (lengths ▸ inside)]
  exact ⟨(e.1, l.blockAddresses.getD binding.block 0), bind_eq_ok.2 ⟨_, address, rfl⟩⟩

end Script

section Emission

variable {addresses : List Nat}

theorem Piece.word_of_lt {value : Nat} (small : value < 2 ^ 32) : FailsOnly Error.IsRange (Piece.word value) :=
  .ite (fun _ => .of_ok rfl) fun large => absurd small large

theorem Piece.emit_failsOnly (small : ∀ block, addresses.getD block 0 < 2 ^ 32) {stop : Nat} (before : stop < 2 ^ 32)
    (address : Nat) {piece : Piece} (placed : piece.LeadsWithin addresses.length) :
    FailsOnly Error.IsRange (piece.emit addresses address stop) := by
  cases piece with
  | bytes bs => exact .of_ok rfl
  | pointer p =>
    refine (FailsOnly.of_ok (blockAddress_of_lt placed)).bind fun value _ => ?_
    exact .ite (fun _ => .of_ok rfl) fun _ => .error ⟨_, rfl, rfl⟩
  | blockWord block =>
    refine (FailsOnly.of_ok (blockAddress_of_lt placed)).bind fun value here => ?_
    rw [blockAddress_of_lt placed] at here
    exact word_of_lt (Except.ok.inj here ▸ small block)
  | endWord => exact word_of_lt before
  | sizeWord site span => exact .ite (fun _ => .of_ok rfl) fun _ => .error ⟨_, rfl, rfl⟩

theorem ItemCode.emit_failsOnly (small : ∀ block, addresses.getD block 0 < 2 ^ 32) {stop : Nat}
    (before : stop < 2 ^ 32) (address : Nat) {code : ItemCode}
    (placed : ∀ piece ∈ code, piece.LeadsWithin addresses.length) :
    FailsOnly Error.IsRange (code.emit addresses stop address) := by
  induction code generalizing address with
  | nil => exact .of_ok rfl
  | cons piece code ih =>
    obtain ⟨here, placed⟩ := List.forall_mem_cons.1 placed
    refine (Piece.emit_failsOnly small before address here).bind fun _ _ => ?_
    exact (ih (address + piece.size) placed).bind fun _ _ => .of_ok rfl

theorem Code.emitItems_failsOnly (small : ∀ block, addresses.getD block 0 < 2 ^ 32) {address : Nat}
    {items : List ItemCode} (placed : ∀ item ∈ items, ∀ piece ∈ item, piece.LeadsWithin addresses.length)
    (fits : address + (items.map ItemCode.size).sum < 2 ^ 32) :
    FailsOnly Error.IsRange (emitItems addresses address items) := by
  induction items generalizing address with
  | nil => exact .of_ok rfl
  | cons item items ih =>
    rw [List.map_cons, List.sum_cons] at fits
    have stop : address + item.size < 2 ^ 32 := by omega
    obtain ⟨here, placed⟩ := List.forall_mem_cons.1 placed
    refine (ItemCode.emit_failsOnly small stop address here).bind fun _ _ => ?_
    exact (ih placed (by omega)).bind fun _ _ => .of_ok rfl

theorem Code.blockAddresses_le (c : Code) (k : Nat) : c.blockAddresses.getD k 0 ≤ c.size := by
  rcases Nat.lt_or_ge k c.length with inside | outside
  · have split : c.size = ((c.take k).flatten.map ItemCode.size).sum + ((c.drop k).flatten.map ItemCode.size).sum := by
      rw [← List.sum_append, ← List.map_append, ← List.flatten_append, List.take_append_drop]
      rfl
    rw [List.getD_eq_getElem?_getD, getElem?_blockAddresses inside, Option.getD_some]
    omega
  · have short : c.blockAddresses.length ≤ k := by
      rw [blockAddresses, length_addressesFrom, blockSizes, List.length_map]
      exact outside
    rw [List.getD_eq_getElem?_getD, List.getElem?_eq_none short]
    exact Nat.zero_le _

theorem Code.emit_failsOnly {c : Code} (placed : c.IsPlaced) (fits : c.size < 2 ^ 32) :
    FailsOnly Error.IsRange c.emit := by
  have within (item : ItemCode) (inItems : item ∈ c.items) :
      ∀ piece ∈ item, piece.LeadsWithin c.blockAddresses.length := by
    obtain ⟨block, inCode, inBlock⟩ := List.mem_flatten.1 inItems
    rw [length_blockAddresses]
    exact placed block inCode item inBlock
  have small (block : Nat) : c.blockAddresses.getD block 0 < 2 ^ 32 := (c.blockAddresses_le block).trans_lt fits
  have total : 0 + (c.items.map ItemCode.size).sum < 2 ^ 32 := by rwa [Nat.zero_add]
  cases result : emitItems c.blockAddresses 0 c.items with
  | error e =>
    have failed : c.emit = .error e := by
      rw [emit, result]
      rfl
    rw [failed]
    exact .error (emitItems_failsOnly small within total e result)
  | ok bytes => exact .of_ok (emit_eq_ok.2 result)

end Emission

namespace Script

/-- A script that was read from text is assembled, unless something in it is too large for its place or
the layout needs more passes than it is given. -/
theorem assemble_failsOnly {text : String} {s : Script} {limit : Nat} (parsed : parse text = .ok s)
    (positive : 0 < limit) (fits : ∀ l, s.layout limit = .ok l → l.size < 2 ^ 32) :
    ∀ e, s.assemble limit = .error e → ∃ error, e = .encode error ∧
      (error.cause.reason = "OutOfRange" ∨ error.cause.reason = "NoFixedPoint") := by
  have wellFormed := parse_wellFormed parsed
  have range {α : Type} {x : Except Error α} (h : FailsOnly Error.IsRange x) : FailsOnly (fun e => ∃ error,
      e = .encode error ∧ (error.cause.reason = "OutOfRange" ∨ error.cause.reason = "NoFixedPoint")) x :=
    h.mono fun e ⟨error, same, reason⟩ => ⟨error, same, .inl reason⟩
  unfold assemble
  refine (range wellFormed.lower_failsOnly).bind fun c lowered => ?_
  refine FailsOnly.bind ?_ fun (d, passes) settled => ?_
  · refine (c.settle_failsOnly positive).mono fun e ⟨passes, label, site, span, same⟩ => ?_
    exact ⟨_, same, .inr rfl⟩
  · have small : d.size < 2 ^ 32 := fits _ (layout_eq_ok.2 ⟨c, d, passes, lowered, settled, rfl⟩)
    have placed := (wellFormed.lower_placed (lower_eq_ok.1 lowered).1).rewidth (Code.settle_rewidth settled)
    refine (range (Code.emit_failsOnly placed small)).bind fun bytes _ => ?_
    obtain ⟨table, mapped⟩ :=
      wellFormed.exists_entryAddresses (l := .ofCode d passes) (length_blockAddresses lowered settled)
    exact FailsOnly.bind (.of_ok mapped) fun _ _ => .of_ok rfl

def farText : String :=
  ".stage \"a\"\n.startup *go\ngo:\n\tgoto *end.b\n\t.dd 0" ++ String.join (.replicate 63 ",0") ++
    "\nend:\n\treturn\n"

theorem assemble_failsOnly_far : ∃ s e, parse farText = .ok s ∧ 0 < 64 ∧
    (∃ l, s.layout 64 = .ok l) ∧ (∀ l, s.layout 64 = .ok l → l.size < 2 ^ 32) ∧ s.assemble 64 = .error e ∧
    ∃ error, e = .encode error ∧ (error.cause.reason = "OutOfRange" ∨ error.cause.reason = "NoFixedPoint") := by
  have positive : 0 < 64 := by decide
  have computed : ((parse farText).toOption.any fun s =>
      ((s.layout 64).toOption.any fun l => l.size < 2 ^ 32) && !(s.assemble 64).isOk) = true := by decide +kernel
  obtain ⟨s, isScript, holds⟩ := (Option.any_eq_true ..).1 computed
  obtain ⟨laidOut, fails⟩ := Bool.and_eq_true_iff.1 holds
  obtain ⟨l, isLayout, small⟩ := (Option.any_eq_true ..).1 laidOut
  have parsed := toOption_eq_some.1 isScript
  have laid := toOption_eq_some.1 isLayout
  have fits : ∀ l', s.layout 64 = .ok l' → l'.size < 2 ^ 32 := by
    intro l' same
    obtain rfl := Except.ok.inj (laid.symm.trans same)
    exact of_decide_eq_true small
  cases failed : s.assemble 64 with
  | ok a =>
    rw [failed] at fails
    cases fails
  | error e => exact ⟨s, e, parsed, positive, ⟨l, laid⟩, fits, failed, assemble_failsOnly parsed positive fits e failed⟩

end Script

end EventScript
