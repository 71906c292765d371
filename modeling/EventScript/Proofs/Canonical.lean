import EventScript.Proofs.Parts
import EventScript.Proofs.WellFormed

namespace EventScript

def MessageCommand.withoutSpans (command : MessageCommand) : MessageCommand :=
  ⟨command.op, command.args.map (Operand.setSpan none), none⟩

mutual

/-- The operand as it is read back: literals as they are stored, and no spans. -/
def Operand.canonical : Operand → Operand
  | .int value width _ =>
    .ofConstant (Bytes.storedValue value (width.getD (.ofLiteral value)).bytes) (width.getD (.ofLiteral value))
  | .expr op args _ => .expr op (Operand.canonicalAll args) none
  | .message commands _ => .message (commands.map .withoutSpans) none
  | .atom name _ => .atom name none
  | .text bytes _ => .text bytes none
  | .label name width isElse _ => .label name width isElse none
  | .offset value width isElse _ => .offset value width isElse none

def Operand.canonicalAll : List Operand → List Operand
  | [] => []
  | o :: os => o.canonical :: Operand.canonicalAll os

end

namespace Operand

theorem canonicalAll_eq_map (os : List Operand) : canonicalAll os = os.map canonical := by
  induction os with
  | nil => rfl
  | cons o os ih => rw [canonicalAll, ih, List.map_cons]

def IsResolved (o : Operand) : Prop := ∀ leaf ∈ o.walk, leaf.isReference = true →
  ∃ value w isElse span, leaf = .offset value (some w) isElse span

theorem isResolved_arg {op : String} {args : List Operand} {span : Option Span}
    (resolved : (expr op args span).IsResolved) {a : Operand} (isArg : a ∈ args) : a.IsResolved :=
  fun leaf inArg isRef => resolved leaf (mem_walk_of_arg isArg inArg) isRef

theorem isElse_canonical (o : Operand) : o.canonical.isElse = o.isElse := by
  cases o <;> simp [canonical, isElse, ofConstant]

end Operand

def Slot.isStable : Slot → Bool
  | literal v => [Width.byte, .word, .long].all fun w =>
      !Bytes.fits v w.bytes || decide (Bytes.InRange v w.bytes)
  | _ => true

theorem Command.isStable_of_mem {c : Command} (member : c ∈ all) {shape : Shape} (form : shape ∈ c.shapes)
    {slot : Slot} (inForm : slot ∈ shape) : slot.isStable = true := by
  have table : ∀ c ∈ all, ∀ shape ∈ c.shapes, ∀ slot ∈ shape, slot.isStable = true := by
    decide +kernel
  exact table c member shape form slot inForm

theorem Slot.storedValue_literal {v : Int} (stable : (literal v).isStable = true) {width : Option Width}
    (fits : Bytes.fits v (width.getD .long).bytes = true) :
    Bytes.storedValue v (width.getD (.ofLiteral v)).bytes = v := by
  have inRange {w : Width} (fits : Bytes.fits v w.bytes = true) : Bytes.InRange v w.bytes := by
    simp only [isStable, List.all_cons, List.all_nil, Bool.and_true, Bool.and_eq_true, Bool.or_eq_true,
      Bool.not_eq_true', decide_eq_true_eq] at stable
    cases w <;> simp_all
  apply Bytes.signed_pack
  cases width with
  | none => exact Width.inRange_ofLiteral (inRange fits)
  | some w => exact inRange fits

theorem Slot.accepts_canonical {slot : Slot} {o : Operand} (accepted : slot.accepts o = true)
    (literals : ∀ value width span, o = .int value width span → slot = .literal value →
      Bytes.storedValue value (width.getD (.ofLiteral value)).bytes = value) :
    slot.accepts o.canonical = true := by
  cases o
  case int value width span =>
    cases slot <;> simp_all [Slot.accepts, Operand.canonical, Operand.ofConstant, Operand.isExpression,
      Operand.isReference]
  all_goals
    cases slot <;> simp_all [Slot.accepts, Operand.canonical, Operand.isExpression, Operand.isReference,
      Operand.isElse]

namespace Placement

variable {p p' : Placement} {o : Operand} {code : ItemCode} {os : List Operand} {slots : Shape}

theorem lowerInt_eq_ok {value : Int} {width : Option Width} {span : Option Span} :
    p.lowerInt value width span = .ok code ↔ Bytes.fits value (width.getD .long).bytes = true ∧
      code = [.bytes ((width.getD (.ofLiteral value)).constant value)] := by
  unfold lowerInt
  dsimp only
  split
  · rename_i fits
    simp [fits, eq_comm]
  · rename_i unfit
    simp [unfit, fail]

def Restores (p p' : Placement) (o : Operand) : Prop :=
  ∀ code, p.lowerExpr o = .ok code → o.canonical.IsRead ∧ p'.lowerExpr o.canonical = .ok code

theorem lowerPointer_canonical (p' : Placement) (resolved : o.IsResolved)
    (lowered : p.lowerPointer o = .ok code) :
    o.canonical.IsRead ∧ p'.lowerPointer o.canonical = .ok code := by
  have isRef : o.isReference = true := by
    cases o <;> first | rfl | cases lowered
  obtain ⟨value, w, isElse, span, rfl⟩ := resolved o o.mem_walk_self isRef
  obtain ⟨fits, rfl⟩ := lowerPointer_offset.1 lowered
  refine ⟨(Operand.isRead_leaf (by simp [Operand.canonical])).2 ⟨rfl, w, rfl, fits⟩, ?_⟩
  exact lowerPointer_offset.2 ⟨fits, rfl⟩

theorem lowerSlot_canonical {slot : Slot} (accepted : slot.accepts o = true) (resolved : o.IsResolved)
    (stable : slot.isStable = true) (restores : Restores p p' o)
    (lowered : p.lowerSlot slot o (p.lowerExpr o) = .ok code) :
    (slot.accepts o.canonical = true ∧ o.canonical.IsRead) ∧
      p'.lowerSlot slot o.canonical (p'.lowerExpr o.canonical) = .ok code := by
  have accepts : slot.accepts o.canonical = true := by
    refine Slot.accepts_canonical accepted fun value width span isInt isLiteral => ?_
    subst isInt isLiteral
    exact Slot.storedValue_literal stable (lowerInt_eq_ok.1 lowered).1
  rw [and_assoc]
  refine ⟨accepts, ?_⟩
  cases slot with
  | pointer | elsePointer => exact lowerPointer_canonical p' resolved lowered
  | atom a =>
    cases lowered
    cases o <;> simp only [Slot.accepts, Bool.false_eq_true] at accepted
    exact ⟨(Operand.isRead_leaf (by simp [Operand.canonical])).2 rfl, rfl⟩
  | text =>
    cases o <;> simp only [Slot.accepts, Bool.false_eq_true] at accepted
    refine ⟨(Operand.isRead_leaf (by simp [Operand.canonical])).2 rfl, ?_⟩
    simp only [lowerSlot] at lowered
    split at lowered
    · cases lowered
    · rename_i noZero
      simp only [Operand.canonical, lowerSlot, if_neg noZero]
      exact lowered
  | _ => exact restores code lowered

theorem parts_canonical (lowers lowers' : Nat → Slot × Operand → ItemCode → Prop) {index : Nat}
    {parts : List ItemCode} (accepted : List.Forall₂ (fun slot o => slot.accepts o = true) slots os)
    (lowered : List.Forall₂ (fun x part => lowers x.2 x.1 part) ((slots.zip os).zipIdx index) parts)
    (step : ∀ slot ∈ slots, ∀ o ∈ os, ∀ index part, slot.accepts o = true → lowers index (slot, o) part →
      (slot.accepts o.canonical = true ∧ o.canonical.IsRead) ∧ lowers' index (slot, o.canonical) part) :
    List.Forall₂ (fun slot o => slot.accepts o = true ∧ o.IsRead) slots (os.map Operand.canonical) ∧
      List.Forall₂ (fun x part => lowers' x.2 x.1 part)
        ((slots.zip (os.map Operand.canonical)).zipIdx index) parts := by
  induction accepted generalizing index parts with
  | nil =>
    cases lowered
    exact ⟨.nil, .nil⟩
  | cons head _ ih =>
    cases lowered with
    | cons first others =>
      obtain ⟨here, stored⟩ := step _ List.mem_cons_self _ List.mem_cons_self _ _ head first
      obtain ⟨rest, storedRest⟩ := ih others fun slot inSlots o inOs =>
        step slot (List.mem_cons_of_mem _ inSlots) o (List.mem_cons_of_mem _ inOs)
      exact ⟨.cons here rest, .cons stored storedRest⟩

theorem restores_of_proper (proper : o.IsProper) (resolved : o.IsResolved) : Restores p p' o := by
  induction o using Operand.expr_induction with
  | leaf o notExpr =>
    intro code lowered
    cases o with
    | int value width span =>
      obtain ⟨-, rfl⟩ := lowerInt_eq_ok.1 lowered
      have inRange := Bytes.storedValue_inRange value (width.getD (.ofLiteral value)).bytes
      refine ⟨Operand.isRead_ofConstant inRange, ?_⟩
      rw [Operand.canonical, lowerExpr_ofConstant inRange, Width.constant, Width.constant,
        Bytes.pack_storedValue]
    | label | offset =>
      rw [lowerExpr] at lowered
      obtain ⟨address, pointer, rfl⟩ := map_eq_ok.1 lowered
      obtain ⟨isRead, stored⟩ := lowerPointer_canonical p' resolved pointer
      refine ⟨isRead, ?_⟩
      simp only [Operand.canonical] at stored ⊢
      rw [lowerExpr, stored]
      rfl
    | expr op args span => exact absurd rfl (notExpr op args span)
    | atom name span =>
      refine ⟨(Operand.isRead_leaf (by simp [Operand.canonical])).2 rfl, ?_⟩
      exact lowerExpr_atom_eq_ok.2 (lowerExpr_atom_eq_ok.1 lowered)
    | _ => cases lowered
  | expr op args span ih =>
    intro code lowered
    obtain ⟨⟨operator, member, rfl, isProper⟩, argsProper⟩ := Operand.isProper_expr.1 proper
    obtain ⟨slots, form, accepted, parts, stored, rfl⟩ := (lowerExpr_parts member isProper).1 lowered
    have stable : ∀ slot ∈ slots, slot.isStable = true := by
      intro slot inForm
      have argument := Operator.isArgument_of_mem member isProper form inForm
      cases slot <;> first | rfl | cases argument
    rw [mapM_eq_ok, ← List.zipIdx_map_fst 0 (slots.zip args), List.forall₂_map_left_iff] at stored
    obtain ⟨back, stored'⟩ := parts_canonical
      (fun _ x part => p.lowerSlot x.1 x.2 (p.lowerExpr x.2) = .ok part)
      (fun _ x part => p'.lowerSlot x.1 x.2 (p'.lowerExpr x.2) = .ok part) accepted stored
      fun slot inSlots o isArg _ part accepts done =>
        lowerSlot_canonical accepts (Operand.isResolved_arg resolved isArg) (stable slot inSlots)
          (ih o isArg (argsProper o isArg) (Operand.isResolved_arg resolved isArg)) done
    obtain ⟨accepted', isRead⟩ := forall₂_and_right.1 back
    have done : (slots.zip (args.map Operand.canonical)).mapM (fun x =>
        p'.lowerSlot x.1 x.2 (p'.lowerExpr x.2)) = .ok parts := by
      rw [mapM_eq_ok, ← List.zipIdx_map_fst 0 (slots.zip _), List.forall₂_map_left_iff]
      exact stored'
    rw [Operand.canonical, Operand.canonicalAll_eq_map]
    refine ⟨Operand.isRead_expr.2 ⟨⟨rfl, ?_⟩, isRead⟩, ?_⟩
    · rw [Operator.ofName?_eq_some.2 ⟨member, rfl⟩]
      exact isProper
    · exact (lowerExpr_parts member isProper).2 ⟨slots, form, accepted', parts, done, rfl⟩

theorem lowerParts_canonical (p' : Placement) {index : Nat} {parts : List ItemCode}
    (accepted : List.Forall₂ (fun slot o => slot.accepts o = true) slots os)
    (stable : ∀ slot ∈ slots, slot.isStable = true) (proper : ∀ o ∈ os, o.IsProper)
    (resolved : ∀ o ∈ os, o.IsResolved) (lowered : p.lowerParts index slots os = .ok parts) :
    List.Forall₂ (fun slot o => slot.accepts o = true ∧ o.IsRead) slots (os.map Operand.canonical) ∧
      p'.lowerParts index slots (os.map Operand.canonical) = .ok parts := by
  obtain ⟨back, stored⟩ := parts_canonical (fun index x part => p.lowerPart (x, index) = .ok part)
    (fun index x part => p'.lowerPart (x, index) = .ok part) accepted (mapM_eq_ok.1 lowered)
    fun slot inSlots o isOperand _ _ accepts done =>
      lowerSlot_canonical accepts (resolved o isOperand) (stable slot inSlots)
        (restores_of_proper (proper o isOperand) (resolved o isOperand)) done
  exact ⟨back, mapM_eq_ok.2 stored⟩

theorem checkExpression_of_lowerParts {index : Nat} {parts : List ItemCode}
    (back : List.Forall₂ (fun slot o => slot.accepts o = true ∧ o.IsRead) slots os)
    (lowered : p.lowerParts index slots os = .ok parts) : ∀ o ∈ os, o.checkExpression = .ok () := by
  intro o isOperand
  obtain ⟨slot, -, ⟨accepts, isRead⟩, inZip⟩ := exists_zipWith_of_mem back Prod.mk isOperand
  rw [← List.zip, ← List.zipIdx_map_fst index (slots.zip os), List.mem_map] at inZip
  obtain ⟨x, inZip, same⟩ := inZip
  obtain ⟨part, -, done⟩ := exists_right_of_mem (mapM_eq_ok.1 lowered) inZip
  simp only [lowerPart, same] at done
  exact checkExpression_of_lowerSlot accepts isRead done

end Placement

namespace Command

variable {c : Command} {p : Placement} {os first others : List Operand} {slots rest : Shape} {code : ItemCode}

theorem emit_arrange (p' : Placement) {parts tail : List ItemCode} {addresses : List Nat} {stop address : Nat}
    {bs : Bytes} (emitted : (c.arrange p rest parts tail).emit addresses stop address = .ok bs) :
    (c.arrange p' rest parts tail).emit addresses stop address = .ok bs := by
  by_cases sized : c.layout = .sized
  · simp only [arrange, sized] at emitted ⊢
    obtain ⟨b, b', rfl, word, body⟩ := ItemCode.emit_cons.1 emitted
    refine ItemCode.emit_cons.2 ⟨b, b', rfl, ?_, body⟩
    simp only [Piece.emit] at word ⊢
    split at word
    · rename_i small
      rw [if_pos small]
      exact word
    · cases word
  · have same : c.arrange p' rest parts tail = c.arrange p rest parts tail := by
      unfold arrange
      cases kind : c.layout <;> first | rfl | exact absurd kind sized
    rw [same]
    exact emitted

/-- What the operands of a form have to satisfy, beyond being stored, to come back. -/
structure Fills.Survives (fills : c.Fills os slots rest first others) (size : Nat) : Prop where
  proper : ∀ o ∈ os, o.IsProper
  resolved : ∀ o ∈ os, o.IsResolved
  marked : ∀ x ∈ slots.zip first, x.1 = .elsePointer → x.2.isElse = true
  within : ∀ x ∈ slots.zip first, x.1.leadsToCode = true → x.2.Within size
  ends : c.layout = .terminated → ∀ o ∈ others, o.canonical.isTerminator = false
  count : c.layout = .counted → others.length < 2 ^ 31

theorem within_canonical {o : Operand} {size : Nat} (within : o.Within size) : o.canonical.Within size := by
  cases o <;> exact within

theorem admits_canonical (size : Nat)
    (back : List.Forall₂ (fun slot o => slot.accepts o = true ∧ o.IsRead) slots (os.map Operand.canonical))
    (marked : ∀ x ∈ slots.zip os, x.1 = .elsePointer → x.2.isElse = true)
    (within : ∀ x ∈ slots.zip os, x.1.leadsToCode = true → x.2.Within size) :
    List.Forall₂ (Slot.Admits size) slots (os.map Operand.canonical) := by
  rw [List.forall₂_map_right_iff] at back ⊢
  induction back with
  | nil => exact .nil
  | cons head _ ih =>
    rw [List.zip_cons_cons, List.forall_mem_cons] at marked within
    refine .cons ⟨head.1, head.2, fun isElse => ?_, fun leads => ?_⟩ (ih marked.2 within.2)
    · rw [Operand.isElse_canonical]
      exact marked.1 isElse
    · exact within_canonical (within.1 leads)

theorem Fills.canonical (fills : c.Fills os slots rest first others) (member : c ∈ all)
    (noMessage : c.layout ≠ .message) {size : Nat} (survives : fills.Survives size) (p' : Placement)
    (lowered : p.lowerCommand c os = .ok code) :
    c.Splits size (os.map Operand.canonical) slots rest (first.map Operand.canonical)
        (others.map Operand.canonical) ∧ ∃ code', p'.lowerCommand c (os.map Operand.canonical) = .ok code' ∧
      ∀ addresses stop address bs, code.emit addresses stop address = .ok bs →
        code'.emit addresses stop address = .ok bs := by
  obtain ⟨-, -, parts, tail, loweredParts, loweredTail, rfl⟩ := (fills.lowers_iff member noMessage).1 lowered
  have split := fills.split
  have inFirst : ∀ o ∈ first, o ∈ os := fun o here => split ▸ List.mem_append_left _ here
  have inOthers : ∀ o ∈ others, o ∈ os := fun o here => split ▸ List.mem_append_right _ here
  have acceptsTail : List.Forall₂ (fun slot o => slot.accepts o = true) (Placement.tailSlots others) others :=
    List.forall₂_map_left_iff.2 (List.forall₂_same.2 fills.acceptsTail)
  have stable : ∀ slot ∈ slots, slot.isStable = true := fun slot inSlots =>
    isStable_of_mem member fills.form (List.mem_append_left _ inSlots)
  have stableTail : ∀ slot ∈ Placement.tailSlots others, slot.isStable = true := by
    intro slot inTail
    obtain ⟨_, -, rfl⟩ := List.mem_map.1 inTail
    rfl
  obtain ⟨back, stored⟩ := Placement.lowerParts_canonical p' fills.accepts stable
    (fun o here => survives.proper o (inFirst o here)) (fun o here => survives.resolved o (inFirst o here))
    loweredParts
  obtain ⟨backTail, storedTail⟩ := Placement.lowerParts_canonical p' acceptsTail stableTail
    (fun o here => survives.proper o (inOthers o here)) (fun o here => survives.resolved o (inOthers o here))
    loweredTail
  have slotsSame : Placement.tailSlots (others.map Operand.canonical) = Placement.tailSlots others := by
    rw [Placement.tailSlots, List.map_map]
    rfl
  have variadic : ∀ x ∈ (Placement.tailSlots others).zip others, x.1 = .variadic := by
    intro x inZip
    obtain ⟨_, -, same⟩ := List.mem_map.1 (List.of_mem_zip inZip).1
    exact same.symm
  have admitsTail := admits_canonical size backTail (fun x inZip isElse => by simp [variadic x inZip] at isElse)
    (fun x inZip leads => by simp [variadic x inZip, Slot.leadsToCode] at leads)
  have splits : c.Splits size (os.map Operand.canonical) slots rest (first.map Operand.canonical)
      (others.map Operand.canonical) :=
    ⟨by rw [split, List.map_append], fills.form, fills.tail, fills.fixed,
      fun noTail => by rw [fills.closed noTail, List.map_nil],
      admits_canonical size back survives.marked survives.within, slotsSame.symm ▸ admitsTail,
      fun counted => by rw [List.length_map]; exact survives.count counted⟩
  refine ⟨splits, _, (splits.fills.lowers_iff member noMessage).2 ⟨?_, fun terminated o here => ?_, parts, tail,
    stored, slotsSame.symm ▸ storedTail, rfl⟩, fun _ _ _ _ => emit_arrange p'⟩
  · exact fun o here => (List.mem_append.1 here).elim
      (Placement.checkExpression_of_lowerParts back stored o)
      (Placement.checkExpression_of_lowerParts backTail storedTail o)
  · obtain ⟨o, inOthers, rfl⟩ := List.mem_map.1 here
    exact survives.ends terminated o inOthers

theorem Fills.shapeOf_canonical (fills : c.Fills os slots rest first others) (member : c ∈ all)
    (noMessage : c.layout ≠ .message) {size : Nat} (survives : fills.Survives size)
    (lowered : p.lowerCommand c os = .ok code) :
    c.shapeOf (os.map Operand.canonical) = .ok (slots ++ rest) := by
  obtain ⟨splits, code', lowered', -⟩ := fills.canonical member noMessage survives p lowered
  obtain ⟨shape, chosen⟩ := exists_shapeOf noMessage lowered'
  rw [chosen, ((splits.fills.shapeOf_iff member).1 chosen).1]

end Command

namespace MessageCommand

theorem acceptsField_setSpan (slot : Slot) (o : Operand) (span : Option Span) :
    slot.acceptsField (o.setSpan span) = slot.acceptsField o := by
  cases o <;> cases slot <;> rfl

theorem tidy_withoutSpans {commands : List MessageCommand} (normal : Normal commands) :
    Tidy (commands.map withoutSpans) where
  each command member := by
    obtain ⟨command, inBody, rfl⟩ := List.mem_map.1 member
    have isNormal := normal.each command inBody
    refine ⟨rfl, ?_⟩
    unfold IsNormal at isNormal
    change if command.isText then _ else _
    split at isNormal
    · rename_i isText
      obtain ⟨bytes, span, args, nonempty, -⟩ := isNormal
      rw [if_pos isText]
      exact ⟨bytes, by simp [withoutSpans, args, Operand.setSpan], nonempty⟩
    · rename_i notText
      obtain ⟨-, -, -, -, arguments⟩ := isNormal
      rw [if_neg notText]
      intro _ inArgs
      obtain ⟨a, isArg, rfl⟩ := List.mem_map.1 inArgs
      obtain ⟨isArgument, unforced⟩ := arguments a isArg
      cases a with
      | int value width span =>
        cases width with
        | none => exact ⟨rfl, rfl⟩
        | some w => simp [dropWidth] at unforced
      | text => rfl
      | _ => exact isArgument.elim
  apart := by
    rw [List.isChain_map]
    exact normal.apart

end MessageCommand

namespace Placement

variable {p : Placement}

theorem lowerMessageArg_withoutSpan (p' : Placement) {slot : Slot} {o : Operand} {bs : Bytes}
    (lowered : p.lowerMessageArg slot o = .ok bs) : p'.lowerMessageArg slot (o.setSpan none) = .ok bs := by
  cases slot <;> cases o <;> try exact lowered
  exact lowerField_eq_ok.2 (lowerField_eq_ok.1 lowered)

theorem lowerMessageCommand_withoutSpans (p' : Placement) {command : MessageCommand}
    (isNormal : command.IsNormal) {bs : Bytes} (lowered : p.lowerMessageCommand command = .ok bs) :
    p'.lowerMessageCommand command.withoutSpans = .ok bs := by
  obtain ⟨op, args, span⟩ := command
  unfold MessageCommand.IsNormal at isNormal
  split at isNormal
  · rename_i isText
    obtain ⟨bytes, textSpan, same, -, allText⟩ := isNormal
    cases same
    have isText' : (op == MessageOp.textName) = true := isText
    simp only [lowerMessageCommand, isText', if_true, allText] at lowered
    simpa [lowerMessageCommand, MessageCommand.withoutSpans, isText', allText, Operand.setSpan] using lowered
  · obtain ⟨m, member, same, -⟩ := isNormal
    cases same
    obtain ⟨slots, form, accepted, body, rfl, stored⟩ := (lowerMessageCommand_eq_ok member).1 lowered
    refine (lowerMessageCommand_eq_ok member).2 ⟨slots, form, List.forall₂_map_right_iff.2
      (accepted.imp fun slot o accepts => by rwa [MessageCommand.acceptsField_setSpan]), body, rfl, ?_⟩
    rw [storesAll_iff_fields accepted.length_eq] at stored
    obtain ⟨fields, mapped, rfl⟩ := stored
    refine (storesAll_iff_fields (by simpa using accepted.length_eq)).2 ⟨fields, ?_, rfl⟩
    rw [mapM_eq_ok] at mapped ⊢
    rw [List.zip_map_right, List.forall₂_map_left_iff]
    exact mapped.imp fun _ _ => lowerMessageArg_withoutSpan p'

theorem lowerMessage_withoutSpans (p' : Placement) {commands : List MessageCommand}
    (normal : MessageCommand.Normal commands) {span : Option Span} {code : ItemCode}
    (lowered : p.lowerMessage commands span = .ok code) :
    p'.lowerMessage (commands.map .withoutSpans) none = .ok code := by
  obtain ⟨bs, ⟨parts, mapped, rfl⟩, small, rfl⟩ := lowerMessage_eq_ok.1 lowered
  refine lowerMessage_eq_ok.2 ⟨_, ⟨parts, ?_, rfl⟩, small, rfl⟩
  rw [mapM_eq_ok] at mapped ⊢
  rw [List.forall₂_map_left_iff]
  have each := (List.forall₂_and_left commands parts).2 ⟨normal.each, mapped⟩
  exact each.imp fun _ _ h => lowerMessageCommand_withoutSpans p' h.1 h.2

end Placement

namespace Instruction

/-- The instruction as it is read back. -/
def canonical (i : Instruction) : Instruction := ⟨i.opcode, i.operands.map Operand.canonical, none⟩

/-- What the instruction has to satisfy, beyond being stored, to come back from a buffer of `size`
bytes. -/
def Survives (size : Nat) (i : Instruction) : Prop :=
  ∀ c ∈ Command.all, c.name = i.opcode →
    (c.layout = .message → ∃ commands span, i.operands = [.message commands span] ∧
      MessageCommand.Normal commands) ∧
    (c.layout ≠ .message → ∀ slots rest first others,
      (fills : c.Fills i.operands slots rest first others) → fills.Survives size)

/-- An instruction comes back from the bytes that it is stored in. -/
theorem Survives.canonical {size : Nat} {i : Instruction} (survives : i.Survives size)
    {labels : LabelTable} {code : ItemCode} (lowered : i.lower labels = .ok code) :
    i.canonical.Readable size ∧ ∃ code', i.canonical.lower {} = .ok code' ∧
      ∀ addresses stop address bs, code.emit addresses stop address = .ok bs →
        code'.emit addresses stop address = .ok bs := by
  obtain ⟨c, member, name, body, stored, rfl⟩ := Instruction.lower_eq_ok.1 lowered
  obtain ⟨message, others⟩ := survives c member name
  have assembled (body' : ItemCode) (readable : c.Readable size (i.operands.map Operand.canonical))
      (stored' : Placement.lowerCommand ⟨{}, ⟨i.opcode, 0⟩, none⟩ c (i.operands.map Operand.canonical) =
        .ok body') (emits : ∀ addresses stop address bs, body.emit addresses stop address = .ok bs →
        body'.emit addresses stop address = .ok bs) : i.canonical.Readable size ∧ ∃ code',
      i.canonical.lower {} = .ok code' ∧ ∀ addresses stop address bs,
        ItemCode.emit addresses stop address (.bytes [c.code] :: body) = .ok bs →
          code'.emit addresses stop address = .ok bs := by
    refine ⟨⟨rfl, c, member, name, readable⟩, _,
      Instruction.lower_eq_ok.2 ⟨c, member, name, body', stored', rfl⟩, fun addresses stop address bs emitted => ?_⟩
    obtain ⟨b, b', rfl, first, rest⟩ := ItemCode.emit_cons.1 emitted
    exact ItemCode.emit_cons.2 ⟨b, b', rfl, first, emits _ _ _ _ rest⟩
  by_cases kind : c.layout = .message
  · obtain ⟨commands, span, same, normal⟩ := message kind
    rw [same] at stored
    simp only [Placement.lowerCommand, kind] at stored
    refine assembled body ?_ ?_ fun _ _ _ _ emitted => emitted
    · simp only [Command.Readable, kind, same]
      exact ⟨_, rfl, MessageCommand.tidy_withoutSpans normal⟩
    · simp only [Placement.lowerCommand, kind, same]
      exact Placement.lowerMessage_withoutSpans _ normal stored
  · obtain ⟨shape, chosen⟩ := Command.exists_shapeOf kind stored
    obtain ⟨slots, rest, first, tail, -, fills⟩ := Command.exists_fills member chosen
    obtain ⟨splits, body', stored', emits⟩ :=
      fills.canonical member kind (others kind _ _ _ _ fills) ⟨{}, ⟨i.opcode, 0⟩, none⟩ stored
    exact assembled body' ((Command.readable_iff kind).2 ⟨_, _, _, _, splits⟩) stored' emits

end Instruction

end EventScript
