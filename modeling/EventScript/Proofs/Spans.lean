import EventScript.Proofs.Canonical

namespace EventScript

mutual

/-- The operand with no spans. -/
def Operand.withoutSpans : Operand → Operand
  | .int value width _ => .int value width none
  | .atom name _ => .atom name none
  | .text bytes _ => .text bytes none
  | .label name width isElse _ => .label name width isElse none
  | .offset value width isElse _ => .offset value width isElse none
  | .expr op args _ => .expr op (Operand.allWithoutSpans args) none
  | .message commands _ => .message (commands.map .withoutSpans) none

def Operand.allWithoutSpans : List Operand → List Operand
  | [] => []
  | o :: os => o.withoutSpans :: Operand.allWithoutSpans os

end

def Item.withoutSpans : Item → Item
  | instruction i => instruction ⟨i.opcode, i.operands.map Operand.withoutSpans, none⟩
  | data d => data ⟨d.width, d.values.map Operand.withoutSpans, none⟩

def Block.withoutSpans (b : Block) : Block := ⟨b.label, b.items.map Item.withoutSpans⟩

namespace Operand

theorem allWithoutSpans_eq_map (os : List Operand) : allWithoutSpans os = os.map withoutSpans := by
  induction os with
  | nil => rfl
  | cons o os ih => rw [allWithoutSpans, ih, List.map_cons]

@[simp] theorem isInt_withoutSpans (o : Operand) : o.withoutSpans.isInt = o.isInt := by
  cases o <;> simp [withoutSpans, isInt]

@[simp] theorem isReference_withoutSpans (o : Operand) : o.withoutSpans.isReference = o.isReference := by
  cases o <;> simp [withoutSpans, isReference]

@[simp] theorem isTerminator_withoutSpans (o : Operand) : o.withoutSpans.isTerminator = o.isTerminator := by
  cases o with
  | expr op args span =>
    rw [withoutSpans, allWithoutSpans_eq_map]
    cases args with
    | nil => rfl
    | cons a args =>
      cases args with
      | nil => cases a <;> simp [withoutSpans, isTerminator]
      | cons => simp [isTerminator]
  | _ => simp [withoutSpans, isTerminator]

theorem markElse_withoutSpans (o : Operand) : o.markElse.withoutSpans = o.withoutSpans.markElse := by
  cases o <;> simp [withoutSpans, markElse]

theorem markElse_of_isElse {o : Operand} (isElse : o.isElse = true) : o.markElse = o := by
  cases o with
  | label | offset =>
    obtain rfl := isElse
    rfl
  | _ => cases isElse

theorem reference?_withoutSpans (o : Operand) : o.withoutSpans.reference?.map Prod.fst = o.reference?.map Prod.fst := by
  cases o <;> simp [withoutSpans, reference?]

theorem walk_withoutSpans (o : Operand) : o.withoutSpans.walk = o.walk.map withoutSpans := by
  induction o using expr_induction with
  | leaf o notExpr =>
    cases o with
    | expr op args span => exact absurd rfl (notExpr op args span)
    | _ => simp [withoutSpans, walk]
  | expr op args span ih =>
    rw [withoutSpans, walk, walk, List.map_cons, withoutSpans, walkAll_eq_flatMap, walkAll_eq_flatMap,
      allWithoutSpans_eq_map, List.flatMap_map, List.map_flatMap]
    congr 1
    exact List.flatMap_congr ih

theorem labels_withoutSpans (os : List Operand) :
    (walkAll (os.map withoutSpans)).filterMap (fun o => o.reference?.map Prod.fst) =
      (walkAll os).filterMap fun o => o.reference?.map Prod.fst := by
  rw [walkAll_eq_flatMap, walkAll_eq_flatMap, List.flatMap_map, List.filterMap_flatMap, List.filterMap_flatMap]
  refine List.flatMap_congr fun o _ => ?_
  rw [walk_withoutSpans, List.filterMap_map]
  exact List.filterMap_congr fun leaf _ => reference?_withoutSpans leaf

end Operand

theorem Slot.accepts_withoutSpans (slot : Slot) (o : Operand) : slot.accepts o.withoutSpans = slot.accepts o := by
  cases slot <;> cases o <;>
    simp [accepts, Operand.withoutSpans, Operand.isExpression, Operand.isReference, Operand.isElse]

namespace Shape

variable {check : Slot → Operand → Bool} {change : Operand → Operand}

theorem narrow_map (same : ∀ slot o, check slot (change o) = check slot o) (name : String) (live : List Shape)
    (index : Nat) (os : List Operand) :
    narrow check name live index (os.map change) = narrow check name live index os := by
  induction os generalizing live index with
  | nil => rfl
  | cons o os ih => simp only [List.map_cons, narrow, same, ih]

theorem choose_map (same : ∀ slot o, check slot (change o) = check slot o) (name : String) (shapes : List Shape)
    (os : List Operand) : choose check name shapes (os.map change) = choose check name shapes os := by
  simp only [choose, narrow_map same, List.length_map]

end Shape

theorem Operand.checkExpression_withoutSpans (o : Operand) : o.withoutSpans.checkExpression = o.checkExpression := by
  have all {os : List Operand} (each : ∀ o ∈ os, o.withoutSpans.checkExpression = o.checkExpression) :
      checkExpressions (os.map withoutSpans) = checkExpressions os := by
    induction os with
    | nil => rfl
    | cons o os ih =>
      obtain ⟨here, others⟩ := List.forall_mem_cons.1 each
      rw [List.map_cons, checkExpressions, checkExpressions, here, ih others]
  induction o using expr_induction with
  | leaf o notExpr =>
    cases o with
    | expr op args span => exact absurd rfl (notExpr op args span)
    | _ => simp [withoutSpans, checkExpression]
  | expr op args span ih =>
    rw [withoutSpans, checkExpression, checkExpression, allWithoutSpans_eq_map, all ih]
    simp only [Shape.choose_map Slot.accepts_withoutSpans]

namespace Command

theorem checkOperands_withoutSpans (index : Nat) (os : List Operand) :
    checkOperands index (os.map Operand.withoutSpans) = checkOperands index os := by
  induction os generalizing index with
  | nil => rfl
  | cons o os ih => simp only [List.map_cons, checkOperands, Operand.checkExpression_withoutSpans, ih]

theorem shapeOf_withoutSpans (c : Command) (os : List Operand) :
    c.shapeOf (os.map Operand.withoutSpans) = c.shapeOf os := by
  simp only [shapeOf, Shape.choose_map Slot.accepts_withoutSpans, checkOperands_withoutSpans]

end Command

theorem Operand.toTexts_eq_map (os : List Operand) : toTexts os = os.map toText := by
  induction os with
  | nil => rfl
  | cons o os ih => rw [toTexts, ih, List.map_cons]

theorem Operand.toText_setSpan (o : Operand) (span : Option Span) : (o.setSpan span).toText = o.toText := by
  cases o <;> simp [setSpan, toText]

namespace MessageCommand

theorem toTexts_eq_map (commands : List MessageCommand) : toTexts commands = commands.map toText := by
  induction commands with
  | nil => rfl
  | cons command commands ih => rw [toTexts, ih, List.map_cons]

theorem toText_withoutSpans (command : MessageCommand) : command.withoutSpans.toText = command.toText := by
  obtain ⟨op, args, span⟩ := command
  have number (o : Operand) : (o.setSpan none).number? = o.number? := by
    cases o <;> simp [Operand.setSpan, Operand.number?]
  have texts : Operand.toTexts (args.map (Operand.setSpan none)) = Operand.toTexts args := by
    simp only [Operand.toTexts_eq_map, List.map_map, Function.comp_def, Operand.toText_setSpan]
  have first : (args.map (Operand.setSpan none)).head?.bind Operand.number? = args.head?.bind Operand.number? := by
    cases args with
    | nil => rfl
    | cons a args => exact number a
  simp only [withoutSpans, toText, texts, first, List.isEmpty_map]

end MessageCommand

theorem Operand.toText_withoutSpans (o : Operand) : o.withoutSpans.toText = o.toText := by
  induction o using expr_induction with
  | leaf o notExpr =>
    cases o with
    | expr op args span => exact absurd rfl (notExpr op args span)
    | message commands span =>
      simp only [withoutSpans, toText, MessageCommand.toTexts_eq_map, List.map_map, Function.comp_def,
        MessageCommand.toText_withoutSpans]
    | _ => simp [withoutSpans, toText]
  | expr op args span ih =>
    have texts : toTexts (args.map withoutSpans) = toTexts args := by
      simp only [toTexts_eq_map, List.map_map, Function.comp_def]
      exact List.map_congr_left ih
    simp only [withoutSpans, toText, allWithoutSpans_eq_map, texts, List.isEmpty_map]

def Operand.areSilent : List Operand → Bool
  | [] | [.message [] _] => true
  | _ => false

theorem Operand.areSilent_withoutSpans (os : List Operand) : areSilent (os.map withoutSpans) = areSilent os := by
  cases os with
  | nil => rfl
  | cons o os =>
    cases os with
    | nil =>
      cases o with
      | message commands span => cases commands <;> simp [withoutSpans, areSilent]
      | _ => simp [withoutSpans, areSilent]
    | cons => simp [areSilent]

namespace Item

theorem toText_instruction (i : Instruction) : (instruction i).toText = if Operand.areSilent i.operands then
    "\t" ++ i.opcode else "\t" ++ i.opcode ++ "\t" ++ ", ".intercalate (Operand.toTexts i.operands) := by
  obtain ⟨opcode, operands, span⟩ := i
  unfold toText
  dsimp only
  split
  · rfl
  · rfl
  · rename_i notNone notEmpty
    rw [Operand.areSilent.eq_3 _ notNone notEmpty]
    rfl

theorem toText_withoutSpans (item : Item) : item.withoutSpans.toText = item.toText := by
  have texts (os : List Operand) : Operand.toTexts (os.map Operand.withoutSpans) = Operand.toTexts os := by
    simp only [Operand.toTexts_eq_map, List.map_map, Function.comp_def, Operand.toText_withoutSpans]
  cases item with
  | instruction i =>
    rw [withoutSpans, toText_instruction, toText_instruction, texts, Operand.areSilent_withoutSpans]
  | data d => simp only [withoutSpans, toText, texts]

end Item

namespace Block

theorem fallsThrough_withoutSpans (b : Block) : b.withoutSpans.fallsThrough = b.fallsThrough := by
  unfold fallsThrough
  rw [withoutSpans, List.getLast?_map]
  cases b.items.getLast? with
  | none => rfl
  | some item => cases item <;> rfl

theorem lines_withoutSpans (previous : Option Block) (b : Block) :
    lines (previous.map withoutSpans) b.withoutSpans = lines previous b := by
  have synthetic : b.withoutSpans.isSynthetic = b.isSynthetic := rfl
  have texts : b.withoutSpans.items.map Item.toText = b.items.map Item.toText := by
    simp only [withoutSpans, List.map_map, Function.comp_def, Item.toText_withoutSpans]
  have falls : (previous.map withoutSpans).all (fun p => !p.fallsThrough) = previous.all fun p => !p.fallsThrough := by
    cases previous <;> simp [fallsThrough_withoutSpans]
  have label : b.withoutSpans.label = b.label := rfl
  simp only [lines, synthetic, texts, falls, label, Option.isNone_map]

end Block

namespace Script

theorem blockLines_withoutSpans (previous : Option Block) (blocks : List Block) :
    blockLines (previous.map Block.withoutSpans) (blocks.map Block.withoutSpans) = blockLines previous blocks := by
  induction blocks generalizing previous with
  | nil => rfl
  | cons b blocks ih =>
    have next := ih (some b)
    rw [Option.map_some] at next
    rw [List.map_cons, blockLines, blockLines, Block.lines_withoutSpans, next]

theorem toText_congr {s s' : Script} (target : s'.target.line = s.target.line)
    (entries : s'.entryPoints = s.entryPoints)
    (blocks : s'.blocks.map Block.withoutSpans = s.blocks.map Block.withoutSpans) : s'.toText = s.toText := by
  have lines : blockLines none s'.blocks = blockLines none s.blocks := by
    rw [← blockLines_withoutSpans none s'.blocks, blocks, blockLines_withoutSpans none s.blocks]
  simp only [toText, Script.lines, target, entries, lines]

end Script

end EventScript
