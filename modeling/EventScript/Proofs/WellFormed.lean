import EventScript.Proofs.Building
import EventScript.Proofs.Spelling
import EventScript.Source.Printer

namespace EventScript

namespace MessageCommand

/-- A command of a checked message body: text of at least one byte, or a command whose arguments fit
one of its forms and have no width of their own. -/
def IsNormal (command : MessageCommand) : Prop :=
  if command.isText then
    ∃ bytes span, command.args = [.text bytes span] ∧ bytes ≠ [] ∧ bytes.all MessageOp.isTextByte = true
  else ∃ m ∈ MessageOp.all, m.name = command.op ∧
    (∃ shape ∈ m.shapes, List.Forall₂ (fun slot o => slot.acceptsField o = true) shape command.args) ∧
      ∀ a ∈ command.args, a.IsArgument ∧ dropWidth a = a

/-- A checked message body: no run of text follows another. -/
structure Normal (commands : List MessageCommand) : Prop where
  each : ∀ command ∈ commands, command.IsNormal
  apart : commands.IsChain fun a b => a.isText = false ∨ b.isText = false

theorem Normal.append {commands : List MessageCommand} {command : MessageCommand}
    (normal : Normal commands) (isNormal : command.IsNormal)
    (next : ∀ last ∈ commands.getLast?, last.isText = false ∨ command.isText = false) :
    Normal (commands ++ [command]) where
  each c member := by
    rcases List.mem_append.1 member with before | here
    · exact normal.each c before
    · exact List.mem_singleton.1 here ▸ isNormal
  apart := List.isChain_append.2 ⟨normal.apart, .singleton _, fun last isLast c isFirst => by
    cases isFirst
    exact next last isLast⟩

theorem Normal.dropLast {commands : List MessageCommand} (normal : Normal commands) :
    Normal commands.dropLast :=
  ⟨fun c member => normal.each c (List.dropLast_sublist _ |>.mem member), normal.apart.dropLast⟩

theorem isNormal_text {bytes : Bytes} {span commandSpan : Option Span} :
    IsNormal ⟨MessageOp.textName, [.text bytes span], commandSpan⟩ ↔
      bytes ≠ [] ∧ bytes.all MessageOp.isTextByte = true := by
  rw [IsNormal, isText, if_pos (by simp)]
  constructor
  · rintro ⟨_, _, same, nonempty, isText⟩
    cases same
    exact ⟨nonempty, isText⟩
  · rintro ⟨nonempty, isText⟩
    exact ⟨bytes, span, rfl, nonempty, isText⟩

theorem Normal.addText {done : List MessageCommand} (normal : Normal done) {bytes : Bytes}
    (nonempty : bytes ≠ []) (isText : bytes.all MessageOp.isTextByte = true)
    (span commandSpan : Option Span) : Normal (addText done bytes span commandSpan) := by
  have start (next : ∀ last ∈ done.getLast?, last.isText = false) :
      Normal (done ++ [⟨MessageOp.textName, [.text bytes span], commandSpan⟩]) :=
    normal.append (isNormal_text.2 ⟨nonempty, isText⟩) fun last isLast => .inl (next last isLast)
  unfold MessageCommand.addText
  dsimp only
  split
  · rename_i op before s cs last
    have isLast := normal.each _ (List.mem_of_getLast? last)
    split
    · rename_i named
      obtain rfl : op = MessageOp.textName := by simpa using named
      obtain ⟨-, isText'⟩ := isNormal_text.1 isLast
      refine normal.dropLast.append (isNormal_text.2 ⟨by simp [nonempty], by simp [isText, isText']⟩) ?_
      intro command isPrevious
      have split : done = done.dropLast ++ [⟨MessageOp.textName, [.text before s], cs⟩] :=
        (List.dropLast_append_getLast? _ last).symm
      have chain := normal.apart
      rw [split] at chain
      have between := (List.isChain_append.1 chain).2.2 command isPrevious _ rfl
      exact .inl (between.resolve_right (by simp [MessageCommand.isText]))
    · rename_i named
      refine start fun command isLast' => ?_
      cases last.symm.trans isLast'
      simpa [MessageCommand.isText] using named
  · rename_i notText
    refine start fun command isLast => ?_
    by_contra text
    have isNormal := normal.each _ (List.mem_of_getLast? isLast)
    rw [IsNormal, if_pos (by simpa using text)] at isNormal
    obtain ⟨bytes', span', args, -⟩ := isNormal
    obtain ⟨op, _, cs⟩ := command
    cases args
    exact notText op bytes' span' cs isLast

theorem acceptsField_dropWidth {slot : Slot} {o : Operand} (accepts : slot.acceptsField o = true) :
    slot.acceptsField (dropWidth o) = true := by
  cases o
  case int => cases slot <;> simp_all [Slot.acceptsField, dropWidth]
  all_goals exact accepts

theorem normalize_normal {opcode : String} {index : Nat} {done commands out : List MessageCommand}
    (normal : Normal done) (spelled : ∀ c ∈ commands, c.Spelled)
    (normalized : normalize opcode index done commands = .ok out) : Normal out := by
  induction commands generalizing index done with
  | nil =>
    cases normalized
    exact normal
  | cons command commands ih =>
    obtain ⟨here, others⟩ := List.forall_mem_cons.1 spelled
    unfold normalize at normalized
    rcases ite_eq_ok.1 normalized with ⟨text, normalized⟩ | ⟨notText, normalized⟩
    · rw [Spelled, isText, if_pos text] at here
      obtain ⟨bytes, span, args⟩ := here
      rw [args] at normalized
      rcases ite_eq_ok.1 normalized with ⟨-, normalized⟩ | ⟨nonempty, normalized⟩
      · exact ih normal others normalized
      · split at normalized
        · cases normalized
        · rename_i allText
          refine ih (normal.addText (by simpa using nonempty) ?_ _ _) others normalized
          simpa using allText
    · rw [Spelled, isText, if_neg notText] at here
      obtain ⟨⟨m, member, named⟩, arguments⟩ := here
      rw [MessageOp.ofName?_eq_some.2 ⟨member, named⟩] at normalized
      dsimp only [Option.map_some, Option.getD_some] at normalized
      split at normalized
      · cases normalized
      · rename_i shape chosen
        have notText' : isText command = false := by simpa [isText] using notText
        obtain ⟨form, accepted⟩ := (MessageOp.choose_eq_ok member).1 chosen
        have isNormal : IsNormal { command with args := command.args.map dropWidth } := by
          rw [IsNormal, if_neg (by simpa [isText] using notText)]
          refine ⟨m, member, named, ⟨shape, form, List.forall₂_map_right_iff.2
            (accepted.imp fun _ _ => acceptsField_dropWidth)⟩, fun a isArg => ?_⟩
          obtain ⟨a', isArg', rfl⟩ := List.mem_map.1 isArg
          have spelled := arguments a' isArg'
          cases a' <;> exact ⟨spelled, rfl⟩
        exact ih (normal.append isNormal fun _ _ => .inr notText') others normalized

end MessageCommand

namespace Command

/-- The operands that a command has in a script: a message body, or a list that fits a form, with the
references in else slots marked. -/
def Takes (c : Command) (os : List Operand) : Prop :=
  match c.layout with
  | .message => ∃ commands span, os = [.message commands span] ∧ MessageCommand.Normal commands
  | layout => ∃ shape, c.shapeOf os = .ok shape ∧ (∀ o ∈ os, o.IsSpelled) ∧
      (∀ index o, os[index]? = some o → shape.slotAt index = some .elsePointer → o.isElse = true) ∧
        (layout = .terminated → ∀ o ∈ os.drop 1, o.isTerminator = false)

theorem takes_iff {c : Command} {os : List Operand} (noMessage : c.layout ≠ .message) :
    c.Takes os ↔ ∃ shape, c.shapeOf os = .ok shape ∧ (∀ o ∈ os, o.IsSpelled) ∧
      (∀ index o, os[index]? = some o → shape.slotAt index = some .elsePointer → o.isElse = true) ∧
        (c.layout = .terminated → ∀ o ∈ os.drop 1, o.isTerminator = false) := by
  unfold Takes
  cases kind : c.layout <;> first | exact Iff.rfl | exact absurd kind noMessage

theorem takesMessage_iff {c : Command} (member : c ∈ all) :
    takesMessage c.name = true ↔ c.layout = .message := by
  simp [takesMessage, ofName?_eq_some.2 ⟨member, rfl⟩]

end Command

namespace Operand

theorem markElse_cases (o : Operand) :
    (o.isReference = true ∧ o.markElse.isReference = true ∧ o.markElse.isElse = true ∧
      (o.markElse.IsSpelled ↔ o.IsSpelled)) ∨ o.isReference = false ∧ o.markElse = o := by
  cases o
  case label => exact .inl ⟨rfl, rfl, rfl, by simp [IsSpelled, markElse, walk, Spelled]⟩
  case offset => exact .inl ⟨rfl, rfl, rfl, by simp [IsSpelled, markElse, walk, Spelled]⟩
  all_goals exact .inr ⟨rfl, rfl⟩

theorem checkExpression_reference {o : Operand} (isRef : o.isReference = true) :
    o.checkExpression = .ok () := by
  cases o <;> first | rfl | cases isRef

/-- A checked expression has an operator that takes its arguments, each of which is checked. -/
theorem checkExpression_expr {op : String} {args : List Operand} {span : Option Span}
    (checked : (expr op args span).checkExpression = .ok ()) :
    ∃ o ∈ Operator.all, o.name = op ∧ (∃ shape, o.shapeOf args = .ok shape) ∧
      ∀ a ∈ args, a.checkExpression = .ok () := by
  rw [checkExpression] at checked
  cases found : Operator.ofName? op with
  | none =>
    rw [found] at checked
    cases checked
  | some o =>
    obtain ⟨member, rfl⟩ := Operator.ofName?_eq_some.1 found
    rw [found] at checked
    dsimp only at checked
    cases chosen : Shape.choose Slot.accepts o.name o.shapes args with
    | error e =>
      rw [chosen] at checked
      cases checked
    | ok shape =>
      rw [chosen] at checked
      exact ⟨o, member, rfl, ⟨shape, chosen⟩, Placement.checkExpressions_eq_ok.1 checked⟩

/-- The label that a reference names, and where. -/
def reference? : Operand → Option (String × Option Span)
  | label name _ _ span => some (name, span)
  | _ => none

end Operand

theorem Data.check_eq_ok {width : Width} {index : Nat} {os : List Operand} :
    Data.check width index os = .ok () ↔ ∀ o ∈ os, Data.takes width o = true := by
  induction os generalizing index with
  | nil => simp [Data.check]
  | cons o os ih =>
    rw [Data.check, ite_eq_ok, ih, List.forall_mem_cons]
    simp [invalidOperand]

theorem Data.walkAll_of_takes {width : Width} {values : List Operand}
    (takes : ∀ v ∈ values, Data.takes width v = true) : Operand.walkAll values = values := by
  rw [Operand.walkAll_eq_flatMap]
  refine (List.flatMap_congr fun v member => ?_).trans (List.flatMap_singleton' values)
  have taken := takes v member
  cases v <;> first | rfl | cases taken

namespace Script

def markElses (shape : Shape) (os : List Operand) : List Operand :=
  os.mapIdx fun index o => if shape.slotAt index == some .elsePointer then o.markElse else o

theorem shapeOf_markElses {c : Command} (member : c ∈ Command.all) {os : List Operand} {shape : Shape}
    (chosen : c.shapeOf os = .ok shape) : c.shapeOf (markElses shape os) = .ok shape := by
  obtain ⟨form, ⟨enough, each⟩, checked⟩ := (Command.shapeOf_eq_ok member).1 chosen
  refine (Command.shapeOf_eq_ok member).2 ⟨form, ⟨by simpa [markElses] using enough, fun i bound => ?_⟩, ?_⟩
  · have inside : i < os.length := by simpa [markElses] using bound
    have here := each i inside
    simp only [markElses, List.getElem_mapIdx]
    split
    · rename_i isElse
      rw [beq_iff_eq] at isElse
      rw [isElse, Option.any_some] at here ⊢
      rcases os[i].markElse_cases with ⟨-, still, -⟩ | ⟨-, same⟩
      · exact still
      · rwa [same]
    · exact here
  · intro o inMarked
    obtain ⟨i, inside, rfl⟩ := List.mem_mapIdx.1 inMarked
    have here := checked _ (List.getElem_mem inside)
    split
    · rcases os[i].markElse_cases with ⟨-, still, -⟩ | ⟨-, same⟩
      · exact Operand.checkExpression_reference still
      · rwa [same]
    · exact here

theorem takes_commandOperands {c : Command} (member : c ∈ Command.all) {os os' : List Operand} {span : Span}
    (spelled : SourceItem.Operands c.name os) (checked : commandOperands c os span = .ok os')
    (terminators : c.layout = .terminated → ∀ o ∈ os'.drop 1, o.isTerminator = false) : c.Takes os' := by
  unfold commandOperands at checked
  unfold SourceItem.Operands at spelled
  rcases ite_eq_ok.1 checked with ⟨message, checked⟩ | ⟨noMessage, checked⟩
  · have kind : c.layout = .message := by simpa using message
    rw [if_pos ((Command.takesMessage_iff member).2 kind)] at spelled
    obtain ⟨commands, span', rfl, spelled⟩ := spelled
    obtain ⟨out, normalized, done⟩ := bind_eq_ok.1 checked
    cases done
    simp only [Command.Takes, kind]
    exact ⟨out, span', rfl, MessageCommand.normalize_normal ⟨by simp, .nil⟩ spelled normalized⟩
  · have kind : c.layout ≠ .message := by simpa using noMessage
    rw [if_neg (by simpa [Command.takesMessage_iff member] using kind)] at spelled
    split at checked
    · cases checked
    · rename_i shape chosen
      cases checked
      refine (Command.takes_iff kind).2 ⟨shape, shapeOf_markElses member chosen, fun o inMarked => ?_,
        fun index o here isElse => ?_, terminators⟩
      · obtain ⟨i, inside, rfl⟩ := List.mem_mapIdx.1 inMarked
        have here := spelled _ (List.getElem_mem inside)
        split
        · rcases os[i].markElse_cases with ⟨-, -, -, same⟩ | ⟨-, same⟩
          · exact same.2 here
          · rwa [same]
        · exact here
      · rw [List.getElem?_mapIdx, Option.map_eq_some_iff] at here
        obtain ⟨o', here, rfl⟩ := here
        rw [if_pos (by simpa using isElse)]
        obtain ⟨-, ⟨-, each⟩, -⟩ := (Command.shapeOf_eq_ok member).1 chosen
        obtain ⟨inside, rfl⟩ := List.getElem?_eq_some_iff.1 here
        have accepted := each index inside
        rw [isElse, Option.any_some] at accepted
        rcases os[index].markElse_cases with ⟨-, -, marked, -⟩ | ⟨notRef, -⟩
        · exact marked
        · simp [Slot.accepts, notRef] at accepted

theorem checkTerminators_eq_ok {opcode : String} {index : Nat} {os : List Operand} :
    checkTerminators opcode index os = .ok () ↔ ∀ o ∈ os, o.isTerminator = false := by
  induction os generalizing index with
  | nil => simp [checkTerminators]
  | cons o os ih =>
    rw [checkTerminators, ite_eq_ok, ih, List.forall_mem_cons]
    simp [invalidOperand]

theorem addReferences_eq (s : Script) (os : List Operand) :
    s.addReferences os = { s with labels := { s.labels with
      references := s.labels.references ++ os.filterMap Operand.reference? } } := by
  unfold addReferences
  induction os generalizing s with
  | nil => simp
  | cons o os ih =>
    rw [List.foldl_cons, ih]
    cases o <;> simp [List.filterMap_cons, Operand.reference?, addReference, LabelTable.reference]

theorem addSourceItem_eq_ok {s s' : Script} {item : Item} :
    s.addSourceItem item = .ok s' ↔
      (s.blocks = [] ∧ s.labels.get? "$0" = none ∧ s' = { s with
        labels := { s.labels with bindings := s.labels.bindings ++ [("$0", ⟨0, 0⟩)] }
        blocks := [⟨"$0", [item]⟩] }) ∨
      ∃ front last, s.blocks = front ++ [last] ∧
        s' = { s with blocks := front ++ [{ last with items := last.items ++ [item] }] } := by
  rcases List.eq_nil_or_concat s.blocks with empty | ⟨front, last, split⟩
  · have step : s.addSourceItem item = ((s.addBlock "$0").mapError .ofResolution >>= fun s₁ =>
        pure (s₁.addItem (s₁.blocks.length - 1) item)) := by
      unfold addSourceItem
      rw [if_pos (by simp [empty]), empty]
      rfl
    rw [step, bind_eq_ok]
    simp only [mapError_eq_ok, addBlock_eq_ok, pure_eq_ok, empty, true_and]
    constructor
    · rintro ⟨_, ⟨fresh, rfl⟩, rfl⟩
      exact .inl ⟨fresh, rfl⟩
    · rintro (⟨fresh, rfl⟩ | ⟨front, last, split, -⟩)
      · exact ⟨_, ⟨fresh, rfl⟩, rfl⟩
      · simp at split
  · rw [List.concat_eq_append] at split
    have step : s.addSourceItem item = pure (s.addItem (s.blocks.length - 1) item) := by
      unfold addSourceItem
      rw [if_neg (by simp [split])]
      rfl
    rw [step, pure_eq_ok, addItem_last item split]
    constructor
    · rintro rfl
      exact .inr ⟨front, last, split, rfl⟩
    · rintro (⟨empty, -⟩ | ⟨front', last', split', rfl⟩)
      · simp [empty] at split
      · obtain ⟨rfl, same⟩ := List.append_inj' (split.symm.trans split') rfl
        cases same
        rfl

theorem addStatement_eq_ok {s s' : Script} {opcode : String} {os : List Operand} {span : Span} :
    s.addStatement opcode os span = .ok s' ↔ ∃ c ∈ Command.all, c.name = opcode ∧ ∃ os',
      commandOperands c os span = .ok os' ∧
        (c.layout = .terminated → ∀ o ∈ os'.drop 1, o.isTerminator = false) ∧
          (s.addReferences (Operand.walkAll os')).addSourceItem (.instruction ⟨opcode, os', some span⟩) = .ok s' := by
  have finish {c : Command} {os' : List Operand} : (do
      if c.layout == .terminated then checkTerminators opcode 1 (os'.drop 1)
      (s.addReferences (Operand.walkAll os')).addSourceItem (.instruction ⟨opcode, os', some span⟩) :
        Except Error Script) = .ok s' ↔
      (c.layout = .terminated → ∀ o ∈ os'.drop 1, o.isTerminator = false) ∧
        (s.addReferences (Operand.walkAll os')).addSourceItem (.instruction ⟨opcode, os', some span⟩) = .ok s' := by
    by_cases kind : c.layout = .terminated
    · simp only [kind, beq_self_eq_true, if_true, true_implies, bind_eq_ok]
      exact ⟨fun ⟨_, checked, added⟩ => ⟨checkTerminators_eq_ok.1 checked, added⟩,
        fun ⟨allowed, added⟩ => ⟨(), checkTerminators_eq_ok.2 allowed, added⟩⟩
    · simp [kind]
  unfold addStatement
  cases found : Command.ofName? opcode with
  | none =>
    refine iff_of_false (fun h => by cases h) ?_
    rintro ⟨c, member, named, -⟩
    rw [Command.ofName?_eq_some.2 ⟨member, named⟩] at found
    cases found
  | some c =>
    dsimp only
    rw [bind_eq_ok]
    constructor
    · rintro ⟨os', checked, added⟩
      obtain ⟨member, named⟩ := Command.ofName?_eq_some.1 found
      exact ⟨c, member, named, os', checked, finish.1 added⟩
    · rintro ⟨c', member, named, os', checked, added⟩
      rw [Command.ofName?_eq_some.2 ⟨member, named⟩, Option.some.injEq] at found
      subst found
      exact ⟨os', checked, finish.2 added⟩

theorem addData_eq_ok {s s' : Script} {width : Width} {values : List Operand} {span : Span} :
    s.addData width values span = .ok s' ↔ values ≠ [] ∧ (∀ v ∈ values, Data.takes width v = true) ∧
      (s.addReferences values).addSourceItem (.data ⟨width, values, some span⟩) = .ok s' := by
  unfold addData
  cases values with
  | nil =>
    refine iff_of_false (fun h => ?_) (by simp)
    cases h
  | cons v values =>
    simp only [List.isEmpty_cons, Bool.false_eq_true, if_false, bind_eq_ok, ne_eq, reduceCtorEq,
      not_false_eq_true, true_and]
    constructor
    · rintro ⟨_, checked, added⟩
      exact ⟨Data.check_eq_ok.1 checked, added⟩
    · rintro ⟨takes, added⟩
      exact ⟨(), Data.check_eq_ok.2 takes, added⟩

/-- The directive declares the entry point, whose code is at the label. -/
inductive Declares : String → List Operand → EntryPoint → String → Option Span → Prop
  | event (e : StageEvent) (label : String) (span : Option Span) :
    Declares e.name [.label label none false span] (.event e) label span
  | interact (key : Int) (width : Option Width) (keySpan : Option Span) (label : String) (span : Option Span) :
    Declares EntryPoint.interactRole [.int key width keySpan, .label label none false span] (.interact key)
      label span
  | library (key : Int) (width : Option Width) (keySpan : Option Span) (label : String) (span : Option Span) :
    Declares EntryPoint.libraryRole [.int key width keySpan, .label label none false span] (.library key)
      label span

end Script

namespace EntrySlot

theorem check_nil {name : String} {span : Span} {index : Nat} {os : List Operand} :
    check name span [] index os = .ok () ↔ os = [] := by
  cases os <;> simp [check, invalidOperand]

theorem check_label {name : String} {span : Span} {slots : List EntrySlot} {index : Nat} {os : List Operand} :
    check name span (.label :: slots) index os = .ok () ↔ ∃ label labelSpan rest,
      os = .label label none false labelSpan :: rest ∧ check name span slots (index + 1) rest = .ok () := by
  cases os with
  | nil => simp [check, invalidOperand]
  | cons o os =>
    cases o
    case label label width isElse labelSpan => cases width <;> cases isElse <;> simp [check, invalidOperand]
    all_goals simp [check, invalidOperand]

theorem check_integer {name : String} {span : Span} {slots : List EntrySlot} {index : Nat} {os : List Operand} :
    check name span (.integer :: slots) index os = .ok () ↔ ∃ value width valueSpan rest,
      os = .int value width valueSpan :: rest ∧ check name span slots (index + 1) rest = .ok () := by
  cases os with
  | nil => simp [check, invalidOperand]
  | cons o os => cases o <;> simp [check, invalidOperand]

end EntrySlot

namespace Script

theorem addDirective_eq_ok {s s' : Script} {name : String} {os : List Operand} {span : Span}
    (added : s.addDirective name os span = .ok s') :
    (∃ entry label labelSpan, Declares name os entry label labelSpan ∧
      (s.addReference label labelSpan).addEntry entry label span = .ok s') ∨
    ∃ width, Width.ofDirective? name = some width ∧ s.addData width os span = .ok s' := by
  have entered {entry : EntryPoint} {label : String} {labelSpan : Option Span}
      (added : s.addEntryAt entry (some (.label label none false labelSpan)) span = .ok s') :
      (s.addReference label labelSpan).addEntry entry label span = .ok s' := by
    have lifted : s.addEntryAt entry (some (.label label none false labelSpan)) span =
        ((s.addReference label labelSpan).addEntry entry label span).mapError .ofResolution := rfl
    rwa [lifted, mapError_eq_ok] at added
  unfold addDirective at added
  rcases ite_eq_ok.1 added with ⟨-, added⟩ | ⟨-, added⟩
  · cases added
  split at added
  · rename_i event found
    obtain ⟨_, checked, added⟩ := bind_eq_ok.1 added
    obtain ⟨label, labelSpan, rest, rfl, checked⟩ := EntrySlot.check_label.1 checked
    obtain rfl := EntrySlot.check_nil.1 checked
    have named : event.name = name := by simpa using List.find?_some found
    exact .inl ⟨_, label, labelSpan, named ▸ .event event label labelSpan, entered added⟩
  rcases ite_eq_ok.1 added with ⟨role, added⟩ | ⟨-, added⟩
  · obtain ⟨_, checked, added⟩ := bind_eq_ok.1 added
    obtain ⟨key, width, keySpan, rest, rfl, checked⟩ := EntrySlot.check_integer.1 checked
    obtain ⟨label, labelSpan, rest, rfl, checked⟩ := EntrySlot.check_label.1 checked
    obtain rfl := EntrySlot.check_nil.1 checked
    refine .inl ⟨_, label, labelSpan, ?_, entered added⟩
    simp only [Bool.or_eq_true, beq_iff_eq] at role
    rcases role with rfl | rfl
    · exact .interact key width keySpan label labelSpan
    · exact .library key width keySpan label labelSpan
  · split at added
    · rename_i width found
      exact .inr ⟨width, found, added⟩
    · cases added

end Script

def Lexeme.IsLabel (name : String) : Prop := IsName name ∧ name ≠ "else"

namespace Item

def labelNames (item : Item) : List String :=
  (Operand.walkAll item.operands).filterMap fun o => o.reference?.map Prod.fst

def WellFormed : Item → Prop
  | instruction i => ∃ c ∈ Command.all, c.name = i.opcode ∧ c.Takes i.operands
  | data d => d.values ≠ [] ∧ ∀ v ∈ d.values, Data.takes d.width v = true ∧ v.IsSpelled

end Item

namespace Script

def usedLabels (s : Script) : List String := s.items.flatMap Item.labelNames ++ s.entries.map Prod.snd

/-- Blocks, items and entry points that source text can hold. Only a first block may lack a name. -/
structure Built (s : Script) : Prop where
  bindings : s.labels.bindings = s.blocks.mapIdx fun k b => (b.label, ⟨k, 0⟩)
  distinct : (s.blocks.map (·.label)).Nodup
  named : ∀ k b, s.blocks[k]? = some b → Lexeme.IsLabel b.label ∨ k = 0 ∧ b.label = "$0" ∧ b.items ≠ []
  items : ∀ item ∈ s.items, item.WellFormed
  keys : ∀ e ∈ s.entries, ∀ key, e.1.key = some key → Lexeme.InRange key
  entryLabels : ∀ e ∈ s.entries, Lexeme.IsName e.2
  scope : ∀ e ∈ s.entries, e.1.isStageEvent = !s.target.isGlobals
  entries : (s.entries.map Prod.fst).Nodup

/-- A script that source text can hold. -/
structure WellFormed (s : Script) : Prop extends Built s where
  declared : ∀ name ∈ s.usedLabels, ∃ b ∈ s.blocks, b.label = name

namespace Built

variable {s : Script}

theorem get?_eq_none (built : s.Built) {name : String} :
    s.labels.get? name = none ↔ ∀ b ∈ s.blocks, b.label ≠ name :=
  get?_eq_none_of_bindings built.bindings

theorem congr (built : s.Built) {labels : LabelTable} (same : labels.bindings = s.labels.bindings) :
    Built { s with labels } :=
  ⟨same.trans built.bindings, built.distinct, built.named, built.items, built.keys, built.entryLabels,
    built.scope, built.entries⟩

theorem addBlock (built : s.Built) {name : String} (isLabel : Lexeme.IsLabel name)
    (fresh : s.labels.get? name = none) : Built { s with
      labels := { s.labels with bindings := s.labels.bindings ++ [(name, ⟨s.blocks.length, 0⟩)] }
      blocks := s.blocks ++ [⟨name, []⟩] } where
  bindings := by simp [built.bindings]
  distinct := by
    rw [List.map_append, List.nodup_append]
    refine ⟨built.distinct, by simp, ?_⟩
    simp only [List.map_cons, List.map_nil, List.mem_map, List.mem_singleton]
    rintro _ ⟨b, member, rfl⟩ _ rfl
    exact built.get?_eq_none.1 fresh b member
  named := by
    intro k b found
    rcases Nat.lt_or_ge k s.blocks.length with before | after
    · rw [List.getElem?_append_left before] at found
      exact built.named k b found
    · rw [List.getElem?_append_right after] at found
      obtain ⟨bound, rfl⟩ := List.getElem?_eq_some_iff.1 found
      exact .inl (by simpa using isLabel)
  items := by simpa [Script.items] using built.items
  keys := built.keys
  entryLabels := built.entryLabels
  scope := built.scope
  entries := built.entries

theorem addSourceItem (built : s.Built) {item : Item} (wellFormed : item.WellFormed) {s' : Script}
    (added : s.addSourceItem item = .ok s') : s'.Built ∧ s'.items = s.items ++ [item] ∧
      s'.entries = s.entries ∧ s'.labels.references = s.labels.references := by
  rcases addSourceItem_eq_ok.1 added with ⟨empty, -, rfl⟩ | ⟨front, last, split, rfl⟩
  · have noItems : s.items = [] := by simp [Script.items, empty]
    refine ⟨⟨by simp [built.bindings, empty], by simp, fun k b found => ?_, by simpa [Script.items] using wellFormed,
      built.keys, built.entryLabels, built.scope, built.entries⟩, by simp [Script.items, empty], rfl, rfl⟩
    obtain ⟨bound, rfl⟩ := List.getElem?_eq_some_iff.1 found
    have first : k = 0 := by simpa using bound
    subst first
    exact .inr ⟨rfl, rfl, by simp⟩
  · have items : s.items = front.flatMap (·.items) ++ last.items := by simp [Script.items, split]
    refine ⟨⟨?_, ?_, fun k b found => ?_, ?_, built.keys, built.entryLabels, built.scope, built.entries⟩, ?_, rfl, rfl⟩
    · have bindings := built.bindings
      simp only [split, List.mapIdx_append] at bindings ⊢
      simpa using bindings
    · have distinct := built.distinct
      simp only [split, List.map_append] at distinct ⊢
      simpa using distinct
    · rcases Nat.lt_or_ge k front.length with before | after
      · rw [List.getElem?_append_left before] at found
        exact built.named k b (by rw [split, List.getElem?_append_left before, found])
      · rw [List.getElem?_append_right after] at found
        obtain ⟨bound, rfl⟩ := List.getElem?_eq_some_iff.1 found
        have only : k - front.length = 0 := by simpa using bound
        have named := built.named k last (by rw [split, List.getElem?_append_right after, only]; rfl)
        simp only [only, List.getElem_cons_zero]
        exact named.imp_right fun synthetic => ⟨synthetic.1, synthetic.2.1, by simp⟩
    · intro i member
      simp only [Script.items, List.flatMap_append, List.flatMap_singleton, List.mem_append,
        List.mem_singleton] at member
      rcases member with inFront | inLast | rfl
      · exact built.items i (by rw [items]; exact List.mem_append_left _ inFront)
      · exact built.items i (by rw [items]; exact List.mem_append_right _ inLast)
      · exact wellFormed
    · simp [Script.items, split]

theorem addEntry (built : s.Built) {entry : EntryPoint} {label : String}
    (inRange : ∀ key, entry.key = some key → Lexeme.InRange key) (isName : Lexeme.IsName label)
    {span : Option Span} {s' : Script} (added : s.addEntry entry label span = .ok s') :
    s'.Built ∧ s' = { s with entries := s.entries ++ [(entry, label)] } := by
  obtain ⟨fresh, scope, rfl⟩ := addEntry_eq_ok.1 added
  refine ⟨⟨built.bindings, built.distinct, built.named, built.items, ?_, ?_, ?_, ?_⟩, rfl⟩
  · exact List.forall_mem_append.2 ⟨built.keys, by simpa using inRange⟩
  · exact List.forall_mem_append.2 ⟨built.entryLabels, by simpa using isName⟩
  · exact List.forall_mem_append.2 ⟨built.scope, by simpa using scope⟩
  · rw [List.map_append, List.nodup_append]
    exact ⟨built.entries, by simp, by simpa using fresh⟩

end Built

/-- While a script is built, every label that is used has been recorded. -/
structure Growing (s : Script) : Prop extends Built s where
  recorded : ∀ name ∈ s.usedLabels, ∃ r ∈ s.labels.references, r.1 = name

namespace Growing

variable {s s' : Script}

theorem addItem (growing : s.Growing) {item : Item} (wellFormed : item.WellFormed) {os : List Operand}
    (labels : ∀ name ∈ item.labelNames, ∃ r ∈ os.filterMap Operand.reference?, r.1 = name)
    (added : (s.addReferences os).addSourceItem item = .ok s') : s'.Growing := by
  have before : (s.addReferences os).Built := by
    rw [addReferences_eq]
    exact growing.toBuilt.congr rfl
  obtain ⟨built, items, entries, references⟩ := before.addSourceItem wellFormed added
  refine ⟨built, fun name used => ?_⟩
  simp only [usedLabels, items, entries, List.flatMap_append, List.mem_append] at used
  rw [references]
  rw [addReferences_eq] at used ⊢
  rcases used with (before | new) | entry
  · obtain ⟨r, recorded, same⟩ := growing.recorded name (List.mem_append_left _ before)
    exact ⟨r, List.mem_append_left _ recorded, same⟩
  · obtain ⟨r, recorded, same⟩ := labels name (by simpa using new)
    exact ⟨r, List.mem_append_right _ recorded, same⟩
  · obtain ⟨r, recorded, same⟩ := growing.recorded name (List.mem_append_right _ entry)
    exact ⟨r, List.mem_append_left _ recorded, same⟩

theorem addStatement (growing : s.Growing) {opcode : String} {os : List Operand} {span : Span}
    (spelled : SourceItem.Operands opcode os) (added : s.addStatement opcode os span = .ok s') : s'.Growing := by
  obtain ⟨c, member, rfl, os', checked, terminators, added⟩ := addStatement_eq_ok.1 added
  have wellFormed : (Item.instruction ⟨c.name, os', some span⟩).WellFormed :=
    ⟨c, member, rfl, takes_commandOperands member spelled checked terminators⟩
  refine growing.addItem wellFormed (fun name used => ?_) added
  obtain ⟨o, inOperands, named⟩ := List.mem_filterMap.1 used
  obtain ⟨r, isReference, rfl⟩ := Option.map_eq_some_iff.1 named
  exact ⟨r, List.mem_filterMap.2 ⟨o, inOperands, isReference⟩, rfl⟩

theorem addData (growing : s.Growing) {width : Width} {values : List Operand} {span : Span}
    (spelled : ∀ v ∈ values, v.IsSpelled) (added : s.addData width values span = .ok s') : s'.Growing := by
  obtain ⟨nonempty, takes, added⟩ := addData_eq_ok.1 added
  have wellFormed : (Item.data ⟨width, values, some span⟩).WellFormed :=
    ⟨nonempty, fun v member => ⟨takes v member, spelled v member⟩⟩
  refine growing.addItem wellFormed (fun name used => ?_) added
  simp only [Item.labelNames, Item.operands, Data.walkAll_of_takes takes] at used
  obtain ⟨o, inValues, named⟩ := List.mem_filterMap.1 used
  obtain ⟨r, isReference, rfl⟩ := Option.map_eq_some_iff.1 named
  exact ⟨r, List.mem_filterMap.2 ⟨o, inValues, isReference⟩, rfl⟩

theorem addDirective (growing : s.Growing) {name : String} {os : List Operand} {span : Span}
    (spelled : ∀ o ∈ os, o.IsSpelled) (added : s.addDirective name os span = .ok s') : s'.Growing := by
  rcases addDirective_eq_ok added with ⟨entry, label, labelSpan, declares, added⟩ | ⟨width, -, added⟩
  · have node {o : Operand} (member : o ∈ os) : o.Spelled := spelled o member o (Operand.mem_walk_self o)
    have spelledLabel : Lexeme.IsName label := by
      have member : .label label none false labelSpan ∈ os := by cases declares <;> simp
      exact node member
    have inRange : ∀ key, entry.key = some key → Lexeme.InRange key := by
      intro key isKey
      have member : ∃ width span, .int key width span ∈ os := by
        cases declares <;> cases isKey <;> exact ⟨_, _, List.mem_cons_self⟩
      obtain ⟨_, _, member⟩ := member
      exact node member
    have before : (s.addReference label labelSpan).Built := growing.toBuilt.congr rfl
    obtain ⟨built, rfl⟩ := before.addEntry inRange spelledLabel added
    refine ⟨built, fun used member => ?_⟩
    simp only [usedLabels, addReference, List.map_append, List.map_singleton, ← List.append_assoc] at member
    rcases List.mem_append.1 member with before | here
    · obtain ⟨r, recorded, same⟩ := growing.recorded used before
      exact ⟨r, List.mem_append_left _ recorded, same⟩
    · exact ⟨(label, labelSpan), List.mem_append_right _ (List.mem_singleton.2 rfl), (List.mem_singleton.1 here).symm⟩
  · exact growing.addData spelled added

theorem addSource (growing : s.Growing) {item : SourceItem} (valid : item.Valid)
    (added : s.addSource item = .ok s') : s'.Growing := by
  cases item with
  | label name span =>
    have lifted : s.addSource (.label name span) = (s.addBlock name span).mapError .ofResolution := rfl
    rw [lifted, mapError_eq_ok] at added
    obtain ⟨fresh, rfl⟩ := addBlock_eq_ok.1 added
    refine ⟨growing.toBuilt.addBlock valid fresh, ?_⟩
    simpa [usedLabels, Script.items] using growing.recorded
  | directive name os span => exact growing.addDirective valid added
  | statement opcode os span => exact growing.addStatement valid added

theorem foldlM (growing : s.Growing) {items : List SourceItem} (valid : ∀ item ∈ items, item.Valid)
    (added : items.foldlM Script.addSource s = .ok s') : s'.Growing := by
  induction items generalizing s with
  | nil =>
    cases added
    exact growing
  | cons item items ih =>
    rw [List.foldlM_cons] at added
    obtain ⟨s₁, step, rest⟩ := bind_eq_ok.1 added
    obtain ⟨here, others⟩ := List.forall_mem_cons.1 valid
    exact ih (growing.addSource here step) others rest

end Growing

/-- What is read from text is well formed. -/
theorem parse_wellFormed {text : String} {s : Script} (parsed : parse text = .ok s) : s.WellFormed := by
  obtain ⟨items, read, built⟩ := bind_eq_ok.1 parsed
  have valid := SourceItem.parse_valid read
  unfold ofItems at built
  split at built
  · rename_i name os span rest
    rcases ite_eq_ok.1 built with ⟨-, built⟩ | ⟨-, built⟩
    · cases built
    obtain ⟨target, -, built⟩ := bind_eq_ok.1 built
    obtain ⟨s₁, folded, built⟩ := bind_eq_ok.1 built
    obtain ⟨_, resolved, built⟩ := bind_eq_ok.1 built
    cases built
    have built : Built ⟨target, [], [], {}⟩ :=
      ⟨rfl, by simp, by simp, by simp [Script.items], by simp, by simp, by simp, by simp⟩
    have empty : Growing ⟨target, [], [], {}⟩ := ⟨built, by simp [usedLabels, Script.items]⟩
    have growing := empty.foldlM (List.forall_mem_cons.1 valid).2 folded
    refine ⟨growing.toBuilt, fun used member => ?_⟩
    obtain ⟨r, recorded, rfl⟩ := growing.recorded used member
    obtain ⟨binding, found⟩ := LabelTable.resolveAll_eq_ok.1 (mapError_eq_ok.1 resolved) r recorded
    exact exists_block_of_bindings growing.bindings found
  · cases built
  · cases built

end Script

end EventScript
