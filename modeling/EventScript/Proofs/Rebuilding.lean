import EventScript.Proofs.Printing

namespace EventScript

theorem exists_append_of_forall₂ {α β : Type} {R : α → β → Prop} {as as' : List α} {bs : List β}
    (related : List.Forall₂ R (as ++ as') bs) :
    ∃ first later, bs = first ++ later ∧ List.Forall₂ R as first ∧ List.Forall₂ R as' later := by
  induction as generalizing bs with
  | nil => exact ⟨[], bs, rfl, .nil, related⟩
  | cons a as ih =>
    cases related with
    | cons here others =>
      obtain ⟨first, later, rfl, before, after⟩ := ih others
      exact ⟨_ :: first, later, rfl, .cons here before, after⟩

namespace MessageCommand

variable {command command' : MessageCommand} {commands commands' : List MessageCommand}

theorem isNormal_of_withoutSpans (same : command'.withoutSpans = command.withoutSpans) (normal : command.IsNormal) :
    command'.IsNormal := by
  obtain ⟨op, args, span⟩ := command
  obtain ⟨op', args', span'⟩ := command'
  simp only [withoutSpans, MessageCommand.mk.injEq, and_true] at same
  obtain ⟨rfl, same⟩ := same
  unfold IsNormal MessageCommand.isText at normal ⊢
  split at normal
  · rename_i text
    obtain ⟨bytes, argSpan, rfl, nonempty, isText⟩ := normal
    obtain ⟨a, rfl, here⟩ := List.map_eq_singleton_iff.1 same
    obtain ⟨s, rfl⟩ : ∃ s, a = .text bytes s := by
      cases a <;> simp_all [Operand.setSpan]
    rw [if_pos text]
    exact ⟨bytes, s, rfl, nonempty, isText⟩
  · rename_i notText
    obtain ⟨m, member, rfl, ⟨shape, form, accepted⟩, arguments⟩ := normal
    have fits (args : List Operand) : List.Forall₂ (fun slot o => slot.acceptsField o = true) shape args ↔
        List.Forall₂ (fun slot o => slot.acceptsField o = true) shape (args.map (Operand.setSpan none)) := by
      rw [List.forall₂_map_right_iff]
      simp only [acceptsField_setSpan]
    have argument (a : Operand) : a.IsArgument ∧ dropWidth a = a ↔
        (a.setSpan none).IsArgument ∧ dropWidth (a.setSpan none) = a.setSpan none := by
      cases a <;> simp [Operand.setSpan, Operand.IsArgument, dropWidth]
    rw [if_neg notText]
    refine ⟨m, member, rfl, ⟨shape, form, ?_⟩, fun a' isArg => ?_⟩
    · exact (fits args').2 (same ▸ (fits args).1 accepted)
    · have inMap : a'.setSpan none ∈ args.map (Operand.setSpan none) := same ▸ List.mem_map_of_mem isArg
      obtain ⟨a, isArg', sameArg⟩ := List.mem_map.1 inMap
      exact (argument a').2 (sameArg ▸ (argument a).1 (arguments a isArg'))

theorem Normal.of_withoutSpans (same : commands'.map withoutSpans = commands.map withoutSpans)
    (normal : Normal commands) : Normal commands' where
  each command' member := by
    have inMap : command'.withoutSpans ∈ commands.map withoutSpans := same ▸ List.mem_map_of_mem member
    obtain ⟨command, inBody, sameCommand⟩ := List.mem_map.1 inMap
    exact isNormal_of_withoutSpans sameCommand.symm (normal.each command inBody)
  apart := by
    have chain (commands : List MessageCommand) :
        commands.IsChain (fun a b => a.isText = false ∨ b.isText = false) ↔
          (commands.map withoutSpans).IsChain fun a b => a.isText = false ∨ b.isText = false := by
      rw [List.isChain_map]
      rfl
    exact (chain commands').2 (same ▸ (chain commands).1 normal.apart)

theorem addText_of_apart {done : List MessageCommand} {bytes : Bytes} {span commandSpan : Option Span}
    (apart : ∀ last ∈ done.getLast?, last.isText = false) :
    addText done bytes span commandSpan = done ++ [⟨MessageOp.textName, [.text bytes span], commandSpan⟩] := by
  unfold addText
  dsimp only
  split
  · rename_i op before s cs last
    have notText : (op == MessageOp.textName) = false := apart _ last
    rw [if_neg (by simp [notText])]
  · rfl

theorem normalize_of_normal {opcode : String} {index : Nat} {done : List MessageCommand}
    (normal : Normal (done ++ commands)) : normalize opcode index done commands = .ok (done ++ commands) := by
  induction commands generalizing index done with
  | nil => rw [normalize, List.append_nil]
  | cons command commands ih =>
    have isNormal := normal.each command (by simp)
    have next := @ih (index + 1) (done ++ [command]) (by simpa using normal)
    rw [List.append_assoc, List.singleton_append] at next
    obtain ⟨op, args, span⟩ := command
    unfold IsNormal MessageCommand.isText at isNormal
    split at isNormal
    · rename_i text
      obtain ⟨bytes, argSpan, rfl, nonempty, isText⟩ := isNormal
      obtain rfl : op = MessageOp.textName := by simpa using text
      have noCommand : bytes.find? (fun b => !MessageOp.isTextByte b) = none := by simpa using isText
      have added : addText done bytes argSpan span = done ++ [⟨MessageOp.textName, [.text bytes argSpan], span⟩] := by
        refine addText_of_apart fun last isLast => ?_
        have apart := (List.isChain_append.1 normal.apart).2.2 last isLast _ rfl
        exact apart.resolve_right (by simp [MessageCommand.isText])
      rw [normalize, if_pos text]
      dsimp only
      rw [if_neg (by simpa using nonempty), noCommand]
      dsimp only
      rw [added, next]
    · rename_i notText
      obtain ⟨m, member, rfl, fits, arguments⟩ := isNormal
      obtain ⟨shape, form, accepted⟩ := fits
      have kept : args.map dropWidth = args :=
        (List.map_congr_left fun a isArg => (arguments a isArg).2).trans (List.map_id _)
      have chosen : Shape.choose Slot.acceptsField m.name m.shapes args = .ok shape :=
        (MessageOp.choose_eq_ok member).2 ⟨form, accepted⟩
      rw [normalize, if_neg notText, MessageOp.ofName?_eq_some.2 ⟨member, rfl⟩]
      dsimp only [Option.map_some, Option.getD_some]
      rw [chosen]
      dsimp only
      rw [kept, next]

end MessageCommand

theorem Lexeme.IsLabel.not_isSynthetic {name : String} (isLabel : IsLabel name) (items : List Item) :
    Block.isSynthetic ⟨name, items⟩ = false := by
  obtain ⟨c, cs, split, start⟩ := isLabel.1.exists_cons
  have notDollar : c ≠ '$' := by
    rintro rfl
    cases start
  simp [Block.isSynthetic, split, notDollar]

theorem Data.takes_withoutSpans (width : Width) (v : Operand) :
    Data.takes width v.withoutSpans = Data.takes width v := by
  cases v <;> simp [Data.takes, Operand.withoutSpans]

namespace Script

theorem markElses_withoutSpans (shape : Shape) (os : List Operand) :
    (markElses shape os).map Operand.withoutSpans = markElses shape (os.map Operand.withoutSpans) := by
  apply List.ext_getElem
  · simp [markElses]
  · intro i _ _
    simp only [markElses, List.getElem_map, List.getElem_mapIdx]
    split
    · exact Operand.markElse_withoutSpans _
    · rfl

theorem markElses_of_isElse {shape : Shape} {os : List Operand}
    (marked : ∀ index o, os[index]? = some o → shape.slotAt index = some .elsePointer → o.isElse = true) :
    markElses shape os = os := by
  apply List.ext_getElem
  · simp [markElses]
  · intro i _ bound
    simp only [markElses, List.getElem_mapIdx]
    split
    · rename_i isElse
      exact Operand.markElse_of_isElse (marked i _ (List.getElem?_eq_getElem bound) (by simpa using isElse))
    · rfl

theorem commandOperands_of_takes {c : Command} {os os' : List Operand} (takes : c.Takes os)
    (same : os'.map Operand.withoutSpans = os.map Operand.withoutSpans) (span : Span) :
    ∃ kept, commandOperands c os' span = .ok kept ∧
      kept.map Operand.withoutSpans = os.map Operand.withoutSpans := by
  by_cases message : c.layout = .message
  · simp only [Command.Takes, message] at takes
    obtain ⟨commands, messageSpan, rfl, normal⟩ := takes
    obtain ⟨o, rfl, here⟩ := List.map_eq_singleton_iff.1 same
    obtain ⟨commands', s, rfl, sameBody⟩ : ∃ commands' s, o = .message commands' s ∧
        commands'.map MessageCommand.withoutSpans = commands.map MessageCommand.withoutSpans := by
      cases o <;> simp_all [Operand.withoutSpans]
    have body : MessageCommand.normalize c.name 0 [] commands' = .ok commands' :=
      MessageCommand.normalize_of_normal (normal.of_withoutSpans sameBody)
    refine ⟨[.message commands' s], ?_, same⟩
    unfold commandOperands
    rw [if_pos (by simp [message])]
    change (MessageCommand.normalize c.name 0 [] commands' >>= _) = _
    rw [body]
    rfl
  · obtain ⟨shape, chosen, -, marked, -⟩ := (Command.takes_iff message).1 takes
    have chosen' : c.shapeOf os' = .ok shape := by
      rw [← Command.shapeOf_withoutSpans, same, Command.shapeOf_withoutSpans, chosen]
    refine ⟨markElses shape os', ?_, ?_⟩
    · unfold commandOperands
      rw [if_neg (by simpa using message), chosen']
      rfl
    · rw [markElses_withoutSpans, same, ← markElses_withoutSpans, markElses_of_isElse marked]

theorem terminators_of_takes {c : Command} {os kept : List Operand} (takes : c.Takes os)
    (same : kept.map Operand.withoutSpans = os.map Operand.withoutSpans) (kind : c.layout = .terminated) :
    ∀ o ∈ kept.drop 1, o.isTerminator = false := by
  obtain ⟨shape, -, -, -, terminators⟩ := (Command.takes_iff (by simp [kind])).1 takes
  have sameTail : (kept.drop 1).map Operand.withoutSpans = (os.drop 1).map Operand.withoutSpans := by
    rw [List.map_drop, List.map_drop, same]
  intro o inTail
  have inMap : o.withoutSpans ∈ (os.drop 1).map Operand.withoutSpans := sameTail ▸ List.mem_map_of_mem inTail
  obtain ⟨o', inTail', sameOperand⟩ := List.mem_map.1 inMap
  rw [← Operand.isTerminator_withoutSpans, ← sameOperand, Operand.isTerminator_withoutSpans]
  exact terminators kind o' inTail'

theorem addDirective_of_declares (s : Script) {name label : String} {os : List Operand} {entry : EntryPoint}
    {labelSpan : Option Span} (declares : Declares name os entry label labelSpan) (span : Span) :
    s.addDirective name os span =
      ((s.addReference label labelSpan).addEntry entry label span).mapError .ofResolution := by
  cases declares with
  | event e => cases e <;> rfl
  | interact | library => rfl

/-- The script has been built up to these entry points and blocks, and refers to these labels only. -/
structure Rebuilds (names : List String) (target : Target) (entries : List (EntryPoint × String))
    (blocks : List Block) (s : Script) : Prop where
  target : s.target = target
  entries : s.entries = entries
  blocks : s.blocks.map Block.withoutSpans = blocks.map Block.withoutSpans
  bindings : s.labels.bindings = s.blocks.mapIdx fun k b => (b.label, ⟨k, 0⟩)
  references : ∀ r ∈ s.labels.references, r.1 ∈ names

namespace Rebuilds

variable {names : List String} {target : Target} {entries : List (EntryPoint × String)} {blocks : List Block}
  {s : Script}

theorem labels_eq (rebuilds : s.Rebuilds names target entries blocks) :
    s.blocks.map (·.label) = blocks.map (·.label) := by
  have same := congrArg (List.map (·.label)) rebuilds.blocks
  simpa [Function.comp_def, Block.withoutSpans] using same

theorem get?_eq_none (rebuilds : s.Rebuilds names target entries blocks) {name : String} :
    s.labels.get? name = none ↔ ∀ b ∈ blocks, b.label ≠ name := by
  have free (bs : List Block) : (∀ b ∈ bs, b.label ≠ name) ↔ name ∉ bs.map (·.label) := by
    simp [eq_comm]
  rw [get?_eq_none_of_bindings rebuilds.bindings, free, free, rebuilds.labels_eq]

theorem addReferences (rebuilds : s.Rebuilds names target entries blocks) {os : List Operand}
    (inside : ∀ name ∈ os.filterMap (fun o => o.reference?.map Prod.fst), name ∈ names) :
    (s.addReferences os).Rebuilds names target entries blocks := by
  rw [addReferences_eq]
  refine ⟨rebuilds.target, rebuilds.entries, rebuilds.blocks, rebuilds.bindings, fun r member => ?_⟩
  rcases List.mem_append.1 member with before | new
  · exact rebuilds.references r before
  · obtain ⟨o, isOperand, refers⟩ := List.mem_filterMap.1 new
    exact inside r.1 (List.mem_filterMap.2 ⟨o, isOperand, by rw [refers]; rfl⟩)

theorem addLabel (rebuilds : s.Rebuilds names target entries blocks) {name : String}
    (fresh : ∀ b ∈ blocks, b.label ≠ name) (span : Span) :
    ∃ s', s.addSource (.label name span) = .ok s' ∧ s'.Rebuilds names target entries (blocks ++ [⟨name, []⟩]) := by
  have lifted : s.addSource (.label name span) = (s.addBlock name span).mapError .ofResolution := rfl
  simp only [lifted, mapError_eq_ok, addBlock_eq_ok]
  refine ⟨_, ⟨rebuilds.get?_eq_none.2 fresh, rfl⟩, rebuilds.target, rebuilds.entries, ?_, ?_, rebuilds.references⟩
  · simp [rebuilds.blocks, Block.withoutSpans]
  · simp [rebuilds.bindings]

theorem addFirstItem (rebuilds : s.Rebuilds names target entries []) {item item' : Item}
    (same : item'.withoutSpans = item.withoutSpans) :
    ∃ s', s.addSourceItem item' = .ok s' ∧ s'.Rebuilds names target entries [⟨"$0", [item]⟩] := by
  have empty : s.blocks = [] := by simpa using rebuilds.blocks
  refine ⟨_, addSourceItem_eq_ok.2 (.inl ⟨empty, rebuilds.get?_eq_none.2 (by simp), rfl⟩), rebuilds.target,
    rebuilds.entries, ?_, ?_, rebuilds.references⟩
  · simp [Block.withoutSpans, same]
  · simp [rebuilds.bindings, empty]

theorem addNextItem {front : List Block} {last : Block}
    (rebuilds : s.Rebuilds names target entries (front ++ [last])) {item item' : Item}
    (same : item'.withoutSpans = item.withoutSpans) :
    ∃ s', s.addSourceItem item' = .ok s' ∧
      s'.Rebuilds names target entries (front ++ [{ last with items := last.items ++ [item] }]) := by
  have blocks := rebuilds.blocks
  rw [List.map_append] at blocks
  obtain ⟨front', later, split, sameFront, sameLater⟩ := List.map_eq_append_iff.1 blocks
  obtain ⟨last', rfl, sameLast⟩ := List.map_eq_singleton_iff.1 sameLater
  have bindings := rebuilds.bindings
  obtain ⟨sameLabel, sameItems⟩ := Block.mk.inj sameLast
  refine ⟨_, addSourceItem_eq_ok.2 (.inr ⟨front', last', split, rfl⟩), rebuilds.target, rebuilds.entries, ?_, ?_,
    rebuilds.references⟩
  · simp [Block.withoutSpans, sameFront, sameLabel, sameItems, same]
  · simp only [split, List.mapIdx_append] at bindings ⊢
    simpa using bindings

theorem addSource_item (rebuilds : s.Rebuilds names target entries blocks) {item : Item} (wellFormed : item.WellFormed)
    (inside : ∀ name ∈ item.labelNames, name ∈ names) {source : SourceItem}
    (states : (Line.item item).States [source]) :
    ∃ (item' : Item) (s₁ : Script), item'.withoutSpans = item.withoutSpans ∧
      s₁.Rebuilds names target entries blocks ∧
        ∀ s', s₁.addSourceItem item' = .ok s' → s.addSource source = .ok s' := by
  cases states with
  | @instruction i os span same =>
    obtain ⟨opcode, operands, opcodeSpan⟩ := i
    obtain ⟨c, member, rfl, takes⟩ := wellFormed
    obtain ⟨kept, checked, sameKept⟩ := commandOperands_of_takes takes same span
    refine ⟨.instruction ⟨c.name, kept, some span⟩, s.addReferences (Operand.walkAll kept), ?_,
      rebuilds.addReferences fun name used => ?_, fun s' added => ?_⟩
    · simp [Item.withoutSpans, sameKept]
    · rw [← Operand.labels_withoutSpans, sameKept, Operand.labels_withoutSpans] at used
      exact inside name used
    · exact addStatement_eq_ok.2 ⟨c, member, rfl, kept, checked, terminators_of_takes takes sameKept, added⟩
  | @data d os span same =>
    obtain ⟨width, values, dataSpan⟩ := d
    obtain ⟨nonempty, each⟩ := wellFormed
    have takes : ∀ v ∈ os, Data.takes width v = true := by
      intro v member
      have inMap : v.withoutSpans ∈ values.map Operand.withoutSpans := same ▸ List.mem_map_of_mem member
      obtain ⟨v', inValues, sameValue⟩ := List.mem_map.1 inMap
      rw [← Data.takes_withoutSpans, ← sameValue, Data.takes_withoutSpans]
      exact (each v' inValues).1
    have nonempty' : os ≠ [] := by
      rintro rfl
      exact nonempty (by simpa using same.symm)
    have isData : s.addSource (.directive width.directive os span) = s.addData width os span := by
      cases width <;> rfl
    refine ⟨.data ⟨width, os, some span⟩, s.addReferences os, ?_, rebuilds.addReferences fun name used => ?_,
      fun s' added => ?_⟩
    · simp [Item.withoutSpans, same]
    · rw [← Data.walkAll_of_takes takes, ← Operand.labels_withoutSpans, same, Operand.labels_withoutSpans] at used
      exact inside name used
    · rw [isData]
      exact addData_eq_ok.2 ⟨nonempty', takes, added⟩

theorem addItem {front : List Block} {last : Block} (rebuilds : s.Rebuilds names target entries (front ++ [last]))
    {item : Item} (wellFormed : item.WellFormed) (inside : ∀ name ∈ item.labelNames, name ∈ names)
    {source : SourceItem} (states : (Line.item item).States [source]) :
    ∃ s', s.addSource source = .ok s' ∧
      s'.Rebuilds names target entries (front ++ [{ last with items := last.items ++ [item] }]) := by
  obtain ⟨item', s₁, same, recorded, added⟩ := rebuilds.addSource_item wellFormed inside states
  obtain ⟨s', step, next⟩ := recorded.addNextItem same
  exact ⟨s', added s' step, next⟩

theorem states_item {item : Item} {found : List SourceItem} (states : (Line.item item).States found) :
    ∃ source, found = [source] := by
  cases states <;> exact ⟨_, rfl⟩

theorem addItems {front : List Block} {last : Block} (rebuilds : s.Rebuilds names target entries (front ++ [last]))
    {items : List Item} (wellFormed : ∀ item ∈ items, item.WellFormed)
    (inside : ∀ item ∈ items, ∀ name ∈ item.labelNames, name ∈ names) {found : List (List SourceItem)}
    (states : List.Forall₂ Line.States (items.map Line.item) found) :
    ∃ s', found.flatten.foldlM addSource s = .ok s' ∧
      s'.Rebuilds names target entries (front ++ [{ last with items := last.items ++ items }]) := by
  induction items generalizing last s found with
  | nil =>
    cases states
    exact ⟨s, rfl, by simpa using rebuilds⟩
  | cons item items ih =>
    obtain ⟨here, others⟩ := List.forall_mem_cons.1 wellFormed
    obtain ⟨insideHere, insideOthers⟩ := List.forall_mem_cons.1 inside
    rw [List.map_cons] at states
    cases states with
    | cons statesHere statesOthers =>
      obtain ⟨source, rfl⟩ := states_item statesHere
      obtain ⟨s₁, step, next⟩ := rebuilds.addItem here insideHere statesHere
      obtain ⟨s', run, done⟩ := ih next others insideOthers statesOthers
      refine ⟨s', ?_, by simpa using done⟩
      rw [List.flatten_cons, List.singleton_append, List.foldlM_cons, step]
      exact run

theorem flatten_gap {isGap : Bool} {found : List (List SourceItem)}
    (states : List.Forall₂ Line.States (if isGap then [.blank] else []) found) : found.flatten = [] := by
  cases isGap with
  | false =>
    cases states
    rfl
  | true =>
    cases states with
    | cons here others =>
      cases here
      cases others
      rfl

theorem addPrinted (rebuilds : s.Rebuilds names target entries blocks) {b : Block} {previous : Option Block}
    (fresh : ∀ d ∈ blocks, d.label ≠ b.label)
    (named : Lexeme.IsLabel b.label ∨ blocks = [] ∧ b.label = "$0" ∧ b.items ≠ [])
    (wellFormed : ∀ item ∈ b.items, item.WellFormed)
    (inside : ∀ item ∈ b.items, ∀ name ∈ item.labelNames, name ∈ names) {found : List (List SourceItem)}
    (states : List.Forall₂ Line.States (b.printed previous) found) :
    ∃ s', found.flatten.foldlM addSource s = .ok s' ∧ s'.Rebuilds names target entries (blocks ++ [b]) := by
  obtain ⟨head, items, rfl, statesHead, statesItems⟩ := exists_append_of_forall₂ states
  obtain ⟨gap, label, rfl, statesGap, statesLabel⟩ := exists_append_of_forall₂ statesHead
  rw [List.flatten_append, List.flatten_append, flatten_gap statesGap, List.nil_append]
  obtain ⟨name, body⟩ := b
  rcases named with isLabel | ⟨rfl, rfl, nonempty⟩
  · rw [if_neg (by simp [isLabel.not_isSynthetic body])] at statesLabel
    cases statesLabel with
    | cons here none =>
      cases none
      cases here with
      | label _ span =>
        obtain ⟨s₁, step, next⟩ := rebuilds.addLabel fresh span
        obtain ⟨s', run, done⟩ := next.addItems wellFormed inside statesItems
        refine ⟨s', ?_, by simpa using done⟩
        rw [List.flatten_cons, List.flatten_nil, List.append_nil, List.singleton_append, List.foldlM_cons, step]
        exact run
  · have synthetic : Block.isSynthetic ⟨"$0", body⟩ = true := by simp [Block.isSynthetic]
    rw [if_pos synthetic] at statesLabel
    cases statesLabel
    cases body with
    | nil => exact absurd rfl nonempty
    | cons item body =>
      obtain ⟨here, others⟩ := List.forall_mem_cons.1 wellFormed
      obtain ⟨insideHere, insideOthers⟩ := List.forall_mem_cons.1 inside
      rw [List.map_cons] at statesItems
      cases statesItems with
      | cons statesHere statesOthers =>
        obtain ⟨source, rfl⟩ := states_item statesHere
        obtain ⟨item', s₁, same, recorded, added⟩ := rebuilds.addSource_item here insideHere statesHere
        obtain ⟨s₂, step, next⟩ := recorded.addFirstItem same
        have opened : s₂.Rebuilds names target entries ([] ++ [⟨"$0", [item]⟩]) := next
        obtain ⟨s', run, done⟩ := opened.addItems others insideOthers statesOthers
        refine ⟨s', ?_, by simpa using done⟩
        rw [List.flatten_nil, List.nil_append, List.flatten_cons, List.singleton_append, List.foldlM_cons,
          added s₂ step]
        exact run

theorem addBlocks (rebuilds : s.Rebuilds names target entries blocks) {bs : List Block} {previous : Option Block}
    (distinct : ((blocks ++ bs).map (·.label)).Nodup)
    (named : ∀ k b, bs[k]? = some b → Lexeme.IsLabel b.label ∨ blocks = [] ∧ k = 0 ∧ b.label = "$0" ∧ b.items ≠ [])
    (wellFormed : ∀ b ∈ bs, ∀ item ∈ b.items, item.WellFormed)
    (inside : ∀ b ∈ bs, ∀ item ∈ b.items, ∀ name ∈ item.labelNames, name ∈ names) {found : List (List SourceItem)}
    (states : List.Forall₂ Line.States (blocksPrinted previous bs) found) :
    ∃ s', found.flatten.foldlM addSource s = .ok s' ∧ s'.Rebuilds names target entries (blocks ++ bs) := by
  induction bs generalizing blocks previous s found with
  | nil =>
    cases states
    exact ⟨s, rfl, by simpa using rebuilds⟩
  | cons b bs ih =>
    obtain ⟨here, others⟩ := List.forall_mem_cons.1 wellFormed
    obtain ⟨insideHere, insideOthers⟩ := List.forall_mem_cons.1 inside
    obtain ⟨first, later, rfl, statesHere, statesLater⟩ := exists_append_of_forall₂ states
    have fresh : ∀ d ∈ blocks, d.label ≠ b.label := by
      intro d member same
      rw [List.map_append, List.nodup_append] at distinct
      exact distinct.2.2 _ (List.mem_map_of_mem member) _ (by simp) same
    have namedHere : Lexeme.IsLabel b.label ∨ blocks = [] ∧ b.label = "$0" ∧ b.items ≠ [] :=
      (named 0 b rfl).imp_right fun ⟨empty, _, label, items⟩ => ⟨empty, label, items⟩
    obtain ⟨s₁, step, next⟩ := rebuilds.addPrinted fresh namedHere here insideHere statesHere
    have namedLater : ∀ k b', bs[k]? = some b' → Lexeme.IsLabel b'.label ∨
        blocks ++ [b] = [] ∧ k = 0 ∧ b'.label = "$0" ∧ b'.items ≠ [] := by
      intro k b' found
      rcases named (k + 1) b' (by simpa using found) with isLabel | ⟨-, first, -⟩
      · exact .inl isLabel
      · cases first
    obtain ⟨s', run, done⟩ := ih next (by simpa using distinct) namedLater others insideOthers statesLater
    refine ⟨s', ?_, by simpa using done⟩
    rw [List.flatten_append, List.foldlM_append, step]
    exact run

theorem addEntries (rebuilds : s.Rebuilds names target entries blocks) {table : List (EntryPoint × String)}
    (distinct : ((entries ++ table).map Prod.fst).Nodup) (scope : ∀ e ∈ table, e.1.isStageEvent = !target.isGlobals)
    (inside : ∀ e ∈ table, e.2 ∈ names) {found : List (List SourceItem)}
    (states : List.Forall₂ Line.States (table.map fun (e, name) => .entry e name) found) :
    ∃ s', found.flatten.foldlM addSource s = .ok s' ∧ s'.Rebuilds names target (entries ++ table) blocks := by
  induction table generalizing entries s found with
  | nil =>
    cases states
    exact ⟨s, rfl, by simpa using rebuilds⟩
  | cons e table ih =>
    obtain ⟨scopeHere, scopeOthers⟩ := List.forall_mem_cons.1 scope
    obtain ⟨insideHere, insideOthers⟩ := List.forall_mem_cons.1 inside
    obtain ⟨entry, name⟩ := e
    rw [List.map_cons] at states
    cases states with
    | cons statesHere statesOthers =>
      cases statesHere with
      | @entry _ _ os nameSpan span declares =>
        have fresh : ∀ e ∈ s.entries, e.1 ≠ entry := by
          rw [rebuilds.entries]
          intro e member same
          rw [List.map_append, List.nodup_append] at distinct
          exact distinct.2.2 _ (List.mem_map_of_mem member) _ (by simp) same
        have scope' : entry.isStageEvent = !s.target.isGlobals := by
          rw [rebuilds.target]
          exact scopeHere
        have step : s.addSource (.directive entry.role os span) = .ok { s.addReference name nameSpan with
            entries := s.entries ++ [(entry, name)] } := by
          refine (addDirective_of_declares s declares span).trans ?_
          exact mapError_eq_ok.2 (addEntry_eq_ok.2 ⟨fresh, scope', rfl⟩)
        have next : Rebuilds names target (entries ++ [(entry, name)]) blocks { s.addReference name nameSpan with
            entries := s.entries ++ [(entry, name)] } := by
          refine ⟨rebuilds.target, by rw [rebuilds.entries], rebuilds.blocks, rebuilds.bindings, fun r member => ?_⟩
          rcases List.mem_append.1 member with before | here
          · exact rebuilds.references r before
          · rw [List.mem_singleton.1 here]
            exact insideHere
        obtain ⟨s', run, done⟩ := ih next (by simpa using distinct) scopeOthers insideOthers statesOthers
        refine ⟨s', ?_, by simpa using done⟩
        rw [List.flatten_cons, List.singleton_append, List.foldlM_cons, step]
        exact run

end Rebuilds

end Script

namespace Text

theorem decodeByte?_of_encodeChar? {c : Char} {b : UInt8} (encoded : encodeChar? c = some b) :
    decodeByte? b = some c := by
  by_cases low : c.toNat < 256
  · have table : ∀ n < 256,
        (encodeChar? (Char.ofNat n)).all (fun b => decodeByte? b == some (Char.ofNat n)) = true := by
      decide +kernel
    have here := table c.toNat low
    rw [Char.ofNat_toNat, encoded] at here
    simpa using here
  · have table : ∀ p ∈ codePageRow, decodeByte? p.1 = some p.2 := by decide +kernel
    have high : ¬ (c.toNat < 0x80 || (0xa0 ≤ c.toNat && c.toNat < 0x100)) = true := by
      simp only [Bool.or_eq_true, Bool.and_eq_true, decide_eq_true_eq]
      omega
    rw [encodeChar?, if_neg high] at encoded
    obtain ⟨p, found, rfl⟩ := Option.map_eq_some_iff.1 encoded
    have same : p.2 = c := by simpa using List.find?_some found
    exact same ▸ table p (List.mem_of_find?_eq_some found)

def restored (c : Char) : Char := (decodeByte? ((encodeChar? c).getD 0x3f)).getD '�'

theorem restored_of_encodable {c : Char} {b : UInt8} (encoded : encodeChar? c = some b) : restored c = c := by
  rw [restored, encoded, Option.getD_some, decodeByte?_of_encodeChar? encoded, Option.getD_some]

theorem restored_of_none {c : Char} (missing : encodeChar? c = none) : restored c = '?' := by
  rw [restored, missing]
  rfl

theorem restored_eq_self {c : Char} : restored c = c ↔ (encodeChar? c).isSome = true := by
  cases encoded : encodeChar? c with
  | some b => exact iff_of_true (restored_of_encodable encoded) rfl
  | none =>
    refine iff_of_false ?_ (by simp)
    rw [restored_of_none encoded]
    rintro rfl
    cases encoded

theorem decodeText_encodeText (s : String) : decodeText (encodeText s) = String.ofList (s.toList.map restored) := by
  rw [decodeText, encodeText, List.map_map]
  rfl

theorem decodeText_encodeText_eq_self {s : String} :
    decodeText (encodeText s) = s ↔ ∀ c ∈ s.toList, (encodeChar? c).isSome = true := by
  have fixed : s.toList.map restored = s.toList ↔ ∀ c ∈ s.toList, restored c = c := by
    nth_rewrite 2 [← List.map_id s.toList]
    exact List.map_inj_left
  rw [decodeText_encodeText, ← String.toList_inj, String.toList_ofList, fixed]
  simp only [restored_eq_self]

theorem encodeText_decodeText_encodeText (s : String) : encodeText (decodeText (encodeText s)) = encodeText s := by
  rw [decodeText_encodeText, encodeText, encodeText, String.toList_ofList, List.map_map]
  refine List.map_congr_left fun c _ => ?_
  cases encoded : encodeChar? c with
  | some b => rw [Function.comp_apply, restored_of_encodable encoded, encoded]
  | none =>
    rw [Function.comp_apply, restored_of_none encoded]
    rfl

end Text

def Target.restored : Target → Target
  | globals => globals
  | stage name => stage (Text.decodeText (Text.encodeText name))

namespace Target

theorem isGlobals_restored (t : Target) : t.restored.isGlobals = t.isGlobals := by
  cases t <;> rfl

theorem line_restored (t : Target) : t.restored.line = t.line := by
  cases t with
  | globals => rfl
  | stage name => rw [restored, line, line, Text.encodeText_decodeText_encodeText]

theorem restored_eq_self {t : Target} :
    t.restored = t ↔
      t = .globals ∨ ∃ name, t = .stage name ∧ ∀ c ∈ name.toList, (Text.encodeChar? c).isSome = true := by
  cases t with
  | globals => exact iff_of_true rfl (.inl rfl)
  | stage name => simp [restored, Text.decodeText_encodeText_eq_self]

end Target

namespace Script

variable {s : Script}

/-- A script is read again from its own text. -/
theorem WellFormed.exists_parse (wellFormed : s.WellFormed) :
    ∃ s', parse s.toText = .ok s' ∧ s'.Rebuilds s.usedLabels s.target.restored s.entryPoints s.blocks := by
  obtain ⟨found, read, states⟩ := wellFormed.parse_toText
  have perm : s.entryPoints.Perm s.entries := List.mergeSort_perm ..
  unfold Script.printed at states
  cases states with
  | @cons _ head _ found statesTarget statesRest =>
    obtain ⟨entries, blocks, rfl, statesEntries, statesBlocks⟩ := exists_append_of_forall₂ statesRest
    have start : Rebuilds s.usedLabels s.target.restored [] [] { target := s.target.restored } :=
      ⟨rfl, rfl, rfl, rfl, by simp⟩
    have distinct : (([] ++ s.entryPoints).map Prod.fst).Nodup := (perm.map Prod.fst).nodup_iff.2 wellFormed.entries
    have scope : ∀ e ∈ s.entryPoints, e.1.isStageEvent = !s.target.restored.isGlobals := by
      intro e member
      rw [Target.isGlobals_restored]
      exact wellFormed.scope e (perm.mem_iff.1 member)
    have entryNames : ∀ e ∈ s.entryPoints, e.2 ∈ s.usedLabels := fun e member =>
      List.mem_append_right _ (List.mem_map_of_mem (perm.mem_iff.1 member))
    obtain ⟨s₁, runEntries, declared⟩ := start.addEntries distinct scope entryNames statesEntries
    have named : ∀ k b, s.blocks[k]? = some b → Lexeme.IsLabel b.label ∨
        ([] : List Block) = [] ∧ k = 0 ∧ b.label = "$0" ∧ b.items ≠ [] :=
      fun k b found => (wellFormed.named k b found).imp_right fun first => ⟨rfl, first⟩
    have items : ∀ b ∈ s.blocks, ∀ item ∈ b.items, item.WellFormed := fun b inside item inBlock =>
      wellFormed.items item (List.mem_flatMap.2 ⟨b, inside, inBlock⟩)
    have itemNames : ∀ b ∈ s.blocks, ∀ item ∈ b.items, ∀ name ∈ item.labelNames, name ∈ s.usedLabels :=
      fun b inside item inBlock name used =>
        List.mem_append_left _ (List.mem_flatMap.2 ⟨item, List.mem_flatMap.2 ⟨b, inside, inBlock⟩, used⟩)
    obtain ⟨s₂, runBlocks, rebuilt⟩ := declared.addBlocks wellFormed.distinct named items itemNames statesBlocks
    have run : (entries ++ blocks).flatten.foldlM addSource { target := s.target.restored } = .ok s₂ := by
      rw [List.flatten_append, List.foldlM_append, runEntries]
      exact runBlocks
    have resolved : s₂.labels.resolveAll = .ok () := by
      refine LabelTable.resolveAll_eq_ok.2 fun r member => ?_
      obtain ⟨b, inside, same⟩ := wellFormed.declared r.1 (rebuilt.references r member)
      cases binding : s₂.labels.get? r.1 with
      | some found => exact ⟨found, rfl⟩
      | none => exact absurd same (rebuilt.get?_eq_none.1 binding b inside)
    refine ⟨s₂, ?_, rebuilt⟩
    have built {name : String} {os : List Operand} {span : Span} (isTarget : Target.isDirective name = true)
        (named : Target.ofDirective name os span = .ok s.target.restored) :
        ofItems (.directive name os span :: (entries ++ blocks).flatten) = .ok s₂ := by
      simp only [ofItems, isTarget, named]
      change ((entries ++ blocks).flatten.foldlM addSource { target := s.target.restored } >>= _) = _
      rw [run]
      change ((s₂.labels.resolveAll.mapError Error.ofResolution) >>= _) = _
      rw [resolved]
      rfl
    rw [parse, read]
    change ofItems (head :: (entries ++ blocks)).flatten = _
    generalize s.target = target at statesTarget built
    cases statesTarget with
    | globals span => exact built rfl rfl
    | stage name nameSpan span => exact built rfl rfl

end Script

end EventScript
