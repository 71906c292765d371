import EventScript.Proofs.Rereading

namespace EventScript

/-- What one line of a script's text says. -/
inductive Line where
  | blank
  | label (name : String)
  | target (t : Target)
  | entry (e : EntryPoint) (label : String)
  | item (i : Item)

namespace Line

def text : Line → String
  | blank => ""
  | label name => name ++ ":"
  | target t => t.line
  | entry e name => e.line name
  | item i => i.toText

def lexemes : Line → List Lexeme
  | blank => []
  | label name => [.identifier name, .colon]
  | target .globals => [.directive "globals"]
  | target (.stage name) => [.directive "stage", .string (Text.encodeText name)]
  | entry e name => .directive e.role :: match e.key with
    | some key => [.integer key none, .comma, .label name none]
    | none => [.label name none]
  | item i => i.lexemes

def WellFormed : Line → Prop
  | blank | target _ => True
  | label name => Lexeme.IsLabel name
  | entry e name => Lexeme.IsName name ∧ ∀ key, e.key = some key → Lexeme.InRange key
  | item i => i.WellFormed

end Line

theorem EntryPoint.isName_role (e : EntryPoint) : Lexeme.IsName e.role := by
  cases e with
  | event e => cases e <;> decide +kernel
  | interact => exact (by decide +kernel : Lexeme.IsName interactRole)
  | library => exact (by decide +kernel : Lexeme.IsName libraryRole)

theorem Line.writes {line : Line} (wellFormed : line.WellFormed) : Writes line.text.toList line.lexemes := by
  cases line with
  | blank => exact .nil
  | label name =>
    have named := Writes.identifier wellFormed.1 wellFormed.2
    simpa [text, lexemes] using named.append (by decide) Writes.nil.colon
  | target t =>
    cases t with
    | globals =>
      have isName : Lexeme.IsName "globals" := by decide +kernel
      exact Writes.directive isName
    | stage name =>
      have isName : Lexeme.IsName "stage" := by decide +kernel
      have line := (Writes.directive isName).append (by decide)
        ((Writes.string (Text.encodeText name)).blank (c := ' ') (by decide))
      simpa [text, lexemes, Target.line, Text.quote] using line
  | entry e name =>
    have role := Writes.directive e.isName_role
    have reference : Writes ('*' :: name.toList) [.label name none] := by
      simpa [Width.suffixText] using Writes.label wellFormed.1 none
    cases key : e.key with
    | none =>
      simpa [text, lexemes, EntryPoint.line, key] using
        role.append (by decide) (reference.blank (c := '\t') (by decide))
    | some k =>
      have number : Writes (toString k).toList [.integer k none] := by
        simpa [Width.suffixText] using Writes.integer (wellFormed.2 k key) none
      have both := number.append (by decide) (reference.blank (c := ' ') (by decide)).comma
      simpa [text, lexemes, EntryPoint.line, key] using role.append (by decide) (both.blank (c := '\t') (by decide))
  | item i => exact Item.writes wellFormed

theorem Scans.newline (rest : List Char) : Scans ('\n' :: rest) [.newline] rest :=
  @Scans.token '\n' [] rest rest .newline [] rfl rfl (.done rest)

theorem Scans.lines {texts : List String} {parts : List (List Lexeme)}
    (each : List.Forall₂ (fun text part => Writes text.toList part) texts parts) (nonempty : texts ≠ []) :
    Scans ("\n".intercalate texts ++ "\n").toList (parts.flatMap (· ++ [.newline])) [] := by
  have ends : "\n".toList = ['\n'] := by decide
  rw [String.toList_append, String.toList_intercalate, ends]
  induction each with
  | nil => exact absurd rfl nonempty
  | @cons text part texts parts here others ih =>
    have line (rest : List Char) : Scans (text.toList ++ '\n' :: rest) (part ++ [.newline]) rest :=
      (here _ (Lexeme.breaks_cons (by decide) rest)).append (.newline rest)
    cases others with
    | nil => simpa using line []
    | cons next others =>
      rw [List.map_cons, List.map_cons, List.intercalate_cons_cons, List.append_assoc, List.append_assoc,
        List.flatMap_cons]
      exact (line _).append (ih (by simp))

namespace Line

/-- The items that a line is read as, up to spans. -/
inductive States : Line → List SourceItem → Prop
  | blank : States blank []
  | label (name : String) (span : Span) : States (label name) [.label name span]
  | globals (span : Span) : States (target .globals) [.directive "globals" [] span]
  | stage (name : String) (nameSpan : Option Span) (span : Span) :
    States (target (.stage name)) [.directive "stage" [.text (Text.encodeText name) nameSpan] span]
  | entry {e : EntryPoint} {name : String} {os : List Operand} {nameSpan : Option Span} (span : Span) :
    Script.Declares e.role os e name nameSpan → States (entry e name) [.directive e.role os span]
  | instruction {i : Instruction} {os : List Operand} (span : Span) :
    os.map Operand.withoutSpans = i.operands.map Operand.withoutSpans →
      States (item (.instruction i)) [.statement i.opcode os span]
  | data {d : Data} {os : List Operand} (span : Span) :
    os.map Operand.withoutSpans = d.values.map Operand.withoutSpans →
      States (item (.data d)) [.directive d.width.directive os span]

end Line

namespace SourceItem

variable {stop : Error}

theorem items_newline {t : Token} (isNewline : t.lexeme = .newline) (fuel : Nat) (ts : List Token) :
    items stop fuel (t :: ts) = items stop fuel ts := by
  cases fuel with
  | zero => rfl
  | succ fuel =>
    have skipped : skipNewlines (t :: ts) = skipNewlines ts := List.dropWhile_cons_of_pos (by simp [isNewline])
    rw [items, items, skipped]

theorem endOfItem_of_newline {t : Token} (isNewline : t.lexeme = .newline) (ts : List Token) :
    endOfItem stop (t :: ts) = .ok () := by
  rw [endOfItem, isNewline]
  rfl

theorem items_statement {name : String} {span : Span} {ts rest : List Token} {os : List Operand} {t : Token}
    (isNewline : t.lexeme = .newline) (noColon : ∀ u ∈ (ts ++ t :: rest).head?, u.lexeme ≠ .colon)
    (read : statementOperands stop name span (ts ++ t :: rest) = .ok (os, t :: rest)) (fuel : Nat) :
    items stop (fuel + 1) (⟨.identifier name, span⟩ :: (ts ++ t :: rest)) =
      (items stop fuel rest).map (.statement name os (spanFrom span os) :: ·) := by
  rw [← items_newline isNewline fuel rest]
  cases split : ts ++ t :: rest with
  | nil => simp at split
  | cons u us =>
    rw [split] at read noColon
    have notLabel := noColon u rfl
    change (if (u.lexeme == .colon) = true then _ else _) = _
    rw [if_neg (by simpa using notLabel)]
    change (statementOperands stop name span (u :: us) >>= _) = _
    rw [read]
    change (endOfItem stop (t :: rest) >>= _) = _
    rw [endOfItem_of_newline isNewline]
    rfl

theorem items_label {name : String} {span : Span} {colon t : Token} (isColon : colon.lexeme = .colon)
    (isNewline : t.lexeme = .newline) (fuel : Nat) (rest : List Token) :
    items stop (fuel + 1) (⟨.identifier name, span⟩ :: colon :: t :: rest) =
      (items stop fuel rest).map (.label name ⟨span.start, colon.span.stop⟩ :: ·) := by
  rw [← items_newline isNewline fuel rest]
  change (if (colon.lexeme == .colon) = true then _ else _) = _
  rw [if_pos (by simp [isColon])]

theorem items_directive {name : String} {os : List Operand} (spelled : ∀ o ∈ os, o.IsSpelled)
    (leaf : ∀ o ∈ os, ∀ op args span, o ≠ .expr op args span) {ts : List Token}
    (same : ts.map (·.lexeme) = .directive name :: [.comma].intercalate (os.map Operand.lexemes)) {t : Token}
    (isNewline : t.lexeme = .newline) (rest : List Token) :
    ∃ os' span, os'.map Operand.withoutSpans = os.map Operand.withoutSpans ∧ ∀ fuel,
      items stop (fuel + 1) (ts ++ t :: rest) = (items stop fuel rest).map (.directive name os' span :: ·) := by
  have checked : ∀ o ∈ os, o.checkExpression = .ok () := by
    intro o inside
    cases o with
    | expr op args span => exact absurd rfl (leaf _ inside op args span)
    | _ => simp [Operand.checkExpression]
  have starts : ∀ o ∈ os, Starts o.lexemes := by
    intro o inside
    refine starts_operand ?_
    rintro commands span rfl
    exact (Operand.isSpelled_leaf (by simp)).1 (spelled _ inside)
  obtain ⟨⟨_, nameSpan⟩, ts, rfl, rfl, others⟩ := List.map_eq_cons_iff.1 same
  have isList : ts.map (·.lexeme) = (.comma :: List.replicate 0 .newline).intercalate (os.map Operand.lexemes) := others
  obtain ⟨os', read, sameList⟩ := recovers_operandList stop
    (fun o inside _ => recovers_operand (spelled o inside) (checked o inside)) starts isList
    ⟨t, rest, rfl, by rw [isNewline]; rfl⟩
  refine ⟨os', spanFrom nameSpan os', sameList, fun fuel => ?_⟩
  rw [← items_newline isNewline fuel rest]
  change (operandList stop (fun _ => operand stop) (ts ++ t :: rest) >>= _) = _
  rw [read]
  change (endOfItem stop (t :: rest) >>= _) = _
  rw [endOfItem_of_newline isNewline]
  rfl

theorem noColon_of_takes {c : Command} {os : List Operand} (takes : c.Takes os) :
    ∀ l ∈ ([.comma].intercalate (os.map Operand.lexemes)).head?, l ≠ .colon := by
  have started {lexemes : List Lexeme} (starts : Starts lexemes) (others : List Lexeme) :
      ∀ l ∈ (lexemes ++ others).head?, l ≠ .colon := by
    obtain ⟨first, tail, rfl, notThese⟩ := starts
    rintro l ⟨⟩ rfl
    simp at notThese
  by_cases message : c.layout = .message
  · simp only [Command.Takes, message] at takes
    obtain ⟨commands, span, rfl, normal⟩ := takes
    cases commands with
    | nil => simp [Operand.lexemes]
    | cons command commands =>
      have list := Lexeme.intercalate_cons 1 command.lexemes (commands.map MessageCommand.lexemes)
      have same : [.comma].intercalate ([Operand.message (command :: commands) span].map Operand.lexemes) =
          command.lexemes ++ Lexeme.further 1 (commands.map MessageCommand.lexemes) := by
        simpa [Operand.lexemes] using list
      rw [same]
      exact started (starts_messageCommand (normal.each command List.mem_cons_self)) _
  · obtain ⟨shape, chosen, spelled, -⟩ := (Command.takes_iff message).1 takes
    cases os with
    | nil => simp
    | cons o os =>
      have list := Lexeme.intercalate_cons 0 o.lexemes (os.map Operand.lexemes)
      have same : [.comma].intercalate ((o :: os).map Operand.lexemes) =
          o.lexemes ++ Lexeme.further 0 (os.map Operand.lexemes) := by
        simpa using list
      rw [same]
      refine started (starts_operand ?_) _
      rintro commands span rfl
      exact (Operand.isSpelled_leaf (by simp)).1 (spelled _ List.mem_cons_self)

end SourceItem

def EntryPoint.operands (e : EntryPoint) (name : String) : List Operand :=
  match e.key with
  | some key => [.int key none none, .label name none false none]
  | none => [.label name none false none]

theorem Script.declares_of_operands {e : EntryPoint} {name : String} {os : List Operand}
    (same : os.map Operand.withoutSpans = (e.operands name).map Operand.withoutSpans) :
    ∃ span, Declares e.role os e name span := by
  have isLabel {o : Operand} (same : o.withoutSpans = .label name none false none) :
      ∃ span, o = .label name none false span := by
    cases o <;> simp_all [Operand.withoutSpans]
  have isInt {o : Operand} {key : Int} (same : o.withoutSpans = .int key none none) :
      ∃ span, o = .int key none span := by
    cases o <;> simp_all [Operand.withoutSpans]
  cases e with
  | event e =>
    obtain ⟨o, rfl, here⟩ := List.map_eq_singleton_iff.1 same
    obtain ⟨span, rfl⟩ := isLabel here
    exact ⟨span, .event e name span⟩
  | interact key =>
    obtain ⟨o, rest, rfl, here, others⟩ := List.map_eq_cons_iff.1 same
    obtain ⟨o', rfl, there⟩ := List.map_eq_singleton_iff.1 others
    obtain ⟨keySpan, rfl⟩ := isInt here
    obtain ⟨span, rfl⟩ := isLabel there
    exact ⟨span, .interact key none keySpan name span⟩
  | library key =>
    obtain ⟨o, rest, rfl, here, others⟩ := List.map_eq_cons_iff.1 same
    obtain ⟨o', rfl, there⟩ := List.map_eq_singleton_iff.1 others
    obtain ⟨keySpan, rfl⟩ := isInt here
    obtain ⟨span, rfl⟩ := isLabel there
    exact ⟨span, .library key none keySpan name span⟩

namespace SourceItem

variable {stop : Error}

theorem items_line {line : Line} (wellFormed : line.WellFormed) (notBlank : line ≠ .blank) {ts : List Token}
    (same : ts.map (·.lexeme) = line.lexemes) {t : Token} (isNewline : t.lexeme = .newline) (rest : List Token) :
    ∃ item, line.States [item] ∧ ∀ fuel,
      items stop (fuel + 1) (ts ++ t :: rest) = (items stop fuel rest).map (item :: ·) := by
  cases line with
  | blank => exact absurd rfl notBlank
  | label name =>
    obtain ⟨⟨_, span⟩, colons, rfl, rfl, others⟩ := List.map_eq_cons_iff.1 same
    obtain ⟨colon, rfl, isColon⟩ := List.map_eq_singleton_iff.1 others
    exact ⟨_, .label name _, fun fuel => items_label isColon isNewline fuel rest⟩
  | target target =>
    cases target with
    | globals =>
      have none : ∀ o ∈ ([] : List Operand), o.IsSpelled := by simp
      obtain ⟨os, span, sameOperands, read⟩ := items_directive none (by simp) same isNewline rest
      obtain rfl : os = [] := by simpa using sameOperands
      exact ⟨_, .globals span, read⟩
    | stage name =>
      have spelled : ∀ o ∈ [Operand.text (Text.encodeText name) none], o.IsSpelled := by
        simp [Operand.IsSpelled, Operand.walk, Operand.Spelled]
      have tokens : (Line.target (.stage name)).lexemes = .directive "stage" ::
          [.comma].intercalate ([Operand.text (Text.encodeText name) none].map Operand.lexemes) := by
        simp [Line.lexemes, Operand.lexemes, Operand.leafLexemes]
      obtain ⟨os, span, sameOperands, read⟩ := items_directive spelled (by simp) (same.trans tokens) isNewline rest
      obtain ⟨o, rfl, isText⟩ := List.map_eq_singleton_iff.1 sameOperands
      obtain ⟨nameSpan, rfl⟩ : ∃ nameSpan, o = .text (Text.encodeText name) nameSpan := by
        cases o <;> simp_all [Operand.withoutSpans]
      exact ⟨_, .stage name nameSpan span, read⟩
  | entry e name =>
    have spelled : ∀ o ∈ e.operands name, o.IsSpelled := by
      obtain ⟨isName, inRange⟩ := wellFormed
      cases e with
      | event e =>
        simpa [EntryPoint.operands, EntryPoint.key, Operand.IsSpelled, Operand.walk, Operand.Spelled] using isName
      | interact key | library key =>
        simpa [EntryPoint.operands, EntryPoint.key, Operand.IsSpelled, Operand.walk, Operand.Spelled] using
          ⟨inRange key rfl, isName⟩
    have leaf : ∀ o ∈ e.operands name, ∀ op args span, o ≠ .expr op args span := by
      cases e <;> simp [EntryPoint.operands, EntryPoint.key]
    have tokens : (Line.entry e name).lexemes =
        .directive e.role :: [.comma].intercalate ((e.operands name).map Operand.lexemes) := by
      cases e <;> simp [Line.lexemes, EntryPoint.operands, EntryPoint.key, Operand.lexemes, Operand.leafLexemes,
        Lexeme.elseWords]
    obtain ⟨os, span, sameOperands, read⟩ := items_directive spelled leaf (same.trans tokens) isNewline rest
    obtain ⟨nameSpan, declares⟩ := Script.declares_of_operands sameOperands
    exact ⟨_, .entry span declares, read⟩
  | item i =>
    cases i with
    | instruction i =>
      obtain ⟨opcode, operands, opcodeSpan⟩ := i
      obtain ⟨c, member, rfl, takes⟩ := wellFormed
      obtain ⟨⟨_, nameSpan⟩, ts, rfl, rfl, others⟩ := List.map_eq_cons_iff.1 same
      have ends : Ends (t :: rest) := ⟨t, rest, rfl, by rw [isNewline]; rfl⟩
      have noColon : ∀ u ∈ (ts ++ t :: rest).head?, u.lexeme ≠ .colon := by
        cases ts with
        | nil =>
          rintro u ⟨⟩
          simp [isNewline]
        | cons first later =>
          rintro u ⟨⟩
          exact noColon_of_takes takes _ (by rw [← others]; rfl)
      obtain ⟨os, read, sameOperands⟩ := recovers_statementOperands stop member takes others ends nameSpan
      exact ⟨_, .instruction _ sameOperands, items_statement isNewline noColon read⟩
    | data d =>
      obtain ⟨-, each⟩ := wellFormed
      have leaf : ∀ v ∈ d.values, ∀ op args span, v ≠ .expr op args span := by
        rintro v inside op args span rfl
        cases (each _ inside).1
      obtain ⟨os, span, sameOperands, read⟩ :=
        items_directive (fun v inside => (each v inside).2) leaf same isNewline rest
      exact ⟨_, .data span sameOperands, read⟩

theorem items_lines {lines : List Line} (wellFormed : ∀ line ∈ lines, line.WellFormed) {ts : List Token}
    (same : ts.map (·.lexeme) = lines.flatMap fun line => line.lexemes ++ [.newline]) (last : Span) :
    ∃ found, List.Forall₂ Line.States lines found ∧ ∀ fuel, lines.length < fuel →
      items stop fuel (ts ++ [⟨.endOfInput, last⟩]) = .ok found.flatten := by
  induction lines generalizing ts with
  | nil =>
    obtain rfl : ts = [] := by simpa using same
    refine ⟨[], .nil, fun fuel enough => ?_⟩
    cases fuel with
    | zero => cases enough
    | succ fuel => rfl
  | cons line lines ih =>
    obtain ⟨here, others⟩ := List.forall_mem_cons.1 wellFormed
    rw [List.flatMap_cons, List.append_assoc] at same
    obtain ⟨first, later, rfl, isFirst, isLater⟩ := List.map_eq_append_iff.1 same
    obtain ⟨t, later, rfl, isNewline, isLater⟩ := List.map_eq_cons_iff.1 isLater
    obtain ⟨found, states, read⟩ := ih others isLater
    rw [List.append_assoc, List.cons_append]
    by_cases blank : line = .blank
    · subst blank
      obtain rfl : first = [] := by simpa [Line.lexemes] using isFirst
      refine ⟨[] :: found, .cons .blank states, fun fuel enough => ?_⟩
      rw [List.nil_append, items_newline isNewline]
      exact read fuel (Nat.lt_of_succ_lt enough)
    · obtain ⟨item, statesHere, step⟩ := items_line here blank isFirst isNewline (later ++ [⟨.endOfInput, last⟩])
      refine ⟨[item] :: found, .cons statesHere states, fun fuel enough => ?_⟩
      cases fuel with
      | zero => cases enough
      | succ fuel =>
        rw [step fuel, read fuel (Nat.lt_of_succ_lt_succ enough)]
        rfl

end SourceItem

def Block.isApart (previous : Option Block) (b : Block) : Bool :=
  if b.isSynthetic then previous.isNone else previous.all fun p => !p.fallsThrough

def Block.printed (previous : Option Block) (b : Block) : List Line :=
  (if b.isApart previous then [.blank] else []) ++ (if b.isSynthetic then [] else [.label b.label]) ++
    b.items.map .item

namespace Script

def blocksPrinted : Option Block → List Block → List Line
  | _, [] => []
  | previous, b :: bs => b.printed previous ++ blocksPrinted (some b) bs

def printed (s : Script) : List Line :=
  .target s.target :: s.entryPoints.map (fun (e, name) => .entry e name) ++ blocksPrinted none s.blocks

theorem lines_eq_printed (s : Script) : s.lines = s.printed.map Line.text := by
  have block (previous : Option Block) (b : Block) : b.lines previous = (b.printed previous).map Line.text := by
    have items : b.items.map Item.toText = (b.items.map Line.item).map Line.text := by
      simp only [List.map_map, Function.comp_def, Line.text]
    change (if b.isApart previous then [""] else []) ++ (if b.isSynthetic then [] else [b.label ++ ":"]) ++ _ = _
    rw [Block.printed, List.map_append, List.map_append, ← items]
    congr 2
    · split <;> rfl
    · split <;> rfl
  have blocks (previous : Option Block) (bs : List Block) :
      blockLines previous bs = (blocksPrinted previous bs).map Line.text := by
    induction bs generalizing previous with
    | nil => rfl
    | cons b bs ih => rw [blockLines, blocksPrinted, List.map_append, block, ih]
  simp only [lines, printed, blocks, List.map_append, List.map_cons, List.map_map, Function.comp_def, Line.text]

theorem mem_blocksPrinted {previous : Option Block} {bs : List Block} {line : Line}
    (member : line ∈ blocksPrinted previous bs) : line = .blank ∨
      ∃ b ∈ bs, b.isSynthetic = false ∧ line = .label b.label ∨ ∃ item ∈ b.items, line = .item item := by
  induction bs generalizing previous with
  | nil => cases member
  | cons b bs ih =>
    rw [blocksPrinted, List.mem_append] at member
    rcases member with here | later
    · simp only [Block.printed, List.mem_append, List.mem_map] at here
      rcases here with (gap | named) | ⟨item, inside, rfl⟩
      · split at gap
        · exact .inl (List.mem_singleton.1 gap)
        · cases gap
      · split at named
        · cases named
        · rename_i notSynthetic
          exact .inr ⟨b, List.mem_cons_self, .inl ⟨by simpa using notSynthetic, List.mem_singleton.1 named⟩⟩
      · exact .inr ⟨b, List.mem_cons_self, .inr ⟨item, inside, rfl⟩⟩
    · rcases ih later with blank | ⟨b', inside, what⟩
      · exact .inl blank
      · exact .inr ⟨b', List.mem_cons_of_mem _ inside, what⟩

theorem WellFormed.printed {s : Script} (wellFormed : s.WellFormed) : ∀ line ∈ s.printed, line.WellFormed := by
  intro line member
  simp only [Script.printed, List.cons_append, List.mem_cons, List.mem_append, List.mem_map] at member
  rcases member with rfl | ⟨⟨e, name⟩, inTable, rfl⟩ | inBlocks
  · exact True.intro
  · have isEntry : (e, name) ∈ s.entries := (List.mergeSort_perm ..).mem_iff.1 inTable
    exact ⟨wellFormed.entryLabels _ isEntry, wellFormed.keys _ isEntry⟩
  · rcases mem_blocksPrinted inBlocks with rfl | ⟨b, inside, ⟨notSynthetic, rfl⟩ | ⟨item, inBlock, rfl⟩⟩
    · exact True.intro
    · obtain ⟨k, bound, rfl⟩ := List.getElem_of_mem inside
      rcases wellFormed.named k _ (List.getElem?_eq_getElem bound) with isLabel | ⟨-, synthetic, -⟩
      · exact isLabel
      · rw [Block.isSynthetic, synthetic] at notSynthetic
        cases notSynthetic
    · exact wellFormed.items item (List.mem_flatMap.2 ⟨b, inside, inBlock⟩)

/-- The text of a script is read as what its lines say. -/
theorem WellFormed.parse_toText {s : Script} (wellFormed : s.WellFormed) :
    ∃ found, SourceItem.parse s.toText = .ok found.flatten ∧ List.Forall₂ Line.States s.printed found := by
  have lines := wellFormed.printed
  have each : List.Forall₂ (fun text part => Writes text.toList part) s.lines (s.printed.map Line.lexemes) := by
    rw [lines_eq_printed, List.forall₂_map_left_iff, List.forall₂_map_right_iff, List.forall₂_same]
    exact fun line member => Line.writes (lines line member)
  have scans : Scans s.toText.toList ((s.printed.map Line.lexemes).flatMap (· ++ [.newline])) [] :=
    Scans.lines each (by simp [Script.lines])
  rw [List.flatMap_map] at scans
  obtain ⟨ts, last, scanned, same⟩ : ∃ ts last, TokenStream.scan s.toText = ⟨ts ++ [⟨.endOfInput, last⟩], none⟩ ∧
      ts.map (·.lexeme) = s.printed.flatMap fun line => line.lexemes ++ [.newline] :=
    scans.scanFrom_eq (by rw [String.length_toList]; exact Nat.lt_succ_self _)
  obtain ⟨found, states, read⟩ := @SourceItem.items_lines (.fault .endOfTokens) _ lines _ same last
  refine ⟨found, ?_, states⟩
  unfold SourceItem.parse
  rw [scanned]
  refine read _ ?_
  have count (lines : List Line) : lines.length ≤ (lines.flatMap fun line => line.lexemes ++ [.newline]).length := by
    induction lines with
    | nil => exact Nat.zero_le _
    | cons line lines ih =>
      simp only [List.flatMap_cons, List.length_append, List.length_cons]
      omega
  have bound := count s.printed
  rw [← same, List.length_map] at bound
  rw [List.length_append]
  omega

end Script

end EventScript
