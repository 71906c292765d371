import EventScript.Proofs.Relocation

namespace EventScript

/-- The parts lie under the span one after the other, and each has some characters. -/
structure Span.Encloses (whole : Span) (parts : List (Option Span)) : Prop where
  inside : ∀ part ∈ parts, ∃ s, part = some s ∧ whole.start ≤ s.start ∧ s.start < s.stop ∧ s.stop ≤ whole.stop
  ordered : parts.Pairwise fun part later => ∀ s ∈ part, ∀ s' ∈ later, s.stop ≤ s'.start

namespace Token

theorem between_extent {lo hi : Nat} {ts : List Token} (between : Between lo hi ts) (nonempty : ts ≠ []) :
    Between (extent ts).start (extent ts).stop ts := by
  induction ts generalizing lo with
  | nil => exact absurd rfl nonempty
  | cons t ts ih =>
    obtain ⟨_, stop, rest⟩ := between
    by_cases last : ts = []
    · subst last
      exact ⟨le_rfl, stop, le_rfl⟩
    · rw [extent_cons last]
      exact ⟨le_rfl, stop, (ih rest last).of_le (rest.extent last).1⟩

/-- The tokens stand one after the other, and each has some characters. -/
structure Apart (ts : List Token) : Prop where
  proper : ∀ t ∈ ts, t.span.start < t.span.stop
  ordered : ∃ lo hi, Between lo hi ts

theorem Apart.of_infix {ts us : List Token} (apart : Apart ts) (inside : us <:+: ts) : Apart us where
  proper t member := apart.proper t (inside.subset member)
  ordered := by
    obtain ⟨before, after, rfl⟩ := inside
    obtain ⟨lo, hi, ordered⟩ := apart.ordered
    exact ⟨lo, hi, ordered.left.right⟩

theorem Apart.extent_proper {ts : List Token} (apart : Apart ts) (nonempty : ts ≠ []) :
    (extent ts).start < (extent ts).stop := by
  cases ts with
  | nil => exact absurd rfl nonempty
  | cons t ts =>
    have proper := apart.proper t (List.mem_cons_self ..)
    by_cases last : ts = []
    · subst last
      exact proper
    · obtain ⟨lo, hi, -, -, rest⟩ := apart.ordered
      rw [extent_cons last]
      exact proper.trans_le ((rest.extent last).1.trans (rest.extent last).2.1)

end Token

namespace Grammar

open Token (extent Between Apart)

section Phrases

variable {α : Type} {element : List Token → α → Prop} {ts : List Token} {as : List α}

/-- Phrases one after the other, with any tokens around them. -/
inductive Laid (element : List Token → α → Prop) : List Token → List α → Prop
  | nil (ts : List Token) : Laid element ts []
  | cons (skipped : List Token) {ts us : List Token} {a : α} {as : List α} : element ts a → Laid element us as →
      Laid element (skipped ++ (ts ++ us)) (a :: as)

theorem Laid.whole {a : α} (isElement : element ts a) : Laid element ts [a] := by
  rw [← List.append_nil ts]
  exact .cons [] isElement (.nil [])

theorem Laid.skip (before : List Token) (laid : Laid element ts as) : Laid element (before ++ ts) as := by
  cases laid with
  | nil => exact .nil _
  | cons skipped isElement later =>
    rw [← List.append_assoc]
    exact .cons _ isElement later

theorem Further.laid {separator : List Token → Prop} (derived : Further separator element ts as) (rest : List Token) :
    Laid element (ts ++ rest) as := by
  induction derived with
  | nil => exact .nil rest
  | @cons s ts us a as _ isElement _ ih =>
    simp only [List.append_assoc]
    exact .cons s isElement ih

theorem Arguments.laid (derived : Arguments element ts as) : Laid element ts as := by
  cases derived with
  | absent | empty => exact .nil _
  | @list opening closing ts us a as _ isElement further _ => exact .cons [opening] isElement (further.laid [closing])

theorem Series.laid (derived : Series element ts as) : Laid element ts as := by
  cases derived with
  | none => exact .nil _
  | list isElement further =>
    have later := further.laid []
    rw [List.append_nil] at later
    exact .cons [] isElement later

theorem Laid.exists_phrase (laid : Laid element ts as) {a : α} (member : a ∈ as) : ∃ us, us <:+: ts ∧ element us a := by
  induction laid with
  | nil => cases member
  | @cons skipped ts us b as isElement _ ih =>
    rcases List.mem_cons.1 member with rfl | member
    · exact ⟨ts, ⟨skipped, us, by simp⟩, isElement⟩
    · obtain ⟨vs, inside, isElement⟩ := ih member
      exact ⟨vs, inside.trans (List.suffix_append_of_suffix (List.suffix_append ts us)).isInfix, isElement⟩

def Spanned (element : List Token → α → Prop) (span : α → Option Span) : Prop :=
  ∀ us a, element us a → us ≠ [] ∧ span a = some (extent us)

theorem Laid.encloses_between {span : α → Option Span} (spanned : Spanned element span) (laid : Laid element ts as)
    {lo hi : Nat} (proper : ∀ t ∈ ts, t.span.start < t.span.stop) (ordered : Between lo hi ts) :
    (⟨lo, hi⟩ : Span).Encloses (as.map span) := by
  induction laid generalizing lo with
  | nil => exact ⟨by simp, .nil⟩
  | @cons skipped ts us a as isElement _ ih =>
    obtain ⟨nonempty, isSpan⟩ := spanned ts a isElement
    obtain ⟨start, before, ordered⟩ := Token.between_append.1 ordered
    obtain ⟨stop, here, after⟩ := Token.between_append.1 ordered
    simp only [List.forall_mem_append] at proper
    have place := here.extent nonempty
    have some := Apart.extent_proper ⟨proper.2.1, _, _, here⟩ nonempty
    have later := ih proper.2.2 after
    have first := before.le
    have last := after.le
    refine ⟨?_, List.pairwise_cons.2 ⟨?_, later.ordered⟩⟩
    · rw [List.map_cons, List.forall_mem_cons]
      refine ⟨⟨extent ts, isSpan, first.trans place.1, some, place.2.2.trans last⟩, fun part member => ?_⟩
      obtain ⟨s, isSpan, low, bounds⟩ := later.inside part member
      exact ⟨s, isSpan, (first.trans here.le).trans low, bounds⟩
    · rintro part member s isFirst s' isLater
      obtain ⟨s'', rfl, low, -⟩ := later.inside part member
      rw [isSpan] at isFirst
      cases isFirst
      cases isLater
      exact place.2.2.trans low

theorem Laid.encloses {span : α → Option Span} (spanned : Spanned element span) (laid : Laid element ts as)
    (apart : Apart ts) : (extent ts).Encloses (as.map span) := by
  by_cases empty : ts = []
  · subst empty
    exact laid.encloses_between spanned apart.proper (le_refl 0)
  · obtain ⟨lo, hi, ordered⟩ := apart.ordered
    exact laid.encloses_between spanned apart.proper (Token.between_extent ordered empty)

end Phrases

theorem spanned_term : Spanned TermOf Operand.span := fun _ _ derived => ⟨ne_nil_of_starts derived.starts, derived.span⟩

theorem spanned_operand : Spanned OperandOf Operand.span :=
  fun _ _ derived => ⟨ne_nil_of_starts derived.starts, derived.span⟩

theorem spanned_command : Spanned CommandOf MessageCommand.span :=
  fun _ _ derived => ⟨ne_nil_of_starts derived.starts, derived.span⟩

theorem ArgumentOf.operand {ts : List Token} {o : Operand} (derived : ArgumentOf ts o) : OperandOf ts o := by
  cases derived with
  | integer lexeme => exact .term (.integer lexeme)
  | string lexeme => exact .string lexeme

theorem spanned_argument : Spanned ArgumentOf Operand.span := fun _ _ derived => spanned_operand _ _ derived.operand

/-- An item and the tokens it was read from. -/
inductive PhraseOf : List Token → SourceItem → Prop
  | label {t u : Token} {name : String} : t.lexeme = .identifier name → u.lexeme = .colon →
      PhraseOf [t, u] (.label name (extent [t, u]))
  | line {ts : List Token} {item : SourceItem} : LineOf ts item → PhraseOf ts item

theorem spanned_phrase : Spanned PhraseOf fun item => some item.span := by
  intro ts item derived
  cases derived with
  | label => exact ⟨by simp, rfl⟩
  | line isLine => cases isLine <;> exact ⟨by simp, rfl⟩

theorem PhraseOf.relocate {f : Nat → Nat} {ts : List Token} {item : SourceItem} (derived : PhraseOf ts item) :
    PhraseOf (ts.map (Token.relocate f)) (item.relocate f) := by
  cases derived with
  | label lexeme isColon => exact .label lexeme isColon
  | line isLine => exact .line isLine.relocate

theorem PhraseOf.file {ts : List Token} {item : SourceItem} {last : Token} (derived : PhraseOf ts item)
    (isLast : last.lexeme = .endOfInput) : FileOf (ts ++ [last]) [item] := by
  refine ⟨last, isLast, ?_⟩
  cases derived with
  | label lexeme isColon => exact .label lexeme isColon .nil
  | line isLine => exact .line isLine ⟨last, [], rfl, SourceItem.endsItem_iff.2 (.inr isLast)⟩ .nil

theorem ItemsOf.laid {rest ts : List Token} {found : List SourceItem} (derived : ItemsOf rest ts found) :
    ∃ front, ts = front ++ rest ∧ Laid PhraseOf front found := by
  induction derived with
  | nil => exact ⟨[], rfl, .nil []⟩
  | @newline t ts items _ _ ih =>
    obtain ⟨front, rfl, laid⟩ := ih
    exact ⟨t :: front, rfl, laid.skip [t]⟩
  | @label t u name ts items lexeme isColon _ ih =>
    obtain ⟨front, rfl, laid⟩ := ih
    exact ⟨t :: u :: front, rfl, .cons [] (.label lexeme isColon) laid⟩
  | @line ts us item items isLine _ _ ih =>
    obtain ⟨front, rfl, laid⟩ := ih
    exact ⟨ts ++ front, by simp, .cons [] (.line isLine) laid⟩

theorem mem_walk_folded {name : String} {args : List Operand} {span : Span} {o : Operand}
    (member : o ∈ (folded name args span).walk) : o = folded name args span ∨ o ∈ Operand.walkAll args := by
  unfold folded at member ⊢
  split at member
  case h_6 => simpa [Operand.walk] using member
  all_goals simp_all [Operand.walk]

theorem folded_eq_expr {name op : String} {args args' : List Operand} {span : Span} {s : Option Span}
    (same : folded name args span = .expr op args' s) : args' = args ∧ s = some span := by
  unfold folded at same
  split at same <;> simp_all

theorem exists_phrase_self {element : List Token → Operand → Prop} {ts : List Token} {o o' : Operand}
    (derived : element ts o) (member : o' ∈ [o]) : ∃ us, us <:+: ts ∧ element us o' := by
  obtain rfl := List.mem_singleton.1 member
  exact ⟨ts, List.infix_rfl, derived⟩

theorem TermOf.exists_phrase {ts : List Token} {o o' : Operand} (derived : TermOf ts o) (member : o' ∈ o.walk) :
    ∃ us, us <:+: ts ∧ TermOf us o' := by
  induction derived using TermOf.induction with
  | integer lexeme => exact exists_phrase_self (.integer lexeme) member
  | label lexeme => exact exists_phrase_self (.label lexeme) member
  | offset lexeme => exact exists_phrase_self (.offset lexeme) member
  | atom lexeme => exact exists_phrase_self (.atom lexeme) member
  | @operator t name us args lexeme known isArguments each =>
    rcases mem_walk_folded member with rfl | member
    · exact ⟨_, List.infix_rfl, .operator lexeme known isArguments⟩
    · rw [Operand.walkAll_eq_flatMap] at member
      obtain ⟨a, isArgument, member⟩ := List.mem_flatMap.1 member
      obtain ⟨vs, inside, _, inner⟩ := each.laid.exists_phrase isArgument
      obtain ⟨ws, inside', isTerm⟩ := inner member
      exact ⟨ws, (inside'.trans inside).trans (List.suffix_cons t us).isInfix, isTerm⟩

theorem OperandOf.exists_phrase {ts : List Token} {o o' : Operand} (derived : OperandOf ts o) (member : o' ∈ o.walk) :
    ∃ us, us <:+: ts ∧ OperandOf us o' := by
  cases derived with
  | string lexeme => exact exists_phrase_self (.string lexeme) member
  | elseLabel lexeme target => exact exists_phrase_self (.elseLabel lexeme target) member
  | elseOffset lexeme target => exact exists_phrase_self (.elseOffset lexeme target) member
  | term isTerm =>
    obtain ⟨us, inside, isTerm⟩ := isTerm.exists_phrase member
    exact ⟨us, inside, .term isTerm⟩

theorem OperandOf.encloses {ts : List Token} {o : Operand} (derived : OperandOf ts o) (apart : Apart ts) {op : String}
    {args : List Operand} {s : Option Span} (isExpr : o = .expr op args s) :
    (extent ts).Encloses (args.map Operand.span) := by
  cases derived with
  | string | elseLabel | elseOffset => cases isExpr
  | term isTerm =>
    cases isTerm with
    | integer | label | offset | atom => cases isExpr
    | @operator t name ts args' _ _ isArguments =>
      obtain ⟨rfl, -⟩ := folded_eq_expr isExpr
      exact (isArguments.laid.skip [t]).encloses spanned_term apart

end Grammar

/-- The text is read as `a`, and nothing of it is left but its end. -/
def SourceItem.ReadAs {α : Type} (reader : Error → List Token → Except Error (α × List Token)) (text : String) (a : α) :
    Prop :=
  (TokenStream.scan text).fault = none ∧
    ∃ last, last.lexeme = .endOfInput ∧ ∀ stop, reader stop (TokenStream.scan text).tokens = .ok (a, [last])

/-- The operand at a place. Its arguments lie under it in their order, and the characters there are read as it, with
places counted from the first of them. -/
structure Operand.Faithful (text : String) (s : Span) (o : Operand) : Prop where
  place : o.span = some s
  arguments : ∀ op args s', o = .expr op args s' → s.Encloses (args.map span)
  alone : SourceItem.ReadAs SourceItem.operand (s.slice text) (o.relocate (· - s.start))

structure MessageCommand.Faithful (text : String) (s : Span) (command : MessageCommand) : Prop where
  place : command.span = some s
  arguments : s.Encloses (command.args.map Operand.span)
  each : ∀ a ∈ command.args, ∃ s', a.Faithful text s'
  alone : ∀ opcode index,
    SourceItem.ReadAs (SourceItem.messageCommand · opcode index) (s.slice text) (command.relocate (· - s.start))

/-- The message body at a place, of an item. One without commands has no characters of its own, and the span of the
item. -/
structure MessageCommand.FaithfulBody (text : String) (item s : Span) (commands : List MessageCommand) : Prop where
  encloses : s.Encloses (commands.map span)
  each : ∀ command ∈ commands, ∃ s', command.Faithful text s'
  alone : commands ≠ [] → ∀ opcode, SourceItem.ReadAs
    (fun stop => SourceItem.operandList stop (SourceItem.messageCommand stop opcode)) (s.slice text)
    (commands.map (relocate (· - s.start)))
  bare : commands = [] → s = item

namespace SourceItem

open Grammar
open Token (extent Between Apart)

def operands : SourceItem → List Operand
  | label _ _ => []
  | directive _ operands _ | statement _ operands _ => operands

/-- The characters under the span of the item are read as the item alone, its operands lie under it in their order, and
so on inwards. -/
structure Faithful (text : String) (item : SourceItem) : Prop where
  alone : parse (item.span.slice text) = .ok [item.relocate (· - item.span.start)]
  operands : item.span.Encloses (item.operands.map Operand.span)
  each : ∀ o ∈ Operand.walkAll item.operands, (∃ s, o.Faithful text s) ∨
    ∃ commands s, o = .message commands (some s) ∧ MessageCommand.FaithfulBody text item.span s commands

section Slices

variable {α : Type} {text : String} {body used : List Token}

theorem scan_infix (tiled : Tiled text.toList 0 body) (inside : used <:+: body) (nonempty : used ≠ []) :
    ∃ last, last.lexeme = .endOfInput ∧ TokenStream.scan ((extent used).slice text) =
      ⟨used.map (Token.relocate (· - (extent used).start)) ++ [last], none⟩ := by
  obtain ⟨before, after, rfl⟩ := inside
  rw [List.append_assoc] at tiled
  exact ⟨_, rfl, TokenStream.scan_slice tiled nonempty⟩

theorem readAs_slice {element : List Token → α → Prop}
    {reader : Error → List Token → Except Error (α × List Token)}
    (reads : ∀ stop lo hi us a rest, element us a → Between lo hi (us ++ rest) → Ends rest →
      reader stop (us ++ rest) = .ok (a, rest))
    (tiled : Tiled text.toList 0 body) (inside : used <:+: body) (nonempty : used ≠ []) {a : α}
    (moved : element (used.map (Token.relocate (· - (extent used).start))) a) :
    ReadAs reader ((extent used).slice text) a := by
  obtain ⟨last, isLast, scanned⟩ := scan_infix tiled inside nonempty
  have ordered := (TokenStream.covers_scan ((extent used).slice text)).ordered
  rw [scanned] at ordered
  have ends : Ends [last] := ⟨last, [], rfl, endsItem_iff.2 (.inr isLast)⟩
  refine ⟨by rw [scanned], last, isLast, fun stop => ?_⟩
  rw [scanned]
  exact reads stop _ _ _ _ _ moved ordered ends

theorem operand_faithful (tiled : Tiled text.toList 0 body) (apart : Apart body) (inside : used <:+: body) {o : Operand}
    (derived : OperandOf used o) : o.Faithful text (extent used) where
  place := derived.span
  arguments _ _ _ isExpr := derived.encloses (apart.of_infix inside) isExpr
  alone := by
    refine readAs_slice (fun stop lo hi us a rest derived ordered ends => ?_) tiled inside
      (ne_nil_of_starts derived.starts) derived.relocate
    exact accepts_operand stop _ _ _ _ _ _ derived le_rfl ordered (ends.follows.weaken (by simp))

theorem command_faithful (tiled : Tiled text.toList 0 body) (apart : Apart body) (inside : used <:+: body)
    {command : MessageCommand} (derived : CommandOf used command) : command.Faithful text (extent used) := by
  have laid : Laid ArgumentOf used command.args := by
    cases derived with
    | string lexeme => exact .whole (.string lexeme)
    | @command t _ _ _ _ _ isArguments => exact isArguments.laid.skip [t]
  refine ⟨derived.span, laid.encloses spanned_argument (apart.of_infix inside), fun a member => ?_,
    fun opcode index => ?_⟩
  · obtain ⟨us, inside', isArgument⟩ := laid.exists_phrase member
    exact ⟨_, operand_faithful tiled apart (inside'.trans inside) isArgument.operand⟩
  · refine readAs_slice (fun stop lo hi us a rest derived ordered ends => ?_) tiled inside
      (ne_nil_of_starts derived.starts) derived.relocate
    exact accepts_messageCommand stop opcode index _ _ _ _ _ _ derived le_rfl ordered (ends.follows.weaken (by simp))

theorem body_faithful {t : Token} {commands : List MessageCommand} (tiled : Tiled text.toList 0 body)
    (apart : Apart body) (inside : t :: used <:+: body) (derived : Series CommandOf used commands) :
    MessageCommand.FaithfulBody text (extent (t :: used)) (if used = [] then t.span else extent used) commands := by
  have insideBody : used <:+: body := (List.suffix_cons t used).isInfix.trans inside
  have same : used = [] ↔ commands = [] := by
    rcases derived.ends with ⟨rfl, rfl⟩ | ⟨⟨us, after, first, rfl, isFirst, isCommand⟩, -⟩
    · simp
    · refine ⟨fun empty => ?_, ?_⟩
      · exact absurd (List.append_eq_nil_iff.1 empty).1 (ne_nil_of_starts isCommand.starts)
      · rintro rfl
        cases isFirst
  refine ⟨?_, fun command member => ?_, fun nonempty opcode => ?_, fun bare => ?_⟩
  · by_cases empty : used = []
    · rw [same.1 empty]
      exact ⟨by simp, .nil⟩
    · rw [if_neg empty]
      exact derived.laid.encloses spanned_command (apart.of_infix insideBody)
  · obtain ⟨us, inside', isCommand⟩ := derived.laid.exists_phrase member
    exact ⟨_, command_faithful tiled apart (inside'.trans insideBody) isCommand⟩
  · have notEmpty : used ≠ [] := fun empty => nonempty (same.1 empty)
    rw [if_neg notEmpty]
    refine readAs_slice (fun stop lo hi us a rest derived ordered ends => ?_) tiled insideBody notEmpty
      (derived.map (fun _ => rfl) fun _ _ => CommandOf.relocate)
    exact operandList_of_series stop (accepts_messageCommand stop opcode) (fun _ _ => CommandOf.starts) derived ordered
      ends
  · rw [same.2 bare]
    rfl

theorem body_encloses {t : Token} (apart : Apart (t :: used)) :
    (extent (t :: used)).Encloses [some (if used = [] then t.span else extent used)] := by
  have spanned : Spanned (fun us s => us ≠ [] ∧ s = some (extent us)) id := fun _ _ both => both
  suffices laid : Laid (fun us s => us ≠ [] ∧ s = some (extent us)) (t :: used)
      [some (if used = [] then t.span else extent used)] from laid.encloses spanned apart
  by_cases empty : used = []
  · subst empty
    exact .whole ⟨List.cons_ne_nil t [], rfl⟩
  · rw [if_neg empty]
    exact Laid.skip [t] (.whole ⟨empty, rfl⟩)

theorem phrase_alone (tiled : Tiled text.toList 0 body) (inside : used <:+: body) {item : SourceItem}
    (derived : PhraseOf used item) :
    parse (item.span.slice text) = .ok [item.relocate (· - item.span.start)] := by
  obtain ⟨nonempty, isSpan⟩ := spanned_phrase used item derived
  obtain ⟨last, isLast, scanned⟩ := scan_infix tiled inside nonempty
  rw [Option.some.inj isSpan, parse_eq_ok, scanned]
  exact ⟨rfl, derived.relocate.file isLast⟩

theorem series_faithful {t : Token} {os : List Operand} (tiled : Tiled text.toList 0 body) (apart : Apart body)
    (inside : t :: used <:+: body) (derived : Series OperandOf used os) :
    (extent (t :: used)).Encloses (os.map Operand.span) ∧
      ∀ o ∈ Operand.walkAll os, ∃ s, o.Faithful text s := by
  refine ⟨(derived.laid.skip [t]).encloses spanned_operand (apart.of_infix inside), fun o member => ?_⟩
  rw [Operand.walkAll_eq_flatMap] at member
  obtain ⟨a, isOperand, member⟩ := List.mem_flatMap.1 member
  obtain ⟨us, insideUsed, isOperand⟩ := derived.laid.exists_phrase isOperand
  obtain ⟨vs, insideOperand, isOperand⟩ := isOperand.exists_phrase member
  have insideItem : vs <:+: t :: used := (insideOperand.trans insideUsed).trans (List.suffix_cons t used).isInfix
  exact ⟨_, operand_faithful tiled apart (insideItem.trans inside) isOperand⟩

theorem phrase_faithful (tiled : Tiled text.toList 0 body) (apart : Apart body) (inside : used <:+: body)
    {item : SourceItem} (derived : PhraseOf used item) : item.Faithful text := by
  have alone := phrase_alone tiled inside derived
  cases derived with
  | label => exact ⟨alone, ⟨by simp [operands], .nil⟩, by simp [operands, Operand.walkAll]⟩
  | line isLine =>
    cases isLine with
    | directive _ series | statement _ _ series =>
      obtain ⟨encloses, each⟩ := series_faithful tiled apart inside series
      exact ⟨alone, encloses, fun o member => .inl (each o member)⟩
    | @message t name ts commands _ _ series =>
      have body := body_faithful tiled apart inside series
      refine ⟨alone, ?_, fun o member => .inr ⟨commands, _, ?_, body⟩⟩
      · exact body_encloses (apart.of_infix inside)
      · simpa [operands, Operand.walkAll, Operand.walk] using member

end Slices

/-- The items of a text and all their parts have the spans of what they were read from. -/
theorem parse_faithful {text : String} {found : List SourceItem} (read : parse text = .ok found) :
    (⟨0, text.length⟩ : Span).Encloses (found.map fun item => some item.span) ∧
      ∀ item ∈ found, item.Faithful text := by
  obtain ⟨complete, last, -, derived⟩ := parse_eq_ok.1 read
  obtain ⟨body, scanned, tiled⟩ := TokenStream.exists_tiled complete
  obtain ⟨front, split, laid⟩ := derived.laid
  rw [scanned] at split
  obtain ⟨rfl, -⟩ := List.append_inj' split rfl
  have ordered := (TokenStream.covers_scan text).ordered
  rw [scanned, Nat.zero_add, String.length_toList] at ordered
  have proper : ∀ t ∈ body, t.span.start < t.span.stop := fun t member => (tiled.proper t member).2.2.1
  refine ⟨laid.encloses_between spanned_phrase proper ordered.left, fun item member => ?_⟩
  obtain ⟨used, inside, isPhrase⟩ := laid.exists_phrase member
  exact phrase_faithful tiled ⟨proper, _, _, ordered.left⟩ inside isPhrase

def nestedText : String :=
  "top:; a\nif eq(add(result, i8(1)), addr(*top.w)),\n else *top\nmsg \"a\", wait(1),\n\"b\"\nmsg"

theorem parse_faithful_nested : ∃ found, parse nestedText = .ok found ∧
    found.map (·.span) = [⟨0, 4⟩, ⟨8, 59⟩, ⟨60, 81⟩, ⟨82, 85⟩] ∧
    (⟨0, nestedText.length⟩ : Span).Encloses (found.map fun item => some item.span) ∧
    ∀ item ∈ found, item.Faithful nestedText := by
  have read : (parse nestedText).toOption.map (·.map (·.span)) = some [⟨0, 4⟩, ⟨8, 59⟩, ⟨60, 81⟩, ⟨82, 85⟩] := by
    decide +kernel
  obtain ⟨found, isFound, spans⟩ := Option.map_eq_some_iff.1 read
  have parsed := toOption_eq_some.1 isFound
  exact ⟨found, parsed, spans, parse_faithful parsed⟩

/-- The body of a message is no operand by itself: the characters of this one are read as a string. -/
theorem messageBody_notOperand : ∃ o s,
    parse "msg \"a\"" = .ok [.statement "msg" [o] ⟨0, 7⟩] ∧ o.span = some s ∧
      ∀ o', ReadAs operand (s.slice "msg \"a\"") o' → o'.same o = false := by
  refine ⟨.message [⟨"text", [.text [0x61] (some ⟨4, 7⟩)], some ⟨4, 7⟩⟩] (some ⟨4, 7⟩), ⟨4, 7⟩, rfl, rfl, ?_⟩
  rintro o' ⟨-, last, -, read⟩
  have asString : operand (.fault .endOfTokens) (TokenStream.scan ((⟨4, 7⟩ : Span).slice "msg \"a\"")).tokens =
      .ok (.text [0x61] (some ⟨0, 3⟩), [⟨.endOfInput, ⟨3, 3⟩⟩]) := rfl
  rw [read] at asString
  cases asString
  simp [Operand.same]

end SourceItem

end EventScript
