import EventScript.Proofs.Scanning
import EventScript.Proofs.Spans

namespace EventScript

namespace Lexeme

def parenthesized (args : List (List Lexeme)) : List Lexeme :=
  if args.isEmpty then [] else .openParen :: ([.comma].intercalate args ++ [.closeParen])

def call (name : String) (args : List (List Lexeme)) : List Lexeme := .identifier name :: parenthesized args

def elseWords (isElse : Bool) : List Lexeme := if isElse then [.elseWord] else []

def further (lines : Nat) (parts : List (List Lexeme)) : List Lexeme :=
  parts.flatMap fun part => .comma :: (List.replicate lines .newline ++ part)

theorem further_cons (lines : Nat) (part : List Lexeme) (parts : List (List Lexeme)) :
    further lines (part :: parts) =
      .comma :: (List.replicate lines .newline ++ (part ++ further lines parts)) := by
  simp [further]

theorem intercalate_cons (lines : Nat) (part : List Lexeme) (parts : List (List Lexeme)) :
    (.comma :: List.replicate lines .newline).intercalate (part :: parts) = part ++ further lines parts := by
  induction parts generalizing part with
  | nil => simp [further]
  | cons next parts ih => simp [List.intercalate_cons_cons, ih, further_cons]

theorem length_further (lines : Nat) (parts : List (List Lexeme)) : parts.length ≤ (further lines parts).length := by
  induction parts with
  | nil => exact Nat.zero_le _
  | cons part parts ih =>
    rw [further_cons]
    simp only [List.length_cons, List.length_append]
    omega

theorem length_further_of_mem {lines : Nat} {parts : List (List Lexeme)} {part : List Lexeme} (member : part ∈ parts) :
    part.length + parts.length ≤ (further lines parts).length := by
  induction parts with
  | nil => cases member
  | cons first parts ih =>
    rw [further_cons]
    simp only [List.length_cons, List.length_append]
    rcases List.mem_cons.1 member with rfl | later
    · have := length_further lines parts
      omega
    · have := ih later
      omega

theorem length_parenthesized {parts : List (List Lexeme)} {part : List Lexeme} (member : part ∈ parts) :
    part.length + parts.length ≤ (parenthesized parts).length := by
  cases parts with
  | nil => cases member
  | cons first parts =>
    have bound : part.length + (first :: parts).length ≤ (further 0 (first :: parts)).length :=
      length_further_of_mem member
    have unfolded := intercalate_cons 0 first parts
    rw [List.replicate_zero] at unfolded
    rw [further_cons] at bound
    simp only [List.length_cons, List.length_append, List.replicate_zero, List.nil_append] at bound
    simp only [parenthesized, List.isEmpty_cons, Bool.false_eq_true, if_false, unfolded, List.length_cons,
      List.length_append]
    omega

theorem le_length_parenthesized (parts : List (List Lexeme)) : parts.length ≤ (parenthesized parts).length := by
  cases parts with
  | nil => exact Nat.zero_le _
  | cons first parts => exact Nat.le_trans (Nat.le_add_left _ _) (length_parenthesized List.mem_cons_self)

end Lexeme

def Operand.leafLexemes : Operand → List Lexeme
  | int value width _ => [.integer value width]
  | atom name _ => [.atom name]
  | text bytes _ => [.string bytes]
  | label name width isElse _ => Lexeme.elseWords isElse ++ [.label name width]
  | offset value width isElse _ => Lexeme.elseWords isElse ++ [.offset value.toNat width]
  | expr .. | message .. => []

def MessageCommand.lexemes (command : MessageCommand) : List Lexeme :=
  if command.isText then command.args.flatMap Operand.leafLexemes
  else Lexeme.call command.op (command.args.map Operand.leafLexemes)

mutual

def Operand.lexemes : Operand → List Lexeme
  | .expr op args _ => Lexeme.call op (Operand.allLexemes args)
  | .message commands _ => [.comma, .newline].intercalate (commands.map MessageCommand.lexemes)
  | o => o.leafLexemes

def Operand.allLexemes : List Operand → List (List Lexeme)
  | [] => []
  | o :: os => o.lexemes :: Operand.allLexemes os

end

def Item.lexemes : Item → List Lexeme
  | instruction i => .identifier i.opcode :: [.comma].intercalate (i.operands.map Operand.lexemes)
  | data d => .directive d.width.directive :: [.comma].intercalate (d.values.map Operand.lexemes)

theorem Operand.lexemes_of_leaf {o : Operand} (notExpr : ∀ op args span, o ≠ .expr op args span)
    (notMessage : ∀ commands span, o ≠ .message commands span) : o.lexemes = o.leafLexemes := by
  cases o with
  | expr op args span => exact absurd rfl (notExpr op args span)
  | message commands span => exact absurd rfl (notMessage commands span)
  | _ => simp [lexemes]

theorem Operand.allLexemes_eq_map (os : List Operand) : allLexemes os = os.map lexemes := by
  induction os with
  | nil => rfl
  | cons o os ih => rw [allLexemes, ih, List.map_cons]

instance (name : String) : Decidable (Lexeme.IsName name) := inferInstanceAs (Decidable (_ ∧ _))

instance (name : String) : Decidable (Lexeme.IsLabel name) := inferInstanceAs (Decidable (_ ∧ _))

theorem Operator.isLabel_name {o : Operator} (member : o ∈ all) : Lexeme.IsLabel o.name := by
  have table : ∀ o ∈ all, Lexeme.IsLabel o.name := by decide +kernel
  exact table o member

theorem Command.isLabel_name {c : Command} (member : c ∈ all) : Lexeme.IsLabel c.name := by
  have table : ∀ c ∈ all, Lexeme.IsLabel c.name := by decide +kernel
  exact table c member

theorem MessageOp.isLabel_name {m : MessageOp} (member : m ∈ all) : Lexeme.IsLabel m.name := by
  have table : ∀ m ∈ all, Lexeme.IsLabel m.name := by decide +kernel
  exact table m member

theorem Width.isName_directive (w : Width) : Lexeme.IsName w.directive := by
  cases w <;> decide +kernel

namespace Writes

theorem call {name : String} (isLabel : Lexeme.IsLabel name) {texts : List String} {args : List (List Lexeme)}
    (each : List.Forall₂ (fun text part => Writes text.toList part) texts args) :
    Writes (if texts.isEmpty then name else name ++ "(" ++ ", ".intercalate texts ++ ")").toList
      (Lexeme.call name args) := by
  have word := identifier isLabel.1 isLabel.2
  cases each with
  | nil => exact word
  | cons here others =>
    have body := (commas (.cons here others)).append (by decide) nil.closeParen
    simpa [Lexeme.call, Lexeme.parenthesized] using word.append (by decide) body.openParen

theorem elseText {text : String} {lexemes : List Lexeme} (writes : Writes text.toList lexemes) (isElse : Bool) :
    Writes (elseText isElse text).toList (Lexeme.elseWords isElse ++ lexemes) := by
  cases isElse with
  | false => exact writes
  | true =>
    have isName : Lexeme.IsName "else" := by decide +kernel
    have separated := (word isName).append (by decide) (writes.blank (c := ' ') (by decide))
    simpa [EventScript.elseText, Lexeme.elseWords] using separated

end Writes

namespace Operand

theorem writes_leaf {o : Operand} (spelled : o.Spelled) (notExpr : ∀ op args span, o ≠ .expr op args span) :
    Writes o.toText.toList o.leafLexemes := by
  cases o with
  | int value width span => simpa [toText, leafLexemes] using Writes.integer spelled width
  | atom name span => simpa [toText, leafLexemes] using Writes.atom spelled
  | text bytes span => simpa [toText, leafLexemes, Text.quote] using Writes.string bytes
  | label name width isElse span =>
    apply Writes.elseText
    simpa using Writes.label spelled width
  | offset value width isElse span =>
    apply Writes.elseText
    simpa using Writes.offset spelled.1 spelled.2 width
  | expr op args span => exact absurd rfl (notExpr op args span)
  | message => cases spelled

theorem writes {o : Operand} (spelled : o.IsSpelled) : Writes o.toText.toList o.lexemes := by
  induction o using expr_induction with
  | leaf o notExpr =>
    have leaf := (isSpelled_leaf notExpr).1 spelled
    have notMessage : ∀ commands span, o ≠ .message commands span := by
      rintro commands span rfl
      exact leaf
    exact lexemes_of_leaf notExpr notMessage ▸ writes_leaf leaf notExpr
  | expr op args span ih =>
    obtain ⟨⟨operator, member, rfl, -⟩, argsSpelled⟩ := isSpelled_expr.1 spelled
    have each : List.Forall₂ (fun text part => Writes text.toList part) (args.map toText) (args.map lexemes) := by
      rw [List.forall₂_map_left_iff, List.forall₂_map_right_iff, List.forall₂_same]
      exact fun a isArg => ih a isArg (argsSpelled a isArg)
    have written := Writes.call (Operator.isLabel_name member) each
    simpa [toText, lexemes, toTexts_eq_map, allLexemes_eq_map] using written

end Operand

namespace MessageCommand

theorem writes_argument {a : Operand} (isArgument : a.IsArgument) : Writes a.toText.toList a.leafLexemes := by
  cases a with
  | int value width span => exact Operand.writes_leaf isArgument (by simp)
  | text bytes span => exact Operand.writes_leaf True.intro (by simp)
  | _ => cases isArgument

theorem exists_colour {args : List Operand} {m : MessageOp} (member : m ∈ MessageOp.all)
    (named : m.name = MessageCommand.colourName)
    (fits : ∃ shape ∈ m.shapes, List.Forall₂ (fun slot o => slot.acceptsField o = true) shape args) :
    ∃ value width span, args = [.int value width span] := by
  have table : ∀ m ∈ MessageOp.all, m.name = MessageCommand.colourName → m.shapes = [[MessageOp.rgba]] := by
    decide +kernel
  obtain ⟨shape, form, accepted⟩ := fits
  rw [table m member named, List.mem_singleton] at form
  subst form
  cases accepted with
  | cons here others =>
    rename_i a args
    cases others
    cases a with
    | int value width span => exact ⟨value, width, span, rfl⟩
    | _ => cases here

theorem writes {command : MessageCommand} (normal : command.IsNormal) :
    Writes command.toText.toList command.lexemes := by
  obtain ⟨op, args, span⟩ := command
  unfold IsNormal at normal
  by_cases text : (op == MessageOp.textName) = true
  · rw [isText, if_pos text] at normal
    obtain ⟨bytes, argSpan, rfl, -, -⟩ := normal
    have written := writes_argument (a := .text bytes argSpan) True.intro
    simpa [toText, lexemes, isText, text, Operand.toTexts] using written
  · rw [isText, if_neg text] at normal
    obtain ⟨m, member, rfl, fits, arguments⟩ := normal
    have isLabel := MessageOp.isLabel_name member
    have same : lexemes ⟨m.name, args, span⟩ = Lexeme.call m.name (args.map Operand.leafLexemes) := by
      simp [lexemes, isText, text]
    rw [same]
    by_cases colour : (m.name == colourName) = true
    · obtain ⟨value, width, argSpan, rfl⟩ := exists_colour member (by simpa using colour) fits
      obtain ⟨inRange, bare⟩ := arguments _ (List.mem_singleton.2 rfl)
      obtain rfl : width = none := by
        cases bare
        rfl
      -- Both texts of a colour are scanned to its number.
      have written :
          Writes (colourText value (Operand.toText (.int value none argSpan))).toList [.integer value none] := by
        unfold colourText
        split
        · rename_i nonneg
          simpa using Writes.colour nonneg inRange
        · exact writes_argument (a := .int value none argSpan) inRange
      have called := Writes.call isLabel (.cons written .nil)
      simpa [toText, text, colour, Operand.toTexts, Operand.number?, Operand.leafLexemes] using called
    · have each : List.Forall₂ (fun text part => Writes text.toList part) (args.map Operand.toText)
          (args.map Operand.leafLexemes) := by
        rw [List.forall₂_map_left_iff, List.forall₂_map_right_iff, List.forall₂_same]
        exact fun a isArg => writes_argument (arguments a isArg).1
      have called := Writes.call isLabel each
      simpa [toText, text, colour, Operand.toTexts_eq_map] using called

end MessageCommand

namespace Item

theorem writes_operands {os : List Operand} (each : ∀ o ∈ os, Writes o.toText.toList o.lexemes) :
    Writes (", ".intercalate (Operand.toTexts os)).toList ([.comma].intercalate (os.map Operand.lexemes)) := by
  apply Writes.commas
  rw [Operand.toTexts_eq_map, List.forall₂_map_left_iff, List.forall₂_map_right_iff, List.forall₂_same]
  exact each

theorem writes_message {commands : List MessageCommand} (normal : ∀ command ∈ commands, command.IsNormal)
    (span : Option Span) :
    Writes (Operand.message commands span).toText.toList (Operand.message commands span).lexemes := by
  rw [Operand.toText, Operand.lexemes, MessageCommand.toTexts_eq_map]
  apply Writes.commaLines
  rw [List.forall₂_map_left_iff, List.forall₂_map_right_iff, List.forall₂_same]
  exact fun command member => MessageCommand.writes (normal command member)

theorem lexemes_of_areSilent {os : List Operand} (silent : Operand.areSilent os = true) :
    [.comma].intercalate (os.map Operand.lexemes) = [] := by
  unfold Operand.areSilent at silent
  split at silent
  · rfl
  · simp [Operand.lexemes]
  · cases silent

theorem writes {item : Item} (wellFormed : item.WellFormed) : Writes item.toText.toList item.lexemes := by
  cases item with
  | instruction i =>
    obtain ⟨c, member, named, takes⟩ := wellFormed
    have isLabel := Command.isLabel_name member
    rw [named] at isLabel
    have opcode := Writes.identifier isLabel.1 isLabel.2
    have each : ∀ o ∈ i.operands, Writes o.toText.toList o.lexemes := by
      by_cases message : c.layout = .message
      · simp only [Command.Takes, message] at takes
        obtain ⟨commands, span, same, normal⟩ := takes
        rw [same]
        simpa using writes_message normal.each span
      · obtain ⟨shape, -, spelled, -⟩ := (Command.takes_iff message).1 takes
        exact fun o inside => Operand.writes (spelled o inside)
    rw [toText_instruction]
    split
    · rename_i silent
      simpa [lexemes, lexemes_of_areSilent silent] using opcode.blank (c := '\t') (by decide)
    · have line := opcode.append (by decide) ((writes_operands each).blank (c := '\t') (by decide))
      simpa [lexemes] using line.blank (c := '\t') (by decide)
  | data d =>
    obtain ⟨-, each⟩ := wellFormed
    have line := (Writes.directive d.width.isName_directive).append (by decide)
      ((writes_operands fun o inside => Operand.writes (each o inside).2).blank (c := '\t') (by decide))
    simpa [toText, lexemes] using line.blank (c := '\t') (by decide)

end Item

namespace SourceItem

variable {α β : Type} (stop : Error) {view : α → β}

def Follows (others : List Lexeme) (rest : List Token) : Prop := ∃ t ts, rest = t :: ts ∧ t.lexeme ∉ others

def Recovers (view : α → β) (reader : List Token → Except Error (α × List Token)) (lexemes : List Lexeme) (a : α) :
    Prop :=
  ∀ ts rest, ts.map (·.lexeme) = lexemes → Follows [.openParen] rest →
    ∃ a', reader (ts ++ rest) = .ok (a', rest) ∧ view a' = view a

theorem follows_further {lines : Nat} {parts : List (List Lexeme)} {ts rest : List Token}
    (same : ts.map (·.lexeme) = Lexeme.further lines parts) (follows : Follows [.openParen, .comma] rest) :
    Follows [.openParen] (ts ++ rest) := by
  cases parts with
  | nil =>
    obtain rfl : ts = [] := by simpa [Lexeme.further] using same
    obtain ⟨t, ts, rfl, notThese⟩ := follows
    exact ⟨t, ts, rfl, fun isParen => notThese (by simp_all)⟩
  | cons part parts =>
    rw [Lexeme.further_cons, List.map_eq_cons_iff] at same
    obtain ⟨comma, ts, rfl, isComma, -⟩ := same
    exact ⟨comma, ts ++ rest, rfl, by simp [isComma]⟩

theorem recovers_commaTail {one : List Token → Except Error (α × List Token)} {lexemes : α → List Lexeme}
    {as : List α} (each : ∀ a ∈ as, Recovers view one (lexemes a) a) {fuel : Nat} (enough : as.length < fuel)
    {ts rest : List Token} (same : ts.map (·.lexeme) = Lexeme.further 0 (as.map lexemes))
    (follows : Follows [.openParen, .comma] rest) :
    ∃ as', commaTail stop one fuel (ts ++ rest) = .ok (as', rest) ∧ as'.map view = as.map view := by
  induction as generalizing fuel ts with
  | nil =>
    obtain rfl : ts = [] := by simpa [Lexeme.further] using same
    obtain ⟨t, ts, rfl, notThese⟩ := follows
    cases fuel with
    | zero => cases enough
    | succ fuel => exact ⟨[], by simp_all [commaTail], rfl⟩
  | cons a as ih =>
    obtain ⟨here, others⟩ := List.forall_mem_cons.1 each
    cases fuel with
    | zero => cases enough
    | succ fuel =>
      rw [List.map_cons, Lexeme.further_cons, List.replicate_zero, List.nil_append, List.map_eq_cons_iff] at same
      obtain ⟨comma, ts, rfl, isComma, same⟩ := same
      obtain ⟨first, later, rfl, isFirst, isLater⟩ := List.map_eq_append_iff.1 same
      obtain ⟨a', read, sameHere⟩ := here first (later ++ rest) isFirst (follows_further isLater follows)
      obtain ⟨as', tail, sameLater⟩ := ih others (Nat.lt_of_succ_lt_succ enough) isLater
      refine ⟨a' :: as', ?_, by simp [sameHere, sameLater]⟩
      rw [List.cons_append, List.append_assoc, commaTail, if_pos (by simp [isComma]), read]
      change (commaTail stop one fuel (later ++ rest) >>= _) = _
      rw [tail]
      rfl

/-- The tokens start what can stand in a list. -/
def Starts (lexemes : List Lexeme) : Prop :=
  ∃ first others, lexemes = first :: others ∧ first ∉ [.closeParen, .colon, .newline, .endOfInput]

theorem recovers_arguments {one : List Token → Except Error (α × List Token)} {lexemes : α → List Lexeme}
    {as : List α} (each : ∀ a ∈ as, Recovers view one (lexemes a) a) (starts : ∀ a ∈ as, Starts (lexemes a))
    {fuel : Nat} (enough : as.length ≤ fuel) (nameSpan : Span) {ts rest : List Token}
    (same : ts.map (·.lexeme) = Lexeme.parenthesized (as.map lexemes)) (follows : Follows [.openParen] rest) :
    ∃ as' last, arguments stop one fuel nameSpan (ts ++ rest) = .ok (as', last, rest) ∧
      as'.map view = as.map view := by
  cases as with
  | nil =>
    obtain rfl : ts = [] := by simpa [Lexeme.parenthesized] using same
    obtain ⟨t, ts, rfl, notThese⟩ := follows
    exact ⟨[], nameSpan, by simp_all [arguments], rfl⟩
  | cons a as =>
    obtain ⟨here, others⟩ := List.forall_mem_cons.1 each
    have unfolded : Lexeme.parenthesized ((a :: as).map lexemes) =
        .openParen :: (lexemes a ++ (Lexeme.further 0 (as.map lexemes) ++ [.closeParen])) := by
      have list := Lexeme.intercalate_cons 0 (lexemes a) (as.map lexemes)
      rw [List.replicate_zero] at list
      simp [Lexeme.parenthesized, list]
    rw [unfolded, List.map_eq_cons_iff] at same
    obtain ⟨opening, ts, rfl, isOpening, same⟩ := same
    obtain ⟨first, later, rfl, isFirst, same⟩ := List.map_eq_append_iff.1 same
    obtain ⟨tail, closing, rfl, isTail, same⟩ := List.map_eq_append_iff.1 same
    obtain ⟨close, none, rfl, isClose, nothing⟩ := List.map_eq_cons_iff.1 same
    obtain rfl : none = [] := by simpa using nothing
    have closes : Follows [.openParen, .comma] (close :: rest) := ⟨close, rest, rfl, by simp [isClose]⟩
    obtain ⟨a', read, sameHere⟩ := here first _ isFirst (follows_further isTail closes)
    obtain ⟨as', readTail, sameLater⟩ := recovers_commaTail stop others enough isTail closes
    obtain ⟨l, ls, split, notThese⟩ := starts a List.mem_cons_self
    rw [split, List.map_eq_cons_iff] at isFirst
    obtain ⟨u, us, rfl, isStart, -⟩ := isFirst
    have notClose : u.lexeme ≠ .closeParen := fun isClose => notThese (by simp [← isStart, isClose])
    refine ⟨a' :: as', close.span, ?_, by simp [sameHere, sameLater]⟩
    simp only [List.cons_append, List.append_assoc, List.nil_append] at read ⊢
    rw [arguments, if_pos (by simp [isOpening])]
    dsimp only
    rw [if_neg (by simpa using notClose), read]
    change (commaTail stop one fuel (tail ++ close :: rest) >>= _) = _
    rw [readTail]
    change (if (close.lexeme == .closeParen) = true then _ else _) = _
    rw [if_pos (by simp [isClose])]

end SourceItem

def Operand.isTerm : Operand → Bool
  | int .. | atom .. | expr .. => true
  | label _ _ isElse _ | offset _ _ isElse _ => !isElse
  | text .. | message .. => false

def Slot.takesTerm : Slot → Bool
  | elsePointer | message | text | format | field _ => false
  | _ => true

theorem Slot.isTerm_of_accepts {slot : Slot} (takes : slot.takesTerm = true) {o : Operand}
    (accepts : slot.accepts o = true) : o.isTerm = true := by
  cases slot <;> cases takes
  all_goals
    cases o <;> first
      | rfl
      | cases accepts
      | simp_all [Slot.accepts, Operand.isExpression, Operand.isTerm, Operand.isReference, Operand.isElse]

theorem Operator.takesTerm_of_mem {o : Operator} (member : o ∈ all) {shape : Shape} (form : shape ∈ o.shapes)
    {slot : Slot} (inForm : slot ∈ shape) : slot.takesTerm = true := by
  have table : ∀ o ∈ all, ∀ shape ∈ o.shapes, ∀ slot ∈ shape, slot.takesTerm = true := by decide +kernel
  exact table o member shape form slot inForm

namespace SourceItem

theorem isTerm_of_checked {op : String} {args : List Operand} {span : Option Span}
    (checked : (Operand.expr op args span).checkExpression = .ok ()) :
    ∀ a ∈ args, a.isTerm = true ∧ a.checkExpression = .ok () := by
  obtain ⟨o, member, rfl, ⟨shape, chosen⟩, argsChecked⟩ := Operand.checkExpression_expr checked
  obtain ⟨form, fits⟩ := (Shape.choose_eq_ok (Operator.regular member).separate Slot.not_accepts_of_exclusive).1 chosen
  intro a isArg
  obtain ⟨slot, inForm, accepts⟩ := fits.exists_slot isArg
  have takes : slot.takesTerm = true := by
    rcases inForm with inForm | rfl
    · exact Operator.takesTerm_of_mem member form inForm
    · rfl
  exact ⟨Slot.isTerm_of_accepts takes accepts, argsChecked a isArg⟩

theorem starts_leaf {o : Operand} (notExpr : ∀ op args span, o ≠ .expr op args span)
    (notMessage : ∀ commands span, o ≠ .message commands span) : Starts o.leafLexemes := by
  cases o with
  | label name width isElse span | offset value width isElse span =>
    cases isElse <;> exact ⟨_, _, rfl, by simp⟩
  | expr op args span => exact absurd rfl (notExpr op args span)
  | message commands span => exact absurd rfl (notMessage commands span)
  | _ => exact ⟨_, _, rfl, by simp⟩

theorem starts_operand {o : Operand} (notMessage : ∀ commands span, o ≠ .message commands span) :
    Starts o.lexemes := by
  cases o with
  | expr op args span =>
    rw [Operand.lexemes]
    exact ⟨_, _, rfl, by simp⟩
  | message commands span => exact absurd rfl (notMessage commands span)
  | _ =>
    simp only [Operand.lexemes]
    exact starts_leaf (by simp) (by simp)

theorem call_withoutSpans {op : String} {args args' : List Operand} {span : Option Span}
    (spelled : (Operand.expr op args span).Spelled)
    (same : args'.map Operand.withoutSpans = args.map Operand.withoutSpans) (nameSpan callSpan : Span) :
    ∃ o, call op args' nameSpan callSpan = .ok o ∧ o.withoutSpans = (Operand.expr op args span).withoutSpans := by
  obtain ⟨operator, member, rfl, unfolded⟩ := spelled
  -- An operator that stands for a literal or a reference is not called with one.
  have single {a' : Operand} (only : args' = [a']) : ∃ a, args = [a] ∧ a.withoutSpans = a'.withoutSpans := by
    rw [only, List.map_singleton] at same
    obtain ⟨a, rest, rfl, here, nothing⟩ := List.map_eq_cons_iff.1 same.symm
    obtain rfl : rest = [] := by simpa using nothing
    exact ⟨a, rfl, here⟩
  refine ⟨.expr operator.name args' (some callSpan), ?_, ?_⟩
  · unfold call
    rw [Operator.ofName?_eq_some.2 ⟨member, rfl⟩]
    dsimp only
    split
    · rename_i width value w s role
      obtain ⟨a, only, here⟩ := single rfl
      have isInt := congrArg Operand.isInt here
      rw [Operand.isInt_withoutSpans, Operand.isInt_withoutSpans, (unfolded a only).1 width role] at isInt
      cases isInt
    · rename_i role
      obtain ⟨a, only, here⟩ := single rfl
      have isRef := congrArg Operand.isReference here
      rw [Operand.isReference_withoutSpans, Operand.isReference_withoutSpans, (unfolded a only).2 role] at isRef
      cases isRef
    · rename_i role
      obtain ⟨a, only, here⟩ := single rfl
      have isRef := congrArg Operand.isReference here
      rw [Operand.isReference_withoutSpans, Operand.isReference_withoutSpans, (unfolded a only).2 role] at isRef
      cases isRef
    · rfl
  · simp [Operand.withoutSpans, Operand.allWithoutSpans_eq_map, same]

section Readers

variable {stop : Error} {o : Operand}

theorem recovers_leaf (notExpr : ∀ op args span, o ≠ .expr op args span) (spelled : o.Spelled)
    (isTerm : o.isTerm = true) {fuel : Nat} (enough : 0 < fuel) :
    Recovers Operand.withoutSpans (term stop fuel) o.leafLexemes o := by
  intro ts rest same follows
  have single {l : Lexeme} (same : ts.map (·.lexeme) = [l]) : ∃ t, ts = [t] ∧ t.lexeme = l := by
    obtain ⟨t, none, rfl, here, nothing⟩ := List.map_eq_cons_iff.1 same
    obtain rfl : none = [] := by simpa using nothing
    exact ⟨t, rfl, here⟩
  cases fuel with
  | zero => cases enough
  | succ fuel =>
    cases o with
    | int value width span =>
      obtain ⟨⟨_, tokenSpan⟩, rfl, rfl⟩ := single same
      exact ⟨_, rfl, rfl⟩
    | atom name span =>
      obtain ⟨⟨_, tokenSpan⟩, rfl, rfl⟩ := single same
      exact ⟨_, rfl, rfl⟩
    | label name width isElse span =>
      obtain rfl : isElse = false := by simpa [Operand.isTerm] using isTerm
      obtain ⟨⟨_, tokenSpan⟩, rfl, rfl⟩ := single same
      exact ⟨_, rfl, rfl⟩
    | offset value width isElse span =>
      obtain rfl : isElse = false := by simpa [Operand.isTerm] using isTerm
      obtain ⟨⟨_, tokenSpan⟩, rfl, rfl⟩ := single same
      refine ⟨_, rfl, ?_⟩
      simp [Operand.withoutSpans, Int.toNat_of_nonneg spelled.1]
    | expr op args span => exact absurd rfl (notExpr op args span)
    | text | message => cases isTerm

theorem recovers_term (spelled : o.IsSpelled) (checked : o.checkExpression = .ok ()) (isTerm : o.isTerm = true)
    {fuel : Nat} (enough : o.lexemes.length ≤ fuel) : Recovers Operand.withoutSpans (term stop fuel) o.lexemes o := by
  induction o using Operand.expr_induction generalizing fuel with
  | leaf o notExpr =>
    have notMessage : ∀ commands span, o ≠ .message commands span := by
      rintro commands span rfl
      cases isTerm
    obtain ⟨_, _, nonempty, -⟩ := starts_leaf notExpr notMessage
    rw [Operand.lexemes_of_leaf notExpr notMessage] at enough ⊢
    have positive : 0 < fuel := by
      rw [nonempty, List.length_cons] at enough
      omega
    exact recovers_leaf notExpr ((Operand.isSpelled_leaf notExpr).1 spelled) isTerm positive
  | expr op args span ih =>
    obtain ⟨node, argsSpelled⟩ := Operand.isSpelled_expr.1 spelled
    have argsChecked := isTerm_of_checked checked
    intro ts rest same follows
    rw [Operand.lexemes, Operand.allLexemes_eq_map, Lexeme.call, List.map_eq_cons_iff] at same
    obtain ⟨⟨_, nameSpan⟩, ts, rfl, rfl, isArgs⟩ := same
    rw [Operand.lexemes, Operand.allLexemes_eq_map, Lexeme.call, List.length_cons] at enough
    cases fuel with
    | zero => cases enough
    | succ fuel =>
      -- An argument has fewer tokens than the call, and so has their number.
      have fewer := Nat.le_of_succ_le_succ enough
      have each : ∀ a ∈ args, Recovers Operand.withoutSpans (term stop fuel) a.lexemes a := by
        intro a isArg
        obtain ⟨isTerm, checked⟩ := argsChecked a isArg
        refine ih a isArg (argsSpelled a isArg) checked isTerm ?_
        have bound := Lexeme.length_parenthesized (List.mem_map_of_mem (f := Operand.lexemes) isArg)
        omega
      have count : args.length ≤ fuel := by
        have bound := Lexeme.le_length_parenthesized (args.map Operand.lexemes)
        rw [List.length_map] at bound
        omega
      have starts : ∀ a ∈ args, Starts a.lexemes := by
        intro a isArg
        refine starts_operand ?_
        rintro commands span rfl
        cases (argsChecked _ isArg).1
      obtain ⟨args', last, read, sameArgs⟩ :=
        recovers_arguments stop each starts count nameSpan isArgs follows
      obtain ⟨o, called, sameCall⟩ := call_withoutSpans node sameArgs nameSpan (nameSpan.join last)
      refine ⟨o, ?_, sameCall⟩
      change (arguments stop (term stop fuel) fuel nameSpan (ts ++ rest) >>= _) = _
      rw [read]
      change (call op args' nameSpan (nameSpan.join last) >>= _) = _
      rw [called]
      rfl

def opensTerm : Lexeme → Bool
  | .integer .. | .label .. | .offset .. | .atom _ | .identifier _ => true
  | _ => false

theorem opensTerm_of_isTerm (isTerm : o.isTerm = true) : ∃ l ls, o.lexemes = l :: ls ∧ opensTerm l = true := by
  cases o with
  | expr op args span =>
    rw [Operand.lexemes]
    exact ⟨_, _, rfl, rfl⟩
  | label name width isElse span | offset value width isElse span =>
    obtain rfl : isElse = false := by simpa [Operand.isTerm] using isTerm
    simp only [Operand.lexemes]
    exact ⟨_, _, rfl, rfl⟩
  | int | atom =>
    simp only [Operand.lexemes]
    exact ⟨_, _, rfl, rfl⟩
  | text | message => cases isTerm

theorem operand_of_opensTerm {t : Token} (opens : opensTerm t.lexeme = true) (ts : List Token) :
    operand stop (t :: ts) = term stop (ts.length + 1) (t :: ts) := by
  obtain ⟨l, span⟩ := t
  cases l <;> first | rfl | cases opens

theorem recovers_operand (spelled : o.IsSpelled) (checked : o.checkExpression = .ok ()) :
    Recovers Operand.withoutSpans (operand stop) o.lexemes o := by
  by_cases isTerm : o.isTerm = true
  · intro ts rest same follows
    obtain ⟨l, ls, split, opens⟩ := opensTerm_of_isTerm isTerm
    obtain ⟨t, others, rfl, isToken, -⟩ := List.map_eq_cons_iff.1 (same.trans split)
    rw [List.cons_append, operand_of_opensTerm (isToken ▸ opens)]
    refine recovers_term spelled checked isTerm ?_ _ rest same follows
    rw [← same]
    simp
  · cases o with
    | text bytes span =>
      intro ts rest same follows
      rw [Operand.lexemes_of_leaf (by simp) (by simp), Operand.leafLexemes, List.map_eq_singleton_iff] at same
      obtain ⟨⟨_, tokenSpan⟩, rfl, rfl⟩ := same
      exact ⟨_, rfl, rfl⟩
    | label name width isElse span =>
      obtain rfl : isElse = true := by simpa [Operand.isTerm] using isTerm
      intro ts rest same follows
      rw [Operand.lexemes_of_leaf (by simp) (by simp)] at same
      obtain ⟨⟨_, elseSpan⟩, ts, rfl, rfl, others⟩ := List.map_eq_cons_iff.1 same
      obtain ⟨⟨_, tokenSpan⟩, rfl, rfl⟩ := List.map_eq_singleton_iff.1 others
      exact ⟨_, rfl, rfl⟩
    | offset value width isElse span =>
      obtain rfl : isElse = true := by simpa [Operand.isTerm] using isTerm
      intro ts rest same follows
      rw [Operand.lexemes_of_leaf (by simp) (by simp)] at same
      obtain ⟨⟨_, elseSpan⟩, ts, rfl, rfl, others⟩ := List.map_eq_cons_iff.1 same
      obtain ⟨⟨_, tokenSpan⟩, rfl, rfl⟩ := List.map_eq_singleton_iff.1 others
      have nonneg : 0 ≤ value := ((Operand.isSpelled_leaf (by simp)).1 spelled).1
      refine ⟨_, rfl, ?_⟩
      simp [Operand.withoutSpans, Int.toNat_of_nonneg nonneg]
    | message commands span => exact ((Operand.isSpelled_leaf (by simp)).1 spelled).elim
    | int | atom | expr => exact absurd rfl isTerm

end Readers

theorem endsItem_iff {l : Lexeme} : l.endsItem = true ↔ l = .newline ∨ l = .endOfInput := by
  cases l <;> simp [Lexeme.endsItem]

def Ends (rest : List Token) : Prop := ∃ t ts, rest = t :: ts ∧ t.lexeme.endsItem = true

theorem Ends.follows {rest : List Token} (ends : Ends rest) : Follows [.openParen, .comma] rest := by
  obtain ⟨t, ts, rfl, endsItem⟩ := ends
  refine ⟨t, ts, rfl, fun member => ?_⟩
  rcases endsItem_iff.1 endsItem with isNewline | isEnd
  · simp [isNewline] at member
  · simp [isEnd] at member

section Lists

variable {α β : Type} (stop : Error) {view : α → β} {one : Nat → List Token → Except Error (α × List Token)}
  {lexemes : α → List Lexeme} {as : List α}

theorem skipNewlines_append {n : Nat} {lines ts : List Token}
    (newlines : lines.map (·.lexeme) = List.replicate n .newline) (starts : Starts (ts.map (·.lexeme)))
    (rest : List Token) : skipNewlines (lines ++ (ts ++ rest)) = ts ++ rest := by
  obtain ⟨l, ls, split, notThese⟩ := starts
  obtain ⟨t, ts, rfl, rfl, -⟩ := List.map_eq_cons_iff.1 split
  have all : ∀ line ∈ lines, (line.lexeme == .newline) = true := by
    intro line member
    have inside : line.lexeme ∈ lines.map (·.lexeme) := List.mem_map_of_mem member
    rw [newlines] at inside
    simpa using (List.mem_replicate.1 inside).2
  have stops : t.lexeme ≠ .newline := fun same => notThese (by simp [same])
  rw [skipNewlines, List.dropWhile_append_of_pos all, List.cons_append,
    List.dropWhile_cons_of_neg (by simpa using stops)]

theorem recovers_operandTail {lines : Nat} (each : ∀ a ∈ as, ∀ index, Recovers view (one index) (lexemes a) a)
    (starts : ∀ a ∈ as, Starts (lexemes a)) {fuel index : Nat} (enough : as.length < fuel) {ts rest : List Token}
    (same : ts.map (·.lexeme) = Lexeme.further lines (as.map lexemes))
    (follows : Follows [.openParen, .comma] rest) :
    ∃ as', operandTail stop one fuel index (ts ++ rest) = .ok (as', rest) ∧ as'.map view = as.map view := by
  induction as generalizing fuel index ts with
  | nil =>
    obtain rfl : ts = [] := by simpa [Lexeme.further] using same
    obtain ⟨t, ts, rfl, notThese⟩ := follows
    cases fuel with
    | zero => cases enough
    | succ fuel => exact ⟨[], by simp_all [operandTail], rfl⟩
  | cons a as ih =>
    obtain ⟨here, others⟩ := List.forall_mem_cons.1 each
    obtain ⟨startsHere, startOthers⟩ := List.forall_mem_cons.1 starts
    cases fuel with
    | zero => cases enough
    | succ fuel =>
      rw [List.map_cons, Lexeme.further_cons, List.map_eq_cons_iff] at same
      obtain ⟨comma, ts, rfl, isComma, same⟩ := same
      obtain ⟨gap, ts, rfl, newlines, same⟩ := List.map_eq_append_iff.1 same
      obtain ⟨first, later, rfl, isFirst, isLater⟩ := List.map_eq_append_iff.1 same
      have skipped := skipNewlines_append newlines (isFirst ▸ startsHere) (later ++ rest)
      obtain ⟨a', read, sameHere⟩ := here index first (later ++ rest) isFirst (follows_further isLater follows)
      obtain ⟨as', tail, sameLater⟩ := @ih others startOthers fuel (index + 1) (Nat.lt_of_succ_lt_succ enough) _ isLater
      refine ⟨a' :: as', ?_, by simp [sameHere, sameLater]⟩
      rw [List.cons_append, List.append_assoc, List.append_assoc, operandTail, if_pos (by simp [isComma]),
        skipped, read]
      change (operandTail stop one fuel (index + 1) (later ++ rest) >>= _) = _
      rw [tail]
      rfl

theorem recovers_operandList {lines : Nat} (each : ∀ a ∈ as, ∀ index, Recovers view (one index) (lexemes a) a)
    (starts : ∀ a ∈ as, Starts (lexemes a)) {ts rest : List Token}
    (same : ts.map (·.lexeme) = (.comma :: List.replicate lines .newline).intercalate (as.map lexemes))
    (ends : Ends rest) :
    ∃ as', operandList stop one (ts ++ rest) = .ok (as', rest) ∧ as'.map view = as.map view := by
  cases as with
  | nil =>
    obtain rfl : ts = [] := by simpa using same
    obtain ⟨t, ts, rfl, endsItem⟩ := ends
    exact ⟨[], by simp [operandList, endsItem], rfl⟩
  | cons a as =>
    obtain ⟨here, others⟩ := List.forall_mem_cons.1 each
    obtain ⟨startsHere, startOthers⟩ := List.forall_mem_cons.1 starts
    rw [List.map_cons, Lexeme.intercalate_cons] at same
    obtain ⟨first, later, rfl, isFirst, isLater⟩ := List.map_eq_append_iff.1 same
    have count : as.length < (later ++ rest).length := by
      obtain ⟨t, others, rfl, -⟩ := ends
      have bound := Lexeme.length_further lines (as.map lexemes)
      rw [← isLater, List.length_map, List.length_map] at bound
      rw [List.length_append, List.length_cons]
      omega
    obtain ⟨a', read, sameHere⟩ := here 0 first (later ++ rest) isFirst (follows_further isLater ends.follows)
    obtain ⟨as', tail, sameLater⟩ : ∃ as', operandTail stop one (later ++ rest).length 1 (later ++ rest) =
        .ok (as', rest) ∧ as'.map view = as.map view :=
      recovers_operandTail stop others startOthers count isLater ends.follows
    obtain ⟨l, ls, split, notThese⟩ := startsHere
    rw [split, List.map_eq_cons_iff] at isFirst
    obtain ⟨t, ts, rfl, isToken, -⟩ := isFirst
    have goesOn : ¬ t.lexeme.endsItem = true := by
      intro endsItem
      rcases endsItem_iff.1 endsItem with isNewline | isEnd
      · exact notThese (by simp [← isToken, isNewline])
      · exact notThese (by simp [← isToken, isEnd])
    refine ⟨a' :: as', ?_, by simp [sameHere, sameLater]⟩
    simp only [List.cons_append, List.append_assoc] at read ⊢
    rw [operandList, if_neg goesOn, read]
    change (operandTail stop one (later ++ rest).length 1 (later ++ rest) >>= _) = _
    rw [tail]
    rfl

end Lists

section Statements

variable (stop : Error) (opcode : String) (index : Nat)

theorem recovers_messageArgument {a : Operand} (isArgument : a.IsArgument) :
    Recovers (Operand.setSpan none) (messageArgument stop opcode index) a.leafLexemes a := by
  intro ts rest same follows
  cases a with
  | int value width span =>
    obtain ⟨⟨_, tokenSpan⟩, rfl, rfl⟩ := List.map_eq_singleton_iff.1 same
    exact ⟨_, rfl, rfl⟩
  | text bytes span =>
    obtain ⟨⟨_, tokenSpan⟩, rfl, rfl⟩ := List.map_eq_singleton_iff.1 same
    exact ⟨_, rfl, rfl⟩
  | _ => cases isArgument

theorem starts_argument {a : Operand} (isArgument : a.IsArgument) : Starts a.leafLexemes := by
  refine starts_leaf ?_ ?_
  · rintro op args span rfl
    cases isArgument
  · rintro commands span rfl
    cases isArgument

theorem recovers_messageCommand {command : MessageCommand} (normal : command.IsNormal) :
    Recovers MessageCommand.withoutSpans (messageCommand stop opcode index) command.lexemes command := by
  obtain ⟨op, args, span⟩ := command
  intro ts rest same follows
  unfold MessageCommand.IsNormal at normal
  unfold MessageCommand.lexemes at same
  by_cases text : (op == MessageOp.textName) = true
  · rw [MessageCommand.isText, if_pos text] at normal same
    obtain ⟨bytes, argSpan, rfl, -, -⟩ := normal
    obtain rfl : op = MessageOp.textName := by simpa using text
    obtain ⟨⟨_, tokenSpan⟩, rfl, rfl⟩ := List.map_eq_singleton_iff.1 same
    exact ⟨_, rfl, rfl⟩
  · rw [MessageCommand.isText, if_neg text] at normal same
    obtain ⟨m, member, rfl, -, arguments⟩ := normal
    rw [Lexeme.call, List.map_eq_cons_iff] at same
    obtain ⟨⟨_, nameSpan⟩, ts, rfl, rfl, isArgs⟩ := same
    have count : args.length ≤ (ts ++ rest).length := by
      have bound := Lexeme.le_length_parenthesized (args.map Operand.leafLexemes)
      rw [← isArgs, List.length_map, List.length_map] at bound
      rw [List.length_append]
      omega
    obtain ⟨args', last, read, sameArgs⟩ := recovers_arguments stop
      (fun a isArg => recovers_messageArgument stop opcode index (arguments a isArg).1)
      (fun a isArg => starts_argument (arguments a isArg).1) count nameSpan isArgs follows
    have known : (MessageOp.ofName? m.name).isSome = true := by
      rw [MessageOp.ofName?_eq_some.2 ⟨member, rfl⟩]
      rfl
    refine ⟨⟨m.name, args', some (nameSpan.join last)⟩, ?_, by simp [MessageCommand.withoutSpans, sameArgs]⟩
    rw [List.cons_append, messageCommand]
    dsimp only
    rw [if_pos known, read]
    rfl

theorem starts_messageCommand {command : MessageCommand} (normal : command.IsNormal) : Starts command.lexemes := by
  obtain ⟨op, args, span⟩ := command
  unfold MessageCommand.IsNormal at normal
  unfold MessageCommand.lexemes
  split
  · rename_i text
    rw [if_pos text] at normal
    obtain ⟨bytes, argSpan, rfl, -, -⟩ := normal
    exact ⟨_, _, rfl, by simp⟩
  · exact ⟨_, _, rfl, by simp⟩

theorem recovers_statementOperands {c : Command} (member : c ∈ Command.all) {os : List Operand} (takes : c.Takes os)
    {ts rest : List Token} (same : ts.map (·.lexeme) = [.comma].intercalate (os.map Operand.lexemes))
    (ends : Ends rest) (nameSpan : Span) :
    ∃ os', statementOperands stop c.name nameSpan (ts ++ rest) = .ok (os', rest) ∧
      os'.map Operand.withoutSpans = os.map Operand.withoutSpans := by
  by_cases message : c.layout = .message
  · simp only [Command.Takes, message] at takes
    obtain ⟨commands, span, rfl, normal⟩ := takes
    have isBody : ts.map (·.lexeme) = (.comma :: List.replicate 1 .newline).intercalate
        (commands.map MessageCommand.lexemes) := by
      simpa [Operand.lexemes] using same
    obtain ⟨commands', read, sameBody⟩ := recovers_operandList stop
      (fun command inBody index => recovers_messageCommand stop c.name index (normal.each command inBody))
      (fun command inBody => starts_messageCommand (normal.each command inBody)) isBody ends
    refine ⟨[.message commands' (some (messageSpan nameSpan commands'))], ?_, by simp [Operand.withoutSpans, sameBody]⟩
    rw [statementOperands, if_pos ((Command.takesMessage_iff member).2 message), read]
    rfl
  · obtain ⟨shape, chosen, spelled, -⟩ := (Command.takes_iff message).1 takes
    obtain ⟨-, -, checked⟩ := (Command.shapeOf_eq_ok member).1 chosen
    have starts : ∀ o ∈ os, Starts o.lexemes := by
      intro o inside
      refine starts_operand ?_
      rintro commands span rfl
      exact (Operand.isSpelled_leaf (by simp)).1 (spelled _ inside)
    have isList : ts.map (·.lexeme) = (.comma :: List.replicate 0 .newline).intercalate (os.map Operand.lexemes) := same
    obtain ⟨os', read, sameList⟩ := recovers_operandList stop
      (fun o inside _ => recovers_operand (spelled o inside) (checked o inside)) starts isList ends
    refine ⟨os', ?_, sameList⟩
    rw [statementOperands, if_neg (by simpa [Command.takesMessage_iff member] using message)]
    exact read

end Statements

end SourceItem

end EventScript
