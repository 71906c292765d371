import EventScript.Proofs.Rereading
import EventScript.Proofs.TokenPlaces

namespace EventScript

namespace Grammar

open Token (extent Between)

section Lists

variable {α : Type}

def Comma (ts : List Token) : Prop := ∃ c, ts = [c] ∧ c.lexeme = .comma

def CommaLines (ts : List Token) : Prop :=
  ∃ c lines, ts = c :: lines ∧ c.lexeme = .comma ∧ ∀ l ∈ lines, l.lexeme = .newline

/-- Further elements of a list, each after a separator. -/
inductive Further (separator : List Token → Prop) (element : List Token → α → Prop) : List Token → List α → Prop
  | nil : Further separator element [] []
  | cons {s ts us : List Token} {a : α} {as : List α} : separator s → element ts a → Further separator element us as →
      Further separator element (s ++ (ts ++ us)) (a :: as)

/-- Arguments in parentheses, which may be left out; a line never ends among them. -/
inductive Arguments (element : List Token → α → Prop) : List Token → List α → Prop
  | absent : Arguments element [] []
  | empty {opening closing : Token} : opening.lexeme = .openParen → closing.lexeme = .closeParen →
      Arguments element [opening, closing] []
  | list {opening closing : Token} {ts us : List Token} {a : α} {as : List α} : opening.lexeme = .openParen →
      element ts a → Further Comma element us as → closing.lexeme = .closeParen →
        Arguments element (opening :: (ts ++ (us ++ [closing]))) (a :: as)

/-- What follows the name of a line: nothing, or elements between commas. -/
inductive Series (element : List Token → α → Prop) : List Token → List α → Prop
  | none : Series element [] []
  | list {ts us : List Token} {a : α} {as : List α} : element ts a → Further CommaLines element us as →
      Series element (ts ++ us) (a :: as)

end Lists

/-- The operand that an operator makes of its arguments. A constant of forced width is the integer itself, and the
address of a reference is the reference. -/
def folded (name : String) (args : List Operand) (span : Span) : Operand :=
  match name, args with
  | "i8", [.int value _ _] => .int value (some .byte) (some span)
  | "i16", [.int value _ _] => .int value (some .word) (some span)
  | "i32", [.int value _ _] => .int value (some .long) (some span)
  | "addr", [.label target width isElse _] => .label target width isElse (some span)
  | "addr", [.offset value width isElse _] => .offset value width isElse (some span)
  | _, _ => .expr name args (some span)

inductive TermOf : List Token → Operand → Prop
  | integer {t : Token} {value : Int} {width : Option Width} : t.lexeme = .integer value width →
      TermOf [t] (.int value width (some t.span))
  | label {t : Token} {name : String} {width : Option Width} : t.lexeme = .label name width →
      TermOf [t] (.label name width false (some t.span))
  | offset {t : Token} {value : Nat} {width : Option Width} : t.lexeme = .offset value width →
      TermOf [t] (.offset value width false (some t.span))
  | atom {t : Token} {name : String} : t.lexeme = .atom name → TermOf [t] (.atom name (some t.span))
  | operator {t : Token} {name : String} {ts : List Token} {args : List Operand} : t.lexeme = .identifier name →
      (Operator.ofName? name).isSome → Arguments TermOf ts args →
        TermOf (t :: ts) (folded name args (extent (t :: ts)))

inductive OperandOf : List Token → Operand → Prop
  | string {t : Token} {bytes : Bytes} : t.lexeme = .string bytes → OperandOf [t] (.text bytes (some t.span))
  | elseLabel {t u : Token} {name : String} {width : Option Width} : t.lexeme = .elseWord →
      u.lexeme = .label name width → OperandOf [t, u] (.label name width true (some (extent [t, u])))
  | elseOffset {t u : Token} {value : Nat} {width : Option Width} : t.lexeme = .elseWord →
      u.lexeme = .offset value width → OperandOf [t, u] (.offset value width true (some (extent [t, u])))
  | term {ts : List Token} {o : Operand} : TermOf ts o → OperandOf ts o

inductive ArgumentOf : List Token → Operand → Prop
  | integer {t : Token} {value : Int} {width : Option Width} : t.lexeme = .integer value width →
      ArgumentOf [t] (.int value width (some t.span))
  | string {t : Token} {bytes : Bytes} : t.lexeme = .string bytes → ArgumentOf [t] (.text bytes (some t.span))

inductive CommandOf : List Token → MessageCommand → Prop
  | string {t : Token} {bytes : Bytes} : t.lexeme = .string bytes →
      CommandOf [t] ⟨MessageOp.textName, [.text bytes (some t.span)], some t.span⟩
  | command {t : Token} {name : String} {ts : List Token} {args : List Operand} : t.lexeme = .identifier name →
      (MessageOp.ofName? name).isSome → Arguments ArgumentOf ts args →
        CommandOf (t :: ts) ⟨name, args, some (extent (t :: ts))⟩

def messageNames : List String := ["msg", "select"]

/-- An item that takes its line to the end. A message without commands has the span of its opcode. -/
inductive LineOf : List Token → SourceItem → Prop
  | directive {t : Token} {name : String} {ts : List Token} {operands : List Operand} : t.lexeme = .directive name →
      Series OperandOf ts operands → LineOf (t :: ts) (.directive name operands (extent (t :: ts)))
  | statement {t : Token} {name : String} {ts : List Token} {operands : List Operand} : t.lexeme = .identifier name →
      name ∉ messageNames → Series OperandOf ts operands →
        LineOf (t :: ts) (.statement name operands (extent (t :: ts)))
  | message {t : Token} {name : String} {ts : List Token} {commands : List MessageCommand} :
      t.lexeme = .identifier name → name ∈ messageNames → Series CommandOf ts commands →
        LineOf (t :: ts) (.statement name [.message commands (some (if ts = [] then t.span else extent ts))]
          (extent (t :: ts)))

/-- Items up to the tokens that are left. A label may be followed by anything, other items by the end of their line. -/
inductive ItemsOf (rest : List Token) : List Token → List SourceItem → Prop
  | nil : ItemsOf rest rest []
  | newline {t : Token} {ts : List Token} {items : List SourceItem} : t.lexeme = .newline → ItemsOf rest ts items →
      ItemsOf rest (t :: ts) items
  | label {t u : Token} {name : String} {ts : List Token} {items : List SourceItem} : t.lexeme = .identifier name →
      u.lexeme = .colon → ItemsOf rest ts items →
        ItemsOf rest (t :: u :: ts) (.label name (extent [t, u]) :: items)
  | line {ts us : List Token} {item : SourceItem} {items : List SourceItem} : LineOf ts item →
      SourceItem.Ends us → ItemsOf rest us items → ItemsOf rest (ts ++ us) (item :: items)

def FileOf (ts : List Token) (items : List SourceItem) : Prop :=
  ∃ last, last.lexeme = .endOfInput ∧ ItemsOf [last] ts items

theorem Comma.eq_cons {ts : List Token} (isComma : Comma ts) : ∃ c lines, ts = c :: lines ∧ c.lexeme = .comma := by
  obtain ⟨c, single, isComma⟩ := isComma
  exact ⟨c, [], single, isComma⟩

theorem CommaLines.eq_cons {ts : List Token} (isComma : CommaLines ts) :
    ∃ c lines, ts = c :: lines ∧ c.lexeme = .comma := by
  obtain ⟨c, lines, split, isComma, -⟩ := isComma
  exact ⟨c, lines, split, isComma⟩

theorem span_folded (name : String) (args : List Operand) (span : Span) : (folded name args span).span = some span := by
  unfold folded
  split <;> rfl

theorem folded_of_notMem {name : String} (other : name ∉ ["i8", "i16", "i32", "addr"]) (args : List Operand)
    (span : Span) : folded name args span = .expr name args (some span) := by
  simp only [List.mem_cons, not_or, List.not_mem_nil, not_false_eq_true, and_true] at other
  unfold folded
  split <;> simp_all

theorem TermOf.span {ts : List Token} {o : Operand} (derived : TermOf ts o) : o.span = some (extent ts) := by
  cases derived with
  | operator => exact span_folded _ _ _
  | _ => rfl

theorem OperandOf.span {ts : List Token} {o : Operand} (derived : OperandOf ts o) : o.span = some (extent ts) := by
  cases derived with
  | term isTerm => exact isTerm.span
  | _ => rfl

theorem CommandOf.span {ts : List Token} {command : MessageCommand} (derived : CommandOf ts command) :
    command.span = some (extent ts) := by
  cases derived <;> rfl

theorem TermOf.starts {ts : List Token} {o : Operand} (derived : TermOf ts o) :
    SourceItem.Starts (ts.map (·.lexeme)) := by
  cases derived with
  | integer lexeme | label lexeme | offset lexeme | atom lexeme | operator lexeme =>
    exact ⟨_, _, rfl, by simp [lexeme]⟩

theorem OperandOf.starts {ts : List Token} {o : Operand} (derived : OperandOf ts o) :
    SourceItem.Starts (ts.map (·.lexeme)) := by
  cases derived with
  | term isTerm => exact isTerm.starts
  | string lexeme | elseLabel lexeme | elseOffset lexeme => exact ⟨_, _, rfl, by simp [lexeme]⟩

theorem ArgumentOf.starts {ts : List Token} {o : Operand} (derived : ArgumentOf ts o) :
    SourceItem.Starts (ts.map (·.lexeme)) := by
  cases derived with
  | integer lexeme | string lexeme => exact ⟨_, _, rfl, by simp [lexeme]⟩

theorem CommandOf.starts {ts : List Token} {command : MessageCommand} (derived : CommandOf ts command) :
    SourceItem.Starts (ts.map (·.lexeme)) := by
  cases derived with
  | string lexeme | command lexeme => exact ⟨_, _, rfl, by simp [lexeme]⟩

theorem ne_nil_of_starts {ts : List Token} (starts : SourceItem.Starts (ts.map (·.lexeme))) : ts ≠ [] := by
  rintro rfl
  obtain ⟨_, _, empty, -⟩ := starts
  cases empty

theorem Series.ends {α : Type} {element : List Token → α → Prop} {ts : List Token} {as : List α}
    (derived : Series element ts as) : ts = [] ∧ as = [] ∨
      (∃ used after a, ts = used ++ after ∧ as.head? = some a ∧ element used a) ∧
        ∃ before used a, ts = before ++ used ∧ as.getLast? = some a ∧ element used a := by
  cases derived with
  | none => exact .inl ⟨rfl, rfl⟩
  | @list first _ a _ isFirst further =>
    refine .inr ⟨⟨first, _, a, rfl, rfl, isFirst⟩, ?_⟩
    induction further generalizing first a with
    | nil => exact ⟨[], first, a, by simp, rfl, isFirst⟩
    | @cons s next _ b _ _ isNext _ ih =>
      obtain ⟨before, used, last, split, isLast, isElement⟩ := ih isNext
      refine ⟨first ++ (s ++ before), used, last, ?_, ?_, isElement⟩
      · rw [split]
        simp
      · rw [List.getLast?_cons_cons]
        exact isLast

theorem mem_messageNames {name : String} : Command.takesMessage name = true ↔ name ∈ messageNames := by
  constructor
  · intro takes
    obtain ⟨c, found, isMessage⟩ := (Option.any_eq_true _ _).1 takes
    obtain ⟨member, rfl⟩ := Command.ofName?_eq_some.1 found
    have table : ∀ c ∈ Command.all, (c.layout == .message) = true → c.name ∈ messageNames := by decide
    exact table c member isMessage
  · intro member
    have table : ∀ name ∈ messageNames, Command.takesMessage name = true := by decide
    exact table name member

theorem ItemsOf.newlines {rest lines ts : List Token} {found : List SourceItem}
    (newlines : ∀ l ∈ lines, l.lexeme = .newline) (derived : ItemsOf rest ts found) :
    ItemsOf rest (lines ++ ts) found := by
  induction lines with
  | nil => exact derived
  | cons l lines ih =>
    obtain ⟨here, later⟩ := List.forall_mem_cons.1 newlines
    exact .newline here (ih later)

theorem ItemsOf.suffix {rest ts : List Token} {found : List SourceItem} (derived : ItemsOf rest ts found) :
    rest <:+ ts := by
  induction derived with
  | nil => exact List.suffix_rfl
  | newline _ _ ih => exact ih.trans (List.suffix_cons _ _)
  | label _ _ _ ih => exact (ih.trans (List.suffix_cons _ _)).trans (List.suffix_cons _ _)
  | line _ _ _ ih => exact ih.trans (List.suffix_append _ _)

end Grammar

end EventScript
