import EventScript.Proofs.Messages
import EventScript.Source.Build

namespace EventScript

namespace Lexeme

def IsName (name : String) : Prop :=
  startsIdentifier name.toList = true ∧ name.toList.all isIdentifierChar = true

def InRange (value : Int) : Prop := leastLiteral ≤ value ∧ value ≤ greatestLiteral

def Valid : Lexeme → Prop
  | identifier name => IsName name ∧ name ≠ "else"
  | directive name | atom name | label name _ => IsName name
  | integer value _ => InRange value
  | offset value _ => InRange value
  | _ => True

theorem InRange.isWritable {value : Int} (inRange : InRange value) : Text.Numeral.isWritable value = true := by
  have small : value.natAbs < 10 ^ 10 := by
    simp only [InRange, leastLiteral, greatestLiteral] at inRange
    omega
  have digits := (Nat.length_toDigits_le_iff (by decide) (by decide)).2 small
  exact decide_eq_true (digits.trans (by decide))

theorem isWritable_of_key {entry : EntryPoint} (inRange : ∀ key, entry.key = some key → InRange key) :
    entry.isWritable = true := by
  rw [EntryPoint.isWritable, Option.all_eq_true]
  exact fun key isKey => (inRange key isKey).isWritable

theorem isIdentifierChar_of_start {c : Char} (start : isIdentifierStart c = true) :
    isIdentifierChar c = true := by
  simp only [isIdentifierStart, isIdentifierChar, Char.isAlphanum, Bool.or_eq_true] at start ⊢
  tauto

theorem isName_takeName {cs : List Char} (start : startsIdentifier cs = true) : IsName (takeName cs) := by
  cases cs with
  | nil => cases start
  | cons c cs =>
    have here := isIdentifierChar_of_start start
    simp only [IsName, takeName, String.toList_ofList, List.takeWhile_cons_of_pos here]
    exact ⟨start, by simp [here, List.all_takeWhile]⟩

theorem readNumber_inRange {cs : List Char} {value : Int} {width : Option Width} {size : Nat}
    (h : readNumber cs = .ok ((value, width), size)) : InRange value := by
  have last {number : Int} {rest : Reading (Int × Option Width)}
      (h : (if number < leastLiteral ∨ greatestLiteral < number then .error (.char 0 .outOfRange)
        else rest) = .ok ((value, width), size)) : InRange number ∧ rest = .ok ((value, width), size) := by
    split at h
    · cases h
    · rename_i inside
      simp only [not_or, not_lt] at inside
      exact ⟨inside, h⟩
  unfold readNumber at h
  dsimp only at h
  generalize readMagnitude _ = magnitude at h
  match magnitude, h with
  | .ok (magnitude, size), h =>
    obtain ⟨inside, same⟩ := last h
    cases same
    exact inside

theorem read_star_valid {cs : List Char} {lexeme : Lexeme} {size : Nat}
    (h : read '*' cs = .ok (lexeme, size)) : lexeme.Valid := by
  have reduced : read '*' cs = if cs.head?.any Text.isDigit then _ else if startsIdentifier cs then
      .ok (.label (takeName cs) (readSuffix (cs.drop (takeName cs).length)),
        1 + (takeName cs).length + suffixLength (readSuffix (cs.drop (takeName cs).length)))
    else .error (.char 0 (.invalidToken '*')) := rfl
  rw [reduced] at h
  split at h
  · split at h
    · rename_i number
      cases h
      have := readNumber_inRange number
      simp only [Valid, InRange, leastLiteral, greatestLiteral] at this ⊢
      omega
    · cases h
    · cases h
  · split at h
    · rename_i start
      cases h
      exact isName_takeName start
    · cases h

theorem read_valid {c : Char} {cs : List Char} {lexeme : Lexeme} {size : Nat}
    (h : read c cs = .ok (lexeme, size)) : lexeme.Valid := by
  by_cases star : c = '*'
  · subst star
    exact read_star_valid h
  · have notStar : ¬ (c == '*') = true := by simpa using star
    unfold read at h
    dsimp only at h
    rw [if_neg notStar] at h
    rcases ite_eq_ok.1 h with ⟨-, h⟩ | ⟨-, h⟩
    · cases h; exact True.intro
    rcases ite_eq_ok.1 h with ⟨-, h⟩ | ⟨-, h⟩
    · cases h; exact True.intro
    rcases ite_eq_ok.1 h with ⟨-, h⟩ | ⟨-, h⟩
    · cases h; exact True.intro
    rcases ite_eq_ok.1 h with ⟨-, h⟩ | ⟨-, h⟩
    · cases h; exact True.intro
    rcases ite_eq_ok.1 h with ⟨-, h⟩ | ⟨-, h⟩
    · cases h; exact True.intro
    rcases ite_eq_ok.1 h with ⟨-, h⟩ | ⟨-, h⟩
    · obtain ⟨_, -, same⟩ := map_eq_ok.1 h
      cases same
      exact True.intro
    rcases ite_eq_ok.1 h with ⟨-, h⟩ | ⟨-, h⟩
    · obtain ⟨⟨⟨value, width⟩, _⟩, number, same⟩ := map_eq_ok.1 h
      cases same
      exact readNumber_inRange number
    rcases ite_eq_ok.1 h with ⟨-, h⟩ | ⟨-, h⟩
    · rcases ite_eq_ok.1 h with ⟨start, h⟩ | ⟨-, h⟩
      · cases h
        split <;> exact isName_takeName start
      · cases h
    rcases ite_eq_ok.1 h with ⟨start, h⟩ | ⟨-, h⟩
    · cases h
      split
      · exact True.intro
      · rename_i notElse
        exact ⟨isName_takeName start, by simpa using notElse⟩
    · cases h

end Lexeme

theorem TokenStream.scanFrom_valid {fuel : Nat} {cs : List Char} {place : Nat} :
    ∀ t ∈ (scanFrom fuel cs place).tokens, t.lexeme.Valid := by
  induction fuel generalizing cs place with
  | zero => simp [scanFrom]
  | succ fuel ih =>
    unfold scanFrom
    split
    · simp
    · simp [Lexeme.Valid]
    · split
      · simp
      · simp
      · rename_i token
        simp only [cons, List.forall_mem_cons]
        exact ⟨Lexeme.read_valid token, ih⟩

namespace Operand

/-- One node of an operand as source text spells it. An operator that stands for a literal or for a
reference is no node of it. -/
def Spelled : Operand → Prop
  | int value _ _ => Lexeme.InRange value
  | atom name _ | label name _ _ _ => Lexeme.IsName name
  | text .. => True
  | offset value _ _ _ => 0 ≤ value ∧ Lexeme.InRange value
  | expr op args _ => ∃ o ∈ Operator.all, o.name = op ∧ ∀ a, args = [a] →
      (∀ width, o.role = .constant width → a.isInt = false) ∧
        (o.role = .address → a.isReference = false)
  | message .. => False

def IsSpelled (o : Operand) : Prop := ∀ node ∈ o.walk, node.Spelled

theorem isSpelled_expr {op : String} {args : List Operand} {span : Option Span} :
    (expr op args span).IsSpelled ↔ (expr op args span).Spelled ∧ ∀ a ∈ args, a.IsSpelled := by
  simp only [IsSpelled, walk, walkAll_eq_flatMap, List.forall_mem_cons, List.mem_flatMap]
  refine and_congr_right fun _ => ⟨fun h a isArg node inArg => h node ⟨a, isArg, inArg⟩, ?_⟩
  rintro h node ⟨a, isArg, inArg⟩
  exact h a isArg node inArg

theorem isSpelled_leaf {o : Operand} (leaf : ∀ op args span, o ≠ .expr op args span) :
    o.IsSpelled ↔ o.Spelled := by
  cases o <;> first | exact absurd rfl (leaf _ _ _) | simp [IsSpelled, walk]

def IsArgument : Operand → Prop
  | int value _ _ => Lexeme.InRange value
  | text .. => True
  | _ => False

end Operand

def MessageCommand.Spelled (command : MessageCommand) : Prop :=
  if command.isText then ∃ bytes span, command.args = [.text bytes span]
  else (∃ m ∈ MessageOp.all, m.name = command.op) ∧ ∀ a ∈ command.args, a.IsArgument

namespace SourceItem

def Yields {α : Type} (P : α → Prop) (reader : List Token → Except Error (α × List Token)) : Prop :=
  ∀ ts a rest, (∀ t ∈ ts, t.lexeme.Valid) → reader ts = .ok (a, rest) →
    P a ∧ ∀ t ∈ rest, t.lexeme.Valid

theorem isSpelled_call {name : String} {args : List Operand} {nameSpan span : Span} {o : Operand}
    (called : call name args nameSpan span = .ok o) (spelled : ∀ a ∈ args, a.IsSpelled) : o.IsSpelled := by
  unfold call at called
  split at called
  · cases called
  · rename_i operator found
    obtain ⟨member, named⟩ := Operator.ofName?_eq_some.1 found
    have leaf {o o' : Operand} (notExpr : ∀ op args span, o ≠ .expr op args span)
        (notExpr' : ∀ op args span, o' ≠ .expr op args span) (isArg : args = [o])
        (same : o.Spelled → o'.Spelled) : o'.IsSpelled :=
      (Operand.isSpelled_leaf notExpr').2
        (same ((Operand.isSpelled_leaf notExpr).1 (spelled o (by simp [isArg]))))
    rw [Except.ok.injEq] at called
    subst called
    split
    · exact leaf (by simp) (by simp) rfl id
    · exact leaf (by simp) (by simp) rfl id
    · exact leaf (by simp) (by simp) rfl id
    · rename_i notInt notLabel notOffset
      refine Operand.isSpelled_expr.2 ⟨⟨operator, member, named, ?_⟩, spelled⟩
      rintro a rfl
      constructor
      · intro width role
        cases a <;> first | rfl | exact absurd rfl (notInt width _ _ _ role)
      · intro role
        cases a <;> first | rfl | skip
        · exact absurd rfl (notLabel _ _ _ _ role)
        · exact absurd rfl (notOffset _ _ _ _ role)

section Readers

variable {stop : Error} {α : Type} {P : α → Prop}

theorem commaTail_yields {one : List Token → Except Error (α × List Token)} (each : Yields P one)
    (fuel : Nat) : Yields (fun as => ∀ a ∈ as, P a) (commaTail stop one fuel) := by
  induction fuel with
  | zero =>
    intro ts as rest _ read
    cases ts <;> cases read
  | succ fuel ih =>
    intro ts as rest valid read
    cases ts with
    | nil => cases read
    | cons t ts =>
      unfold commaTail at read
      rcases ite_eq_ok.1 read with ⟨-, read⟩ | ⟨-, read⟩
      · obtain ⟨⟨a, ts₁⟩, first, read⟩ := bind_eq_ok.1 read
        obtain ⟨⟨as, ts₂⟩, others, done⟩ := bind_eq_ok.1 read
        cases done
        obtain ⟨here, valid₁⟩ := each _ _ _ (fun t member => valid t (List.mem_cons_of_mem _ member)) first
        obtain ⟨there, valid₂⟩ := ih _ _ _ valid₁ others
        exact ⟨List.forall_mem_cons.2 ⟨here, there⟩, valid₂⟩
      · cases read
        exact ⟨by simp, valid⟩

theorem arguments_yields {one : List Token → Except Error (α × List Token)} (each : Yields P one)
    {fuel : Nat} {nameSpan : Span} {ts rest : List Token} {as : List α} {last : Span}
    (valid : ∀ t ∈ ts, t.lexeme.Valid) (read : arguments stop one fuel nameSpan ts = .ok (as, last, rest)) :
    (∀ a ∈ as, P a) ∧ ∀ t ∈ rest, t.lexeme.Valid := by
  cases ts with
  | nil => cases read
  | cons t ts =>
    unfold arguments at read
    rcases ite_eq_ok.1 read with ⟨-, read⟩ | ⟨-, read⟩
    · cases ts with
      | nil => cases read
      | cons u us =>
        have valid' : ∀ t ∈ u :: us, t.lexeme.Valid := fun t member => valid t (List.mem_cons_of_mem _ member)
        rcases ite_eq_ok.1 read with ⟨-, read⟩ | ⟨-, read⟩
        · cases read
          exact ⟨by simp, fun t member => valid' t (List.mem_cons_of_mem _ member)⟩
        · obtain ⟨⟨a, ts₁⟩, first, read⟩ := bind_eq_ok.1 read
          obtain ⟨⟨as, ts₂⟩, others, read⟩ := bind_eq_ok.1 read
          obtain ⟨here, valid₁⟩ := each _ _ _ valid' first
          obtain ⟨there, valid₂⟩ := commaTail_yields each _ _ _ _ valid₁ others
          cases ts₂ with
          | nil => cases read
          | cons v vs =>
            rcases ite_eq_ok.1 read with ⟨-, read⟩ | ⟨-, read⟩
            · cases read
              exact ⟨List.forall_mem_cons.2 ⟨here, there⟩,
                fun t member => valid₂ t (List.mem_cons_of_mem _ member)⟩
            · cases read
    · cases read
      exact ⟨by simp, valid⟩

theorem term_yields (fuel : Nat) : Yields Operand.IsSpelled (term stop fuel) := by
  induction fuel with
  | zero =>
    intro ts o rest _ read
    cases ts <;> cases read
  | succ fuel ih =>
    intro ts o rest valid read
    cases ts with
    | nil => cases read
    | cons t ts =>
      obtain ⟨here, valid'⟩ := List.forall_mem_cons.1 valid
      unfold term at read
      cases lexeme : t.lexeme <;> simp only [lexeme] at read here
      case identifier name =>
        obtain ⟨⟨args, last, ts₁⟩, inner, read⟩ := bind_eq_ok.1 read
        obtain ⟨o', called, done⟩ := bind_eq_ok.1 read
        cases done
        obtain ⟨spelled, valid₁⟩ := arguments_yields ih valid' inner
        exact ⟨isSpelled_call called spelled, valid₁⟩
      case atom | integer | label =>
        cases read
        exact ⟨(Operand.isSpelled_leaf (by simp)).2 here, valid'⟩
      case offset value width =>
        cases read
        exact ⟨(Operand.isSpelled_leaf (by simp)).2 ⟨Int.natCast_nonneg _, here⟩, valid'⟩
      all_goals cases read

theorem operand_yields : Yields Operand.IsSpelled (operand stop) := by
  intro ts o rest valid read
  cases ts with
  | nil => cases read
  | cons t ts =>
    obtain ⟨-, valid'⟩ := List.forall_mem_cons.1 valid
    unfold operand at read
    cases lexeme : t.lexeme <;> simp only [lexeme] at read
    case string bytes =>
      cases read
      exact ⟨(Operand.isSpelled_leaf (by simp)).2 True.intro, valid'⟩
    case elseWord =>
      cases ts with
      | nil => cases read
      | cons u us =>
        obtain ⟨here, valid''⟩ := List.forall_mem_cons.1 valid'
        cases lexeme' : u.lexeme <;> simp only [lexeme'] at read here
        case label =>
          cases read
          exact ⟨(Operand.isSpelled_leaf (by simp)).2 here, valid''⟩
        case offset =>
          cases read
          exact ⟨(Operand.isSpelled_leaf (by simp)).2 ⟨Int.natCast_nonneg _, here⟩, valid''⟩
        all_goals cases read
    all_goals exact term_yields _ _ _ _ valid read

theorem skipNewlines_valid {ts : List Token} (valid : ∀ t ∈ ts, t.lexeme.Valid) :
    ∀ t ∈ skipNewlines ts, t.lexeme.Valid :=
  fun t member => valid t ((List.dropWhile_sublist _).mem member)

theorem operandTail_yields {one : Nat → List Token → Except Error (α × List Token)}
    (each : ∀ index, Yields P (one index)) (fuel index : Nat) :
    Yields (fun as => ∀ a ∈ as, P a) (operandTail stop one fuel index) := by
  induction fuel generalizing index with
  | zero =>
    intro ts as rest _ read
    cases ts <;> cases read
  | succ fuel ih =>
    intro ts as rest valid read
    cases ts with
    | nil => cases read
    | cons t ts =>
      unfold operandTail at read
      rcases ite_eq_ok.1 read with ⟨-, read⟩ | ⟨-, read⟩
      · obtain ⟨⟨a, ts₁⟩, first, read⟩ := bind_eq_ok.1 read
        obtain ⟨⟨as, ts₂⟩, others, done⟩ := bind_eq_ok.1 read
        cases done
        obtain ⟨here, valid₁⟩ :=
          each _ _ _ _ (skipNewlines_valid (List.forall_mem_cons.1 valid).2) first
        obtain ⟨there, valid₂⟩ := ih _ _ _ _ valid₁ others
        exact ⟨List.forall_mem_cons.2 ⟨here, there⟩, valid₂⟩
      · cases read
        exact ⟨by simp, valid⟩

theorem operandList_yields {one : Nat → List Token → Except Error (α × List Token)}
    (each : ∀ index, Yields P (one index)) : Yields (fun as => ∀ a ∈ as, P a) (operandList stop one) := by
  intro ts as rest valid read
  cases ts with
  | nil => cases read
  | cons t ts =>
    unfold operandList at read
    rcases ite_eq_ok.1 read with ⟨-, read⟩ | ⟨-, read⟩
    · cases read
      exact ⟨by simp, valid⟩
    · obtain ⟨⟨a, ts₁⟩, first, read⟩ := bind_eq_ok.1 read
      obtain ⟨⟨as, ts₂⟩, others, done⟩ := bind_eq_ok.1 read
      cases done
      obtain ⟨here, valid₁⟩ := each _ _ _ _ valid first
      obtain ⟨there, valid₂⟩ := operandTail_yields each _ _ _ _ _ valid₁ others
      exact ⟨List.forall_mem_cons.2 ⟨here, there⟩, valid₂⟩

theorem messageArgument_yields {opcode : String} {index : Nat} :
    Yields Operand.IsArgument (messageArgument stop opcode index) := by
  intro ts o rest valid read
  cases ts with
  | nil => cases read
  | cons t ts =>
    obtain ⟨here, valid'⟩ := List.forall_mem_cons.1 valid
    unfold messageArgument at read
    cases lexeme : t.lexeme <;> simp only [lexeme] at read here
    case integer =>
      cases read
      exact ⟨here, valid'⟩
    case string =>
      cases read
      exact ⟨True.intro, valid'⟩
    all_goals
      obtain ⟨span, -, read⟩ := bind_eq_ok.1 read
      cases read

theorem messageCommand_yields {opcode : String} {index : Nat} :
    Yields MessageCommand.Spelled (messageCommand stop opcode index) := by
  intro ts command rest valid read
  have refused {span : Except Error Span} {fault : OperandFault}
      (read : (do failAt (.invalidOperand opcode index fault) (← span) :
        Except Error (MessageCommand × List Token)) = .ok (command, rest)) : False := by
    obtain ⟨span, -, read⟩ := bind_eq_ok.1 read
    cases read
  cases ts with
  | nil => cases read
  | cons t ts =>
    obtain ⟨here, valid'⟩ := List.forall_mem_cons.1 valid
    unfold messageCommand at read
    cases lexeme : t.lexeme <;> simp only [lexeme] at read
    case string bytes =>
      cases read
      exact ⟨⟨bytes, _, rfl⟩, valid'⟩
    case identifier name =>
      rcases ite_eq_ok.1 read with ⟨known, read⟩ | ⟨-, read⟩
      · obtain ⟨⟨args, last, ts₁⟩, inner, done⟩ := bind_eq_ok.1 read
        cases done
        obtain ⟨spelled, valid₁⟩ := arguments_yields messageArgument_yields valid' inner
        obtain ⟨m, found⟩ := Option.isSome_iff_exists.1 known
        obtain ⟨member, rfl⟩ := MessageOp.ofName?_eq_some.1 found
        have notText : ¬ (m.name == MessageOp.textName) = true := by
          simpa using MessageOp.name_ne_textName member
        refine ⟨?_, valid₁⟩
        rw [MessageCommand.Spelled, MessageCommand.isText, if_neg notText]
        exact ⟨⟨m, member, rfl⟩, spelled⟩
      · exact (refused read).elim
    all_goals exact (refused read).elim

def Operands (opcode : String) (operands : List Operand) : Prop :=
  if Command.takesMessage opcode then ∃ commands span, operands = [.message commands span] ∧
    ∀ c ∈ commands, c.Spelled
  else ∀ o ∈ operands, o.IsSpelled

theorem statementOperands_yields {name : String} {nameSpan : Span} :
    Yields (Operands name) (statementOperands stop name nameSpan) := by
  intro ts os rest valid read
  unfold statementOperands at read
  unfold Operands
  rcases ite_eq_ok.1 read with ⟨takes, read⟩ | ⟨notTakes, read⟩
  · obtain ⟨⟨commands, ts₁⟩, body, done⟩ := bind_eq_ok.1 read
    cases done
    obtain ⟨spelled, valid'⟩ := operandList_yields (fun _ => messageCommand_yields) _ _ _ valid body
    rw [if_pos takes]
    exact ⟨⟨_, _, rfl, spelled⟩, valid'⟩
  · rw [if_neg notTakes]
    exact operandList_yields (fun _ => operand_yields) _ _ _ valid read

end Readers

def Valid : SourceItem → Prop
  | label name _ => Lexeme.IsName name ∧ name ≠ "else"
  | directive _ operands _ => ∀ o ∈ operands, o.IsSpelled
  | statement opcode operands _ => Operands opcode operands

theorem items_valid {stop : Error} {fuel : Nat} {ts : List Token} {found : List SourceItem}
    (valid : ∀ t ∈ ts, t.lexeme.Valid) (read : items stop fuel ts = .ok found) :
    ∀ item ∈ found, item.Valid := by
  induction fuel generalizing ts found with
  | zero => cases read
  | succ fuel ih =>
    have valid' := skipNewlines_valid valid
    unfold items at read
    cases rest : skipNewlines ts with
    | nil =>
      rw [rest] at read
      cases read
    | cons t ts =>
      rw [rest] at read valid'
      obtain ⟨here, valid'⟩ := List.forall_mem_cons.1 valid'
      dsimp only at read
      cases lexeme : t.lexeme <;> simp only [lexeme] at read here
      case endOfInput =>
        cases read
        simp
      case identifier name =>
        cases ts with
        | nil => cases read
        | cons u us =>
          rcases ite_eq_ok.1 read with ⟨-, read⟩ | ⟨-, read⟩
          · obtain ⟨others, more, rfl⟩ := map_eq_ok.1 read
            exact List.forall_mem_cons.2 ⟨here, ih (List.forall_mem_cons.1 valid').2 more⟩
          · obtain ⟨⟨os, ts₁⟩, operands, read⟩ := bind_eq_ok.1 read
            obtain ⟨_, -, read⟩ := bind_eq_ok.1 read
            obtain ⟨others, more, rfl⟩ := map_eq_ok.1 read
            obtain ⟨spelled, valid₁⟩ := statementOperands_yields _ _ _ valid' operands
            exact List.forall_mem_cons.2 ⟨spelled, ih valid₁ more⟩
      case directive name =>
        obtain ⟨⟨os, ts₁⟩, operands, read⟩ := bind_eq_ok.1 read
        obtain ⟨_, -, read⟩ := bind_eq_ok.1 read
        obtain ⟨others, more, rfl⟩ := map_eq_ok.1 read
        obtain ⟨spelled, valid₁⟩ := operandList_yields (fun _ => operand_yields) _ _ _ valid' operands
        exact List.forall_mem_cons.2 ⟨spelled, ih valid₁ more⟩
      all_goals cases read

theorem parse_valid {text : String} {found : List SourceItem} (read : parse text = .ok found) :
    ∀ item ∈ found, item.Valid :=
  items_valid TokenStream.scanFrom_valid read

end SourceItem

end EventScript
