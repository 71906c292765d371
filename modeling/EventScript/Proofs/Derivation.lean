import EventScript.Proofs.Encoding
import EventScript.Proofs.Grammar

namespace EventScript

namespace SourceItem

open Grammar Token

theorem call_operator {operator : Operator} (member : operator ∈ Operator.all) (args : List Operand)
    (nameSpan span : Span) : call operator.name args nameSpan span = .ok (folded operator.name args span) := by
  have roles : ∀ o ∈ Operator.all, o.name = "i8" ∧ o.role = .constant .byte ∨
      o.name = "i16" ∧ o.role = .constant .word ∨ o.name = "i32" ∧ o.role = .constant .long ∨
        o.name = "addr" ∧ o.role = .address ∨ o.name ∉ ["i8", "i16", "i32", "addr"] ∧ o.isProper = true := by
    decide +kernel
  unfold call
  rw [Operator.ofName?_eq_some.2 ⟨member, rfl⟩]
  dsimp only
  rcases roles operator member with ⟨name, role⟩ | ⟨name, role⟩ | ⟨name, role⟩ | ⟨name, role⟩ | ⟨name, role⟩
  case inr.inr.inr.inr =>
    rw [folded_of_notMem name]
    unfold Operator.isProper at role
    split <;> simp_all
  all_goals
    rw [name, role]
    rcases args with _ | ⟨a, _ | ⟨b, rest⟩⟩
    · rfl
    · cases a <;> rfl
    · cases a <;> rfl

theorem call_eq_ok {name : String} {args : List Operand} {nameSpan span : Span} {o : Operand} :
    call name args nameSpan span = .ok o ↔ (Operator.ofName? name).isSome ∧ o = folded name args span := by
  cases found : Operator.ofName? name with
  | none => simp [call, found, failAt]
  | some operator =>
    obtain ⟨member, rfl⟩ := Operator.ofName?_eq_some.1 found
    simp [call_operator member, eq_comm]

section Soundness

variable {α : Type} {stop : Error} {element : List Token → α → Prop}

def Takes (element : List Token → α → Prop) (ts : List Token) (a : α) (rest : List Token) : Prop :=
  ∃ used, ts = used ++ rest ∧ (∀ t ∈ used, t.lexeme ≠ .endOfInput) ∧ element used a

def Derives (element : List Token → α → Prop) (reader : List Token → Except Error (α × List Token)) : Prop :=
  ∀ lo hi ts a rest, Between lo hi ts → reader ts = .ok (a, rest) → Takes element ts a rest

theorem derives_commaTail {one : List Token → Except Error (α × List Token)} (each : Derives element one) (fuel : Nat) :
    Derives (Further Comma element) (commaTail stop one fuel) := by
  induction fuel with
  | zero =>
    intro lo hi ts as rest _ read
    cases ts <;> cases read
  | succ fuel ih =>
    intro lo hi ts as rest ordered read
    cases ts with
    | nil => cases read
    | cons t ts =>
      unfold commaTail at read
      rcases ite_eq_ok.1 read with ⟨isComma, read⟩ | ⟨-, read⟩
      · obtain ⟨⟨a, ts₁⟩, first, read⟩ := bind_eq_ok.1 read
        obtain ⟨⟨as, ts₂⟩, others, done⟩ := bind_eq_ok.1 read
        cases done
        have isComma : t.lexeme = .comma := eq_of_beq isComma
        obtain ⟨used, rfl, notEnd, isElement⟩ := each _ _ _ _ _ ordered.tail first
        obtain ⟨used', rfl, notEnd', further⟩ := ih _ _ _ _ _ ordered.tail.right others
        refine ⟨[t] ++ (used ++ used'), by simp, ?_, .cons ⟨t, rfl, isComma⟩ isElement further⟩
        simp only [List.forall_mem_append, List.forall_mem_singleton]
        exact ⟨by simp [isComma], notEnd, notEnd'⟩
      · cases read
        exact ⟨[], rfl, by simp, .nil⟩

theorem join_span_closing {lo hi : Nat} {name close : Token} (mid : List Token) {rest : List Token}
    (ordered : Between lo hi (name :: (mid ++ close :: rest))) :
    name.span.join close.span = extent (name :: (mid ++ [close])) := by
  have ordered : Between lo hi (([name] ++ (mid ++ [close])) ++ rest) := by simpa using ordered
  exact join_extent ordered.left (by simp) (by simp)

theorem derives_arguments {one : List Token → Except Error (α × List Token)} (each : Derives element one)
    {fuel lo hi : Nat} {name : Token} {ts rest : List Token} {as : List α} {last : Span}
    (ordered : Between lo hi (name :: ts)) (read : arguments stop one fuel name.span ts = .ok (as, last, rest)) :
    Takes (fun used as => Arguments element used as ∧ name.span.join last = extent (name :: used)) ts as rest := by
  cases ts with
  | nil => cases read
  | cons t ts =>
    unfold arguments at read
    rcases ite_eq_ok.1 read with ⟨isOpen, read⟩ | ⟨-, read⟩
    · have isOpen : t.lexeme = .openParen := eq_of_beq isOpen
      cases ts with
      | nil => cases read
      | cons u us =>
        rcases ite_eq_ok.1 read with ⟨isClose, read⟩ | ⟨-, read⟩
        · have isClose : u.lexeme = .closeParen := eq_of_beq isClose
          cases read
          exact ⟨[t, u], rfl, by simp [isOpen, isClose], .empty isOpen isClose, join_span_closing [t] ordered⟩
        · obtain ⟨⟨a, ts₁⟩, first, read⟩ := bind_eq_ok.1 read
          obtain ⟨⟨as, ts₂⟩, others, ended⟩ := bind_eq_ok.1 read
          obtain ⟨used, split, notEnd, isElement⟩ := each _ _ _ _ _ ordered.tail.tail first
          rw [split] at ordered ⊢
          -- The tokens of the first argument are split off, and those of the others from what it leaves.
          obtain ⟨used', rfl, notEnd', further⟩ := derives_commaTail each fuel _ _ _ _ _ ordered.tail.tail.right others
          cases ts₂ with
          | nil => cases ended
          | cons v vs =>
            rcases ite_eq_ok.1 ended with ⟨isClose, ended⟩ | ⟨-, ended⟩
            · have isClose : v.lexeme = .closeParen := eq_of_beq isClose
              cases ended
              refine ⟨t :: (used ++ (used' ++ [v])), by simp, ?_, .list isOpen isElement further isClose, ?_⟩
              · simp only [List.forall_mem_cons, List.forall_mem_append]
                exact ⟨by simp [isOpen], notEnd, notEnd', by simp [isClose]⟩
              · have ordered : Between lo hi (name :: (t :: (used ++ used') ++ v :: rest)) := by simpa using ordered
                simpa using join_span_closing _ ordered
            · cases ended
    · cases read
      exact ⟨[], rfl, by simp, .absent, by simp [Span.join, extent]⟩

theorem derives_term (fuel : Nat) : Derives TermOf (term stop fuel) := by
  induction fuel with
  | zero =>
    intro lo hi ts o rest _ read
    cases ts <;> cases read
  | succ fuel ih =>
    intro lo hi ts o rest ordered read
    cases ts with
    | nil => cases read
    | cons t ts =>
      have single {o : Operand} (isTerm : TermOf [t] o) (notEnd : t.lexeme ≠ .endOfInput) :
          Takes TermOf (t :: ts) o ts := ⟨[t], rfl, by simpa using notEnd, isTerm⟩
      unfold term at read
      cases lexeme : t.lexeme <;> simp only [lexeme] at read
      case identifier name =>
        obtain ⟨⟨args, last, ts₁⟩, inner, read⟩ := bind_eq_ok.1 read
        obtain ⟨o', called, done⟩ := bind_eq_ok.1 read
        cases done
        obtain ⟨used, rfl, notEnd, isArguments, reached⟩ := derives_arguments ih ordered inner
        obtain ⟨known, rfl⟩ := call_eq_ok.1 called
        rw [reached]
        exact ⟨t :: used, rfl, List.forall_mem_cons.2 ⟨by simp [lexeme], notEnd⟩, .operator lexeme known isArguments⟩
      case integer =>
        cases read
        exact single (.integer lexeme) (by simp [lexeme])
      case label =>
        cases read
        exact single (.label lexeme) (by simp [lexeme])
      case offset =>
        cases read
        exact single (.offset lexeme) (by simp [lexeme])
      case atom =>
        cases read
        exact single (.atom lexeme) (by simp [lexeme])
      all_goals cases read

theorem derives_operand : Derives OperandOf (operand stop) := by
  intro lo hi ts o rest ordered read
  cases ts with
  | nil => cases read
  | cons t ts =>
    unfold operand at read
    cases lexeme : t.lexeme <;> simp only [lexeme] at read
    case string =>
      cases read
      exact ⟨[t], rfl, by simp [lexeme], .string lexeme⟩
    case elseWord =>
      cases ts with
      | nil => cases read
      | cons u us =>
        have reached : t.span.join u.span = extent [t, u] := by
          have ordered : Between lo hi (([t] ++ ([] ++ [u])) ++ us) := ordered
          exact join_extent ordered.left (by simp) (by simp)
        dsimp only at read
        rw [reached] at read
        cases lexeme' : u.lexeme <;> simp only [lexeme'] at read
        case label =>
          cases read
          exact ⟨[t, u], rfl, by simp [lexeme, lexeme'], .elseLabel lexeme lexeme'⟩
        case offset =>
          cases read
          exact ⟨[t, u], rfl, by simp [lexeme, lexeme'], .elseOffset lexeme lexeme'⟩
        all_goals cases read
    all_goals
      obtain ⟨used, split, notEnd, isTerm⟩ := derives_term _ _ _ _ _ _ ordered read
      exact ⟨used, split, notEnd, .term isTerm⟩

theorem exists_skipNewlines (ts : List Token) :
    ∃ lines, ts = lines ++ skipNewlines ts ∧ ∀ l ∈ lines, l.lexeme = .newline := by
  refine ⟨ts.takeWhile (·.lexeme == .newline), (List.takeWhile_append_dropWhile).symm, fun l member => ?_⟩
  exact eq_of_beq (List.all_eq_true.1 List.all_takeWhile l member)

theorem derives_operandTail {one : Nat → List Token → Except Error (α × List Token)}
    (each : ∀ index, Derives element (one index)) (fuel index : Nat) :
    Derives (Further CommaLines element) (operandTail stop one fuel index) := by
  induction fuel generalizing index with
  | zero =>
    intro lo hi ts as rest _ read
    cases ts <;> cases read
  | succ fuel ih =>
    intro lo hi ts as rest ordered read
    cases ts with
    | nil => cases read
    | cons t ts =>
      unfold operandTail at read
      rcases ite_eq_ok.1 read with ⟨isComma, read⟩ | ⟨-, read⟩
      · obtain ⟨⟨a, ts₁⟩, first, read⟩ := bind_eq_ok.1 read
        obtain ⟨⟨as, ts₂⟩, others, done⟩ := bind_eq_ok.1 read
        cases done
        have isComma : t.lexeme = .comma := eq_of_beq isComma
        obtain ⟨lines, skipped, newlines⟩ := exists_skipNewlines ts
        have ordered' : Between lo hi (skipNewlines ts) := by
          rw [skipped] at ordered
          exact ordered.tail.right
        obtain ⟨used, split, notEnd, isElement⟩ := each _ _ _ _ _ _ ordered' first
        rw [split] at ordered' skipped
        obtain ⟨used', rfl, notEnd', further⟩ := ih _ _ _ _ _ _ ordered'.right others
        have isSeparator : CommaLines (t :: lines) := ⟨t, lines, rfl, isComma, newlines⟩
        refine ⟨(t :: lines) ++ (used ++ used'), by simp [skipped], ?_, .cons isSeparator isElement further⟩
        simp only [List.forall_mem_append, List.forall_mem_cons]
        exact ⟨⟨by simp [isComma], fun l member => by simp [newlines l member]⟩, notEnd, notEnd'⟩
      · cases read
        exact ⟨[], rfl, by simp, .nil⟩

theorem derives_operandList {one : Nat → List Token → Except Error (α × List Token)}
    (each : ∀ index, Derives element (one index)) : Derives (Series element) (operandList stop one) := by
  intro lo hi ts as rest ordered read
  cases ts with
  | nil => cases read
  | cons t ts =>
    unfold operandList at read
    rcases ite_eq_ok.1 read with ⟨-, read⟩ | ⟨-, read⟩
    · cases read
      exact ⟨[], rfl, by simp, .none⟩
    · obtain ⟨⟨a, ts₁⟩, first, read⟩ := bind_eq_ok.1 read
      obtain ⟨⟨as, ts₂⟩, others, done⟩ := bind_eq_ok.1 read
      cases done
      obtain ⟨used, split, notEnd, isElement⟩ := each _ _ _ _ _ _ ordered first
      rw [split] at ordered ⊢
      obtain ⟨used', rfl, notEnd', further⟩ := derives_operandTail each _ _ _ _ _ _ _ ordered.right others
      exact ⟨used ++ used', by simp, List.forall_mem_append.2 ⟨notEnd, notEnd'⟩, .list isElement further⟩

theorem derives_messageArgument {opcode : String} {index : Nat} :
    Derives ArgumentOf (messageArgument stop opcode index) := by
  intro lo hi ts o rest _ read
  cases ts with
  | nil => cases read
  | cons t ts =>
    unfold messageArgument at read
    cases lexeme : t.lexeme <;> simp only [lexeme] at read
    case integer =>
      cases read
      exact ⟨[t], rfl, by simp [lexeme], .integer lexeme⟩
    case string =>
      cases read
      exact ⟨[t], rfl, by simp [lexeme], .string lexeme⟩
    all_goals
      obtain ⟨span, -, read⟩ := bind_eq_ok.1 read
      cases read

theorem derives_messageCommand {opcode : String} {index : Nat} :
    Derives CommandOf (messageCommand stop opcode index) := by
  intro lo hi ts command rest ordered read
  have refused {span : Except Error Span} {fault : OperandFault}
      (read : (do failAt (.invalidOperand opcode index fault) (← span) :
        Except Error (MessageCommand × List Token)) = .ok (command, rest)) : False := by
    obtain ⟨span, -, read⟩ := bind_eq_ok.1 read
    cases read
  cases ts with
  | nil => cases read
  | cons t ts =>
    unfold messageCommand at read
    cases lexeme : t.lexeme <;> simp only [lexeme] at read
    case string =>
      cases read
      exact ⟨[t], rfl, by simp [lexeme], .string lexeme⟩
    case identifier name =>
      rcases ite_eq_ok.1 read with ⟨known, read⟩ | ⟨-, read⟩
      · obtain ⟨⟨args, last, ts₁⟩, inner, done⟩ := bind_eq_ok.1 read
        cases done
        obtain ⟨used, rfl, notEnd, isArguments, reached⟩ := derives_arguments derives_messageArgument ordered inner
        rw [reached]
        exact ⟨t :: used, rfl, List.forall_mem_cons.2 ⟨by simp [lexeme], notEnd⟩, .command lexeme known isArguments⟩
      · exact (refused read).elim
    all_goals exact (refused read).elim

theorem spanFrom_eq_extent {lo hi : Nat} {t : Token} {ts rest : List Token} {operands : List Operand}
    (ordered : Between lo hi (t :: (ts ++ rest))) (derived : Series OperandOf ts operands) :
    spanFrom t.span operands = extent (t :: ts) := by
  rcases derived.ends with ⟨rfl, rfl⟩ | ⟨-, before, used, last, rfl, isLast, isOperand⟩
  · rfl
  · have ordered : Between lo hi (([t] ++ (before ++ used)) ++ rest) := by simpa using ordered
    rw [spanFrom, isLast, Option.bind_some, isOperand.span]
    exact join_extent ordered.left (by simp) (ne_nil_of_starts isOperand.starts)

theorem messageSpan_eq_extent {span : Span} {ts : List Token} {commands : List MessageCommand}
    (derived : Series CommandOf ts commands) :
    messageSpan span commands = if ts = [] then span else extent ts := by
  rcases derived.ends with ⟨rfl, rfl⟩ | ⟨⟨used, after, first, rfl, isFirst, isCommand⟩,
    before, used', last, split, isLast, isCommand'⟩
  · rfl
  · have nonempty : used ≠ [] := ne_nil_of_starts isCommand.starts
    have start := start_extent_append nonempty after
    have stop := stop_extent_append before (ne_nil_of_starts isCommand'.starts)
    rw [← split] at stop
    rw [if_neg (List.append_ne_nil_of_left_ne_nil nonempty after), messageSpan, isFirst, isLast]
    simp only [Option.bind_some, isCommand.span, isCommand'.span, ← start, ← stop]

theorem spanFrom_message {lo hi : Nat} {t : Token} {ts rest : List Token} {commands : List MessageCommand}
    (ordered : Between lo hi (t :: (ts ++ rest))) :
    spanFrom t.span [.message commands (some (if ts = [] then t.span else extent ts))] = extent (t :: ts) := by
  by_cases empty : ts = []
  · subst empty
    simp [spanFrom, Span.joinOption, Span.join, Operand.span, extent]
  · have ordered : Between lo hi (([t] ++ ([] ++ ts)) ++ rest) := by simpa using ordered
    rw [if_neg empty]
    exact join_extent ordered.left (by simp) empty

theorem takes_directive {lo hi : Nat} {t : Token} {name : String} (lexeme : t.lexeme = .directive name)
    {ts rest : List Token} {operands : List Operand} (ordered : Between lo hi (t :: ts))
    (read : operandList stop (fun _ => operand stop) ts = .ok (operands, rest)) :
    Takes LineOf (t :: ts) (.directive name operands (spanFrom t.span operands)) rest := by
  obtain ⟨used, rfl, notEnd, series⟩ := derives_operandList (fun _ => derives_operand) _ _ _ _ _ ordered.tail read
  rw [spanFrom_eq_extent ordered series]
  exact ⟨t :: used, rfl, List.forall_mem_cons.2 ⟨by simp [lexeme], notEnd⟩, .directive lexeme series⟩

theorem takes_statement {lo hi : Nat} {t : Token} {name : String} (lexeme : t.lexeme = .identifier name)
    {ts rest : List Token} {operands : List Operand} (ordered : Between lo hi (t :: ts))
    (read : statementOperands stop name t.span ts = .ok (operands, rest)) :
    Takes LineOf (t :: ts) (.statement name operands (spanFrom t.span operands)) rest := by
  have named : t.lexeme ≠ .endOfInput := by simp [lexeme]
  rcases ite_eq_ok.1 read with ⟨takes, read⟩ | ⟨notTakes, read⟩
  · obtain ⟨⟨commands, ts₁⟩, body, done⟩ := bind_eq_ok.1 read
    cases done
    obtain ⟨used, rfl, notEnd, series⟩ :=
      derives_operandList (fun _ => derives_messageCommand) _ _ _ _ _ ordered.tail body
    rw [messageSpan_eq_extent series, spanFrom_message ordered]
    exact ⟨t :: used, rfl, List.forall_mem_cons.2 ⟨named, notEnd⟩,
      .message lexeme (mem_messageNames.1 takes) series⟩
  · obtain ⟨used, rfl, notEnd, series⟩ := derives_operandList (fun _ => derives_operand) _ _ _ _ _ ordered.tail read
    rw [spanFrom_eq_extent ordered series]
    exact ⟨t :: used, rfl, List.forall_mem_cons.2 ⟨named, notEnd⟩,
      .statement lexeme (fun member => notTakes (mem_messageNames.2 member)) series⟩

theorem ends_of_endOfItem {ts : List Token} (ended : endOfItem stop ts = .ok ()) : Ends ts := by
  cases ts with
  | nil => cases ended
  | cons t ts =>
    rcases ite_eq_ok.1 ended with ⟨endsItem, -⟩ | ⟨-, ended⟩
    · exact ⟨t, ts, rfl, endsItem⟩
    · cases ended

theorem itemsOf_of_items {fuel lo hi : Nat} {ts : List Token} {found : List SourceItem} (ordered : Between lo hi ts)
    (read : items stop fuel ts = .ok found) :
    ∃ last after, last.lexeme = .endOfInput ∧ ItemsOf (last :: after) ts found := by
  induction fuel generalizing ts found with
  | zero => cases read
  | succ fuel ih =>
    obtain ⟨lines, skipped, newlines⟩ := exists_skipNewlines ts
    suffices afterLines : ∃ last after, last.lexeme = .endOfInput ∧ ItemsOf (last :: after) (skipNewlines ts) found by
      obtain ⟨last, after, isLast, derived⟩ := afterLines
      rw [skipped]
      exact ⟨last, after, isLast, derived.newlines newlines⟩
    rw [skipped] at ordered
    have ordered := ordered.right
    unfold items at read
    cases rest : skipNewlines ts with
    | nil =>
      rw [rest] at read
      cases read
    | cons t ts =>
      rw [rest] at read ordered
      dsimp only at read
      have line {item : SourceItem} {rest : List Token} {later : List SourceItem}
          (takes : Takes LineOf (t :: ts) item rest) (ended : endOfItem stop rest = .ok ())
          (read : items stop fuel rest = .ok later) :
          ∃ last after, last.lexeme = .endOfInput ∧ ItemsOf (last :: after) (t :: ts) (item :: later) := by
        obtain ⟨used, split, -, isLine⟩ := takes
        rw [split] at ordered ⊢
        obtain ⟨last, after, isLast, derived⟩ := ih ordered.right read
        exact ⟨last, after, isLast, .line isLine (ends_of_endOfItem ended) derived⟩
      cases lexeme : t.lexeme <;> simp only [lexeme] at read
      case endOfInput =>
        cases read
        exact ⟨t, ts, lexeme, .nil⟩
      case identifier name =>
        cases ts with
        | nil => cases read
        | cons u us =>
          rcases ite_eq_ok.1 read with ⟨isColon, read⟩ | ⟨-, read⟩
          · have isColon : u.lexeme = .colon := eq_of_beq isColon
            obtain ⟨later, others, rfl⟩ := map_eq_ok.1 read
            obtain ⟨last, after, isLast, derived⟩ := ih ordered.tail.tail others
            exact ⟨last, after, isLast, .label lexeme isColon derived⟩
          · obtain ⟨⟨operands, ts₁⟩, first, read⟩ := bind_eq_ok.1 read
            obtain ⟨⟨⟩, ended, read⟩ := bind_eq_ok.1 read
            obtain ⟨later, others, rfl⟩ := map_eq_ok.1 read
            exact line (takes_statement lexeme ordered first) ended others
      case directive name =>
        obtain ⟨⟨operands, ts₁⟩, first, read⟩ := bind_eq_ok.1 read
        obtain ⟨⟨⟩, ended, read⟩ := bind_eq_ok.1 read
        obtain ⟨later, others, rfl⟩ := map_eq_ok.1 read
        exact line (takes_directive lexeme ordered first) ended others
      all_goals cases read

end Soundness

end SourceItem

end EventScript
