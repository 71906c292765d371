import EventScript.Error

namespace EventScript

inductive SourceItem where
  | label (name : String) (span : Span)
  | directive (name : String) (operands : List Operand) (span : Span)
  | statement (opcode : String) (operands : List Operand) (span : Span)

namespace SourceItem

def span : SourceItem → Span
  | label _ s | directive _ _ s | statement _ _ s => s

def failAt {α : Type} (cause : ParseCause) (span : Span) : Except Error α :=
  .error (.parse ⟨cause, some span⟩)

/-- The operand that an operator makes of its arguments. A constant of forced width and the address
of a reference become the literal and the reference themselves. -/
def call (name : String) (args : List Operand) (nameSpan span : Span) : Except Error Operand :=
  match Operator.ofName? name with
  | none => failAt (.unknownOperator name) nameSpan
  | some o => .ok (match o.role, args with
    | .constant width, [.int value _ _] => .int value (some width) (some span)
    | .address, [.label target width isElse _] => .label target width isElse (some span)
    | .address, [.offset value width isElse _] => .offset value width isElse (some span)
    | _, _ => .expr name args (some span))

section Readers

variable (stop : Error)

def commaTail {α : Type} (one : List Token → Except Error (α × List Token)) :
    Nat → List Token → Except Error (List α × List Token)
  | _, [] => .error stop
  | 0, _ => .error stop
  | fuel + 1, t :: ts =>
    if t.lexeme == .comma then do
      let (a, ts) ← one ts
      let (as, ts) ← commaTail one fuel ts
      return (a :: as, ts)
    else .ok ([], t :: ts)

def arguments {α : Type} (one : List Token → Except Error (α × List Token)) (fuel : Nat)
    (nameSpan : Span) : List Token → Except Error (List α × Span × List Token)
  | [] => .error stop
  | t :: ts =>
    if t.lexeme == .openParen then
      match ts with
      | [] => .error stop
      | u :: us =>
        if u.lexeme == .closeParen then .ok ([], u.span, us)
        else do
          let (a, ts) ← one (u :: us)
          let (as, ts) ← commaTail stop one fuel ts
          match ts with
          | [] => .error stop
          | v :: vs =>
            if v.lexeme == .closeParen then .ok (a :: as, v.span, vs)
            else failAt (.unexpected .closeParen v.lexeme) v.span
    else .ok ([], nameSpan, t :: ts)

/-- A literal, a reference, an atom or an operator with its arguments. There are at most `fuel`
tokens. -/
def term : Nat → List Token → Except Error (Operand × List Token)
  | _, [] => .error stop
  | 0, _ => .error stop
  | fuel + 1, t :: ts =>
    match t.lexeme with
    | .integer value width => .ok (.int value width (some t.span), ts)
    | .label name width => .ok (.label name width false (some t.span), ts)
    | .offset value width => .ok (.offset value width false (some t.span), ts)
    | .atom name => .ok (.atom name (some t.span), ts)
    | .identifier name => do
      let (args, last, ts) ← arguments stop (term fuel) fuel t.span ts
      let operand ← call name args t.span (t.span.join last)
      return (operand, ts)
    | .string _ => failAt .stringInExpression t.span
    | other => failAt (.unexpected .expression other) t.span

def operand (ts : List Token) : Except Error (Operand × List Token) :=
  match ts with
  | [] => .error stop
  | t :: rest =>
    match t.lexeme with
    | .string bytes => .ok (.text bytes (some t.span), rest)
    | .elseWord =>
      match rest with
      | [] => .error stop
      | u :: us =>
        match u.lexeme with
        | .label name width => .ok (.label name width true (some (t.span.join u.span)), us)
        | .offset value width => .ok (.offset value width true (some (t.span.join u.span)), us)
        | other => failAt (.unexpected .elseTarget other) u.span
    | _ => term stop ts.length ts

def skipNewlines (ts : List Token) : List Token := ts.dropWhile (·.lexeme == .newline)

def operandTail {α : Type} (one : Nat → List Token → Except Error (α × List Token)) :
    Nat → Nat → List Token → Except Error (List α × List Token)
  | _, _, [] => .error stop
  | 0, _, _ => .error stop
  | fuel + 1, index, t :: ts =>
    if t.lexeme == .comma then do
      let (a, ts) ← one index (skipNewlines ts)
      let (as, ts) ← operandTail one fuel (index + 1) ts
      return (a :: as, ts)
    else .ok ([], t :: ts)

def operandList {α : Type} (one : Nat → List Token → Except Error (α × List Token)) :
    List Token → Except Error (List α × List Token)
  | [] => .error stop
  | t :: ts =>
    if t.lexeme.endsItem then .ok ([], t :: ts)
    else do
      let (a, ts) ← one 0 (t :: ts)
      let (as, ts) ← operandTail stop one ts.length 1 ts
      return (a :: as, ts)

def skipParens : Nat → Span → List Token → Except Error Span
  | _, _, [] => .error stop
  | depth, span, t :: ts =>
    let span := span.join t.span
    match t.lexeme with
    | .openParen => skipParens (depth + 1) span ts
    | .closeParen => if depth == 1 then .ok span else skipParens (depth - 1) span ts
    | .newline | .endOfInput => .ok span
    | _ => skipParens depth span ts

def skipTerm : List Token → Except Error Span
  | t :: u :: ts =>
    if u.lexeme == .openParen then skipParens stop 0 t.span (u :: ts) else .ok t.span
  | _ => .error stop

def messageArgument (opcode : String) (index : Nat) (ts : List Token) :
    Except Error (Operand × List Token) :=
  match ts with
  | [] => .error stop
  | t :: rest =>
    match t.lexeme with
    | .integer value width => .ok (.int value width (some t.span), rest)
    | .string bytes => .ok (.text bytes (some t.span), rest)
    | _ => do
      let span ← skipTerm stop ts
      failAt (.invalidOperand opcode index .badMessageArgument) span

def messageCommand (opcode : String) (index : Nat) (ts : List Token) :
    Except Error (MessageCommand × List Token) :=
  let refuse : Except Error (MessageCommand × List Token) := do
    let span ← skipTerm stop ts
    failAt (.invalidOperand opcode index .notMessageCommand) span
  match ts with
  | [] => .error stop
  | t :: rest =>
    match t.lexeme with
    | .string bytes =>
      .ok (⟨MessageOp.textName, [.text bytes (some t.span)], some t.span⟩, rest)
    | .identifier name =>
      if (MessageOp.ofName? name).isSome then do
        let (args, last, rest) ←
          arguments stop (messageArgument stop opcode index) rest.length t.span rest
        return (⟨name, args, some (t.span.join last)⟩, rest)
      else refuse
    | _ => refuse

def messageSpan (opcodeSpan : Span) (commands : List MessageCommand) : Span :=
  match commands.head?.bind (·.span), commands.getLast?.bind (·.span) with
  | some first, some last => ⟨first.start, last.stop⟩
  | _, _ => opcodeSpan

def spanFrom (nameSpan : Span) (operands : List Operand) : Span :=
  nameSpan.joinOption (operands.getLast?.bind (·.span))

def statementOperands (name : String) (nameSpan : Span) (ts : List Token) :
    Except Error (List Operand × List Token) :=
  if Command.takesMessage name then do
    let (commands, ts) ← operandList stop (messageCommand stop name) ts
    return ([.message commands (some (messageSpan nameSpan commands))], ts)
  else operandList stop (fun _ => operand stop) ts

def endOfItem : List Token → Except Error Unit
  | [] => .error stop
  | t :: _ => if t.lexeme.endsItem then .ok () else failAt (.unexpected .endOfLine t.lexeme) t.span

def items : Nat → List Token → Except Error (List SourceItem)
  | 0, _ => .error stop
  | fuel + 1, tokens =>
    match skipNewlines tokens with
    | [] => .error stop
    | t :: ts =>
      match t.lexeme with
      | .endOfInput => .ok []
      | .identifier name =>
        match ts with
        | [] => .error stop
        | u :: us =>
          if u.lexeme == .colon then
            (items fuel us).map (.label name ⟨t.span.start, u.span.stop⟩ :: ·)
          else do
            let (operands, ts) ← statementOperands stop name t.span ts
            endOfItem stop ts
            (items fuel ts).map (.statement name operands (spanFrom t.span operands) :: ·)
      | .directive name => do
        let (operands, ts) ← operandList stop (fun _ => operand stop) ts
        endOfItem stop ts
        (items fuel ts).map (.directive name operands (spanFrom t.span operands) :: ·)
      | other => failAt (.unexpected .item other) t.span

end Readers

/-- The items of a text. Tokens are looked at in order, so a syntax error wins over a fault in the
characters after it. -/
def parse (text : String) : Except Error (List SourceItem) :=
  let stream := TokenStream.scan text
  let stop := match stream.fault with
    | some fault => Error.ofScan fault
    | none => .fault .endOfTokens
  items stop (stream.tokens.length + 1) stream.tokens

end SourceItem

end EventScript
