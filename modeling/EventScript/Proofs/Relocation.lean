import EventScript.Proofs.Parsing
import EventScript.Proofs.TokenTiles

namespace EventScript

mutual

/-- The operand with all its spans moved. -/
def Operand.relocate (f : Nat → Nat) : Operand → Operand
  | .int value width s => .int value width (s.map (Span.relocate f))
  | .atom name s => .atom name (s.map (Span.relocate f))
  | .text bytes s => .text bytes (s.map (Span.relocate f))
  | .label name width isElse s => .label name width isElse (s.map (Span.relocate f))
  | .offset value width isElse s => .offset value width isElse (s.map (Span.relocate f))
  | .expr op args s => .expr op (Operand.relocateAll f args) (s.map (Span.relocate f))
  | .message commands s => .message (MessageCommand.relocateAll f commands) (s.map (Span.relocate f))

def Operand.relocateAll (f : Nat → Nat) : List Operand → List Operand
  | [] => []
  | o :: os => o.relocate f :: Operand.relocateAll f os

def MessageCommand.relocate (f : Nat → Nat) : MessageCommand → MessageCommand
  | ⟨op, args, s⟩ => ⟨op, Operand.relocateAll f args, s.map (Span.relocate f)⟩

def MessageCommand.relocateAll (f : Nat → Nat) : List MessageCommand → List MessageCommand
  | [] => []
  | c :: cs => c.relocate f :: MessageCommand.relocateAll f cs

end

def SourceItem.relocate (f : Nat → Nat) : SourceItem → SourceItem
  | label name s => label name (s.relocate f)
  | directive name operands s => directive name (operands.map (Operand.relocate f)) (s.relocate f)
  | statement opcode operands s => statement opcode (operands.map (Operand.relocate f)) (s.relocate f)

theorem Operand.relocateAll_eq_map (f : Nat → Nat) (os : List Operand) : relocateAll f os = os.map (relocate f) := by
  induction os with
  | nil => rfl
  | cons o os ih => rw [relocateAll, ih, List.map_cons]

theorem MessageCommand.relocateAll_eq_map (f : Nat → Nat) (cs : List MessageCommand) :
    relocateAll f cs = cs.map (relocate f) := by
  induction cs with
  | nil => rfl
  | cons c cs ih => rw [relocateAll, ih, List.map_cons]

theorem Token.extent_relocate (f : Nat → Nat) {ts : List Token} (nonempty : ts ≠ []) :
    extent (ts.map (relocate f)) = (extent ts).relocate f := by
  induction ts with
  | nil => exact absurd rfl nonempty
  | cons t ts ih =>
    by_cases last : ts = []
    · subst last
      rfl
    · rw [List.map_cons, extent_cons (by simpa using last), extent_cons last, ih last]
      rfl

namespace Grammar

open Token (extent)

section Lists

variable {α β : Type} {separator : List Token → Prop} {element element' : List Token → α → Prop} {ts : List Token}
  {as : List α}

theorem Further.imp (derived : Further separator element ts as)
    (each : ∀ us a, us.length ≤ ts.length → element us a → element' us a) : Further separator element' ts as := by
  induction derived with
  | nil => exact .nil
  | @cons s ts us a as isSeparator isElement _ ih =>
    simp only [List.length_append] at each
    refine .cons isSeparator (each ts a (by omega) isElement) (ih fun us a short => each us a ?_)
    omega

theorem Arguments.imp (derived : Arguments element ts as)
    (each : ∀ us a, us.length ≤ ts.length → element us a → element' us a) : Arguments element' ts as := by
  cases derived with
  | absent => exact .absent
  | empty isOpen isClose => exact .empty isOpen isClose
  | @list opening closing ts us a as isOpen isElement further isClose =>
    simp only [List.length_cons, List.length_append] at each
    refine .list isOpen (each ts a (by omega) isElement) (further.imp fun us a short => each us a ?_) isClose
    omega

@[elab_as_elim]
theorem TermOf.induction {motive : ∀ ts o, TermOf ts o → Prop}
    (integer : ∀ {t value width} (lexeme : t.lexeme = .integer value width), motive [t] _ (.integer lexeme))
    (label : ∀ {t name width} (lexeme : t.lexeme = .label name width), motive [t] _ (.label lexeme))
    (offset : ∀ {t value width} (lexeme : t.lexeme = .offset value width), motive [t] _ (.offset lexeme))
    (atom : ∀ {t name} (lexeme : t.lexeme = .atom name), motive [t] _ (.atom lexeme))
    (operator : ∀ {t name us args} (lexeme : t.lexeme = .identifier name) (known : (Operator.ofName? name).isSome)
      (isArguments : Arguments TermOf us args), Arguments (fun us o => ∃ isTerm, motive us o isTerm) us args →
        motive (t :: us) _ (.operator lexeme known isArguments))
    {o : Operand} (derived : TermOf ts o) : motive ts o derived := by
  induction size : ts.length using Nat.strong_induction_on generalizing ts o with
  | _ n ih =>
    subst size
    cases derived with
    | integer lexeme => exact integer lexeme
    | label lexeme => exact label lexeme
    | offset lexeme => exact offset lexeme
    | atom lexeme => exact atom lexeme
    | operator lexeme known isArguments =>
      refine operator lexeme known isArguments
        (isArguments.imp fun us o short isTerm => ⟨isTerm, ih us.length ?_ isTerm rfl⟩)
      rw [List.length_cons]
      omega

variable {place : Token → Token} {change : α → β} {image : List Token → β → Prop}

theorem Further.map (derived : Further separator element ts as)
    (isSeparator : ∀ s, separator s → separator (s.map place))
    (each : ∀ us a, element us a → image (us.map place) (change a)) :
    Further separator image (ts.map place) (as.map change) := by
  induction derived with
  | nil => exact .nil
  | cons separates isElement _ ih =>
    rw [List.map_append, List.map_append, List.map_cons]
    exact .cons (isSeparator _ separates) (each _ _ isElement) ih

theorem Comma.map (same : ∀ t, (place t).lexeme = t.lexeme) (isComma : Comma ts) : Comma (ts.map place) := by
  obtain ⟨c, rfl, isComma⟩ := isComma
  exact ⟨place c, rfl, (same c).trans isComma⟩

theorem CommaLines.map (same : ∀ t, (place t).lexeme = t.lexeme) (isComma : CommaLines ts) :
    CommaLines (ts.map place) := by
  obtain ⟨c, lines, rfl, isComma, newlines⟩ := isComma
  refine ⟨place c, lines.map place, rfl, (same c).trans isComma, List.forall_mem_map.2 fun l member => ?_⟩
  exact (same l).trans (newlines l member)

theorem Arguments.map (derived : Arguments element ts as) (same : ∀ t, (place t).lexeme = t.lexeme)
    (each : ∀ us a, element us a → image (us.map place) (change a)) :
    Arguments image (ts.map place) (as.map change) := by
  cases derived with
  | absent => exact .absent
  | empty isOpen isClose => exact .empty ((same _).trans isOpen) ((same _).trans isClose)
  | list isOpen isElement further isClose =>
    simp only [List.map_cons, List.map_append]
    exact .list ((same _).trans isOpen) (each _ _ isElement) (further.map (fun _ => Comma.map same) each)
      ((same _).trans isClose)

theorem Series.map (derived : Series element ts as) (same : ∀ t, (place t).lexeme = t.lexeme)
    (each : ∀ us a, element us a → image (us.map place) (change a)) : Series image (ts.map place) (as.map change) := by
  cases derived with
  | none => exact .none
  | list isElement further =>
    rw [List.map_append, List.map_cons]
    exact .list (each _ _ isElement) (further.map (fun _ => CommaLines.map same) each)

end Lists

variable {f : Nat → Nat} {ts : List Token}

theorem folded_relocate (name : String) (args : List Operand) (span : Span) :
    (folded name args span).relocate f = folded name (args.map (Operand.relocate f)) (span.relocate f) := by
  by_cases folds : name ∈ ["i8", "i16", "i32", "addr"]
  · simp only [List.mem_cons, List.not_mem_nil, or_false] at folds
    rcases folds with rfl | rfl | rfl | rfl
    all_goals
      rcases args with _ | ⟨a, _ | ⟨b, rest⟩⟩
      · rfl
      · cases a <;> rfl
      · simp [folded, Operand.relocate, Operand.relocateAll_eq_map]
  · rw [folded_of_notMem folds, folded_of_notMem folds, Operand.relocate, Operand.relocateAll_eq_map, Option.map_some]

theorem TermOf.relocate {o : Operand} (derived : TermOf ts o) :
    TermOf (ts.map (Token.relocate f)) (o.relocate f) := by
  induction derived using TermOf.induction with
  | integer lexeme => exact .integer lexeme
  | label lexeme => exact .label lexeme
  | offset lexeme => exact .offset lexeme
  | atom lexeme => exact .atom lexeme
  | @operator t name us args lexeme known _ each =>
    rw [folded_relocate, ← Token.extent_relocate f (List.cons_ne_nil t us)]
    exact .operator lexeme known (each.map (fun _ => rfl) fun _ _ ⟨_, moved⟩ => moved)

theorem OperandOf.relocate {o : Operand} (derived : OperandOf ts o) :
    OperandOf (ts.map (Token.relocate f)) (o.relocate f) := by
  cases derived with
  | string lexeme => exact .string lexeme
  | elseLabel lexeme target => exact .elseLabel lexeme target
  | elseOffset lexeme target => exact .elseOffset lexeme target
  | term isTerm => exact .term isTerm.relocate

theorem ArgumentOf.relocate {o : Operand} (derived : ArgumentOf ts o) :
    ArgumentOf (ts.map (Token.relocate f)) (o.relocate f) := by
  cases derived with
  | integer lexeme => exact .integer lexeme
  | string lexeme => exact .string lexeme

theorem CommandOf.relocate {command : MessageCommand} (derived : CommandOf ts command) :
    CommandOf (ts.map (Token.relocate f)) (command.relocate f) := by
  cases derived with
  | string lexeme => exact .string lexeme
  | @command t name ts args lexeme known arguments =>
    rw [MessageCommand.relocate, Operand.relocateAll_eq_map, Option.map_some,
      ← Token.extent_relocate f (List.cons_ne_nil t ts)]
    exact .command lexeme known (arguments.map (fun _ => rfl) fun _ _ => ArgumentOf.relocate)

theorem LineOf.relocate {item : SourceItem} (derived : LineOf ts item) :
    LineOf (ts.map (Token.relocate f)) (item.relocate f) := by
  cases derived with
  | @directive t name ts operands lexeme series =>
    rw [SourceItem.relocate, ← Token.extent_relocate f (List.cons_ne_nil t ts)]
    exact .directive lexeme (series.map (fun _ => rfl) fun _ _ => OperandOf.relocate)
  | @statement t name ts operands lexeme notMessage series =>
    rw [SourceItem.relocate, ← Token.extent_relocate f (List.cons_ne_nil t ts)]
    exact .statement lexeme notMessage (series.map (fun _ => rfl) fun _ _ => OperandOf.relocate)
  | @message t name ts commands lexeme isMessage series =>
    have span : (if ts = [] then t.span else extent ts).relocate f =
        if ts.map (Token.relocate f) = [] then (t.relocate f).span else extent (ts.map (Token.relocate f)) := by
      by_cases empty : ts = []
      · subst empty
        rfl
      · rw [if_neg empty, if_neg (by simpa using empty), Token.extent_relocate f empty]
    rw [SourceItem.relocate, List.map_singleton, Operand.relocate, MessageCommand.relocateAll_eq_map, Option.map_some,
      span, ← Token.extent_relocate f (List.cons_ne_nil t ts)]
    exact .message lexeme isMessage (series.map (fun _ => rfl) fun _ _ => CommandOf.relocate)

end Grammar

end EventScript
