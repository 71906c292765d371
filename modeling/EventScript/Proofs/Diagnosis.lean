import EventScript.Proofs.Parsing
import EventScript.Proofs.ReaderFailure
import EventScript.Proofs.WellFormed

namespace EventScript

open Token (Between)

def Span.Located (lo hi : Nat) (span : Option Span) : Prop := ∃ s, span = some s ∧ s.Within lo hi

open EventScript.Span (Located)

namespace Grammar

section Lists

variable {α : Type} {element : List Token → α → Prop} {lo hi : Nat}

theorem Further.exists_phrase {separator : List Token → Prop} {ts : List Token} {as : List α}
    (derived : Further separator element ts as) (ordered : Between lo hi ts) :
    ∀ a ∈ as, ∃ used, element used a ∧ Between lo hi used := by
  induction derived with
  | nil => simp
  | cons _ isElement _ ih =>
    exact List.forall_mem_cons.2 ⟨⟨_, isElement, ordered.right.left⟩, ih ordered.right.right⟩

theorem Series.exists_phrase {ts : List Token} {as : List α} (derived : Series element ts as)
    (ordered : Between lo hi ts) : ∀ a ∈ as, ∃ used, element used a ∧ Between lo hi used := by
  cases derived with
  | none => simp
  | list isElement further =>
    exact List.forall_mem_cons.2 ⟨⟨_, isElement, ordered.left⟩, further.exists_phrase ordered.right⟩

end Lists

theorem folded_ne_message (name : String) (args : List Operand) (span : Span) (commands : List MessageCommand)
    (messageSpan : Option Span) : folded name args span ≠ .message commands messageSpan := by
  unfold folded
  split <;> nofun

theorem OperandOf.ne_message {ts : List Token} {o : Operand} (derived : OperandOf ts o) (commands : List MessageCommand)
    (span : Option Span) : o ≠ .message commands span := by
  cases derived with
  | term isTerm =>
    cases isTerm with
    | operator => exact folded_ne_message _ _ _ _ _
    | _ => nofun
  | _ => nofun

end Grammar

namespace SourceItem

open Grammar

variable {lo hi : Nat}

def Placed (lo hi : Nat) : SourceItem → Prop
  | label _ _ => True
  | directive _ operands span => span.Within lo hi ∧ ∀ o ∈ operands, Located lo hi o.span
  | statement _ operands span => span.Within lo hi ∧ (∀ o ∈ operands, Located lo hi o.span) ∧
      ∀ commands s, operands = [.message commands s] → ∀ command ∈ commands, Located lo hi command.span

theorem located_operands {ts : List Token} {operands : List Operand} (series : Series OperandOf ts operands)
    (ordered : Between lo hi ts) : ∀ o ∈ operands, Located lo hi o.span := by
  intro o member
  obtain ⟨used, isOperand, inside⟩ := series.exists_phrase ordered o member
  exact ⟨_, isOperand.span, inside.extent (ne_nil_of_starts isOperand.starts)⟩

theorem placed_of_line {ts : List Token} {item : SourceItem} (isLine : LineOf ts item) (ordered : Between lo hi ts) :
    item.Placed lo hi := by
  cases isLine with
  | directive _ series => exact ⟨ordered.extent (by simp), located_operands series ordered.tail⟩
  | @statement t name ts operands _ _ series =>
    refine ⟨ordered.extent (by simp), located_operands series ordered.tail, ?_⟩
    rintro commands s rfl
    obtain ⟨used, isOperand, -⟩ := series.exists_phrase ordered.tail _ (List.mem_singleton_self _)
    exact absurd rfl (isOperand.ne_message commands s)
  | @message t name ts commands _ _ series =>
    refine ⟨ordered.extent (by simp), List.forall_mem_singleton.2 ⟨_, rfl, ?_⟩, ?_⟩
    · split
      · exact ordered.span
      · exact ordered.tail.extent ‹_›
    · rintro commands' s same command member
      cases same
      obtain ⟨used, isCommand, inside⟩ := series.exists_phrase ordered.tail command member
      exact ⟨_, isCommand.span, inside.extent (ne_nil_of_starts isCommand.starts)⟩

theorem placed_of_itemsOf {rest ts : List Token} {found : List SourceItem} (derived : ItemsOf rest ts found)
    (ordered : Between lo hi ts) : ∀ item ∈ found, item.Placed lo hi := by
  induction derived with
  | nil => simp
  | newline _ _ ih => exact ih ordered.tail
  | label _ _ _ ih => exact List.forall_mem_cons.2 ⟨True.intro, ih ordered.tail.tail⟩
  | line isLine _ _ ih => exact List.forall_mem_cons.2 ⟨placed_of_line isLine ordered.left, ih ordered.right⟩

def Rejects (lo hi : Nat) (e : Error) : Prop := Blames lo hi e ∨ ∃ error, e = .resolution error

theorem invalidOperand_failsOnly {α : Type} {opcode : String} {index : Nat} {span : Option Span} {fault : OperandFault}
    (located : Located lo hi span) :
    FailsOnly (Rejects lo hi) (invalidOperand opcode index span fault : Except Error α) := by
  obtain ⟨s, rfl, within⟩ := located
  exact .error (.inl ⟨_, s, rfl, within⟩)

theorem failAt_failsOnly {α : Type} {cause : ParseCause} {span : Span} (within : span.Within lo hi) :
    FailsOnly (Rejects lo hi) (failAt cause span : Except Error α) :=
  .error (.inl ⟨_, span, rfl, within⟩)

theorem resolution_failsOnly {α : Type} {x : Except ResolutionError α}
    (writable : FailsOnly (fun e => e.cause.isWritable = true) x) :
    FailsOnly (Rejects lo hi) (x.mapError Error.ofResolution) :=
  FailsOnly.mapError (writable.mono fun error isWritable => .inr ⟨error, if_pos isWritable⟩)

end SourceItem

section Build

open SourceItem

variable {lo hi : Nat}

theorem MessageCommand.normalize_failsOnly (opcode : String) (index : Nat) (done : List MessageCommand)
    {commands : List MessageCommand} (spelled : ∀ command ∈ commands, command.Spelled)
    (located : ∀ command ∈ commands, Located lo hi command.span) :
    FailsOnly (Rejects lo hi) (normalize opcode index done commands) := by
  induction commands generalizing index done with
  | nil => exact .of_ok rfl
  | cons command rest ih =>
    obtain ⟨here, spelled⟩ := List.forall_mem_cons.1 spelled
    obtain ⟨placed, located⟩ := List.forall_mem_cons.1 located
    unfold normalize
    refine .ite (fun isText => ?_) fun _ => ?_
    · rw [Spelled, MessageCommand.isText, if_pos isText] at here
      -- A run of text has its text, because the reader of messages gave it one.
      obtain ⟨bytes, span, args⟩ := here
      rw [args]
      refine .ite (fun _ => ih _ _ spelled located) fun _ => ?_
      split
      · exact invalidOperand_failsOnly placed
      · exact ih _ _ spelled located
    · dsimp only
      split
      · exact invalidOperand_failsOnly placed
      · exact ih _ _ spelled located

theorem EntrySlot.check_failsOnly {name : String} {span : Span} (within : span.Within lo hi) (slots : List EntrySlot)
    (index : Nat) {os : List Operand} (located : ∀ o ∈ os, Located lo hi o.span) :
    FailsOnly (Rejects lo hi) (check name span slots index os) := by
  induction slots generalizing index os with
  | nil =>
    cases os with
    | nil => exact .of_ok rfl
    | cons o os => exact invalidOperand_failsOnly (located o List.mem_cons_self)
  | cons slot slots ih =>
    cases os with
    | nil => exact invalidOperand_failsOnly ⟨span, rfl, within⟩
    | cons o os =>
      obtain ⟨here, others⟩ := List.forall_mem_cons.1 located
      cases slot with
      | label =>
        unfold check
        split
        · exact ih (index + 1) others
        · exact invalidOperand_failsOnly here
        · exact invalidOperand_failsOnly here
      | integer =>
        unfold check
        split
        · exact ih (index + 1) others
        · exact invalidOperand_failsOnly here

theorem Data.check_failsOnly (width : Width) (index : Nat) {os : List Operand}
    (located : ∀ o ∈ os, Located lo hi o.span) : FailsOnly (Rejects lo hi) (check width index os) := by
  induction os generalizing index with
  | nil => exact .of_ok rfl
  | cons o os ih =>
    obtain ⟨here, others⟩ := List.forall_mem_cons.1 located
    exact .ite (fun _ => ih _ others) fun _ => invalidOperand_failsOnly here

theorem Target.ofDirective_failsOnly (name : String) {operands : List Operand} {span : Span}
    (within : span.Within lo hi) (located : ∀ o ∈ operands, Located lo hi o.span) :
    FailsOnly (Rejects lo hi) (ofDirective name operands span) := by
  refine .ite (fun _ => ?_) fun _ => ?_
  · split
    · exact .of_ok rfl
    · exact invalidOperand_failsOnly (located _ List.mem_cons_self)
  · split
    · exact .of_ok rfl
    · exact invalidOperand_failsOnly (located _ (by simp))
    · exact failAt_failsOnly within

namespace Script

theorem addBlock_failsOnly (s : Script) (label : String) (span : Option Span) :
    FailsOnly (fun e => e.cause.isWritable = true) (s.addBlock label span) := by
  unfold addBlock LabelTable.declare
  refine .bind (.ite (fun _ => .error rfl) fun _ => .of_ok rfl) fun _ _ => .of_ok rfl

theorem addSourceItem_failsOnly (s : Script) (item : Item) : FailsOnly (Rejects lo hi) (s.addSourceItem item) := by
  unfold addSourceItem
  split
  · exact .bind (resolution_failsOnly (addBlock_failsOnly _ _ _)) fun _ _ => .of_ok rfl
  · exact .of_ok rfl

theorem addData_failsOnly (s : Script) (width : Width) {values : List Operand} {span : Span}
    (within : span.Within lo hi) (located : ∀ o ∈ values, Located lo hi o.span) :
    FailsOnly (Rejects lo hi) (s.addData width values span) := by
  unfold addData
  split
  · exact .bind (invalidOperand_failsOnly ⟨span, rfl, within⟩) fun _ failed => by cases failed
  · exact .bind (Data.check_failsOnly width 0 located) fun _ _ => addSourceItem_failsOnly _ _

theorem addEntryAt_failsOnly (s : Script) {entry : EntryPoint} (writable : entry.isWritable = true)
    (label : Option Operand) (span : Span) : FailsOnly (Rejects lo hi) (s.addEntryAt entry label span) := by
  unfold addEntryAt
  split
  · refine resolution_failsOnly ?_
    exact .ite (fun _ => .error writable) fun _ => .ite (fun _ => .error rfl) fun _ =>
      .ite (fun _ => .error rfl) fun _ => .of_ok rfl
  · exact .of_ok rfl

theorem addDirective_failsOnly (s : Script) (name : String) {operands : List Operand} {span : Span}
    (spelled : ∀ o ∈ operands, o.IsSpelled) (within : span.Within lo hi)
    (located : ∀ o ∈ operands, Located lo hi o.span) :
    FailsOnly (Rejects lo hi) (s.addDirective name operands span) := by
  refine .ite (fun _ => .error (.inr ⟨_, rfl⟩)) fun _ => ?_
  split
  · exact .bind (EntrySlot.check_failsOnly within _ _ located) fun _ _ => addEntryAt_failsOnly _ rfl _ _
  · refine .ite (fun _ => .bind (EntrySlot.check_failsOnly within _ _ located) fun _ _ => ?_) fun _ => ?_
    · split
      · have inRange : Lexeme.InRange _ := spelled _ List.mem_cons_self _ (Operand.mem_walk_self _)
        refine addEntryAt_failsOnly _ (Lexeme.isWritable_of_key fun key isKey => ?_) _ _
        split at isKey <;> cases isKey <;> exact inRange
      · exact .of_ok rfl
    · split
      · exact addData_failsOnly _ _ within located
      · exact failAt_failsOnly within

theorem commandOperands_failsOnly {c : Command} (member : c ∈ Command.all) {operands : List Operand} {span : Span}
    (valid : (statement c.name operands span).Valid) (placed : (statement c.name operands span).Placed lo hi) :
    FailsOnly (Rejects lo hi) (commandOperands c operands span) := by
  obtain ⟨within, located, inMessage⟩ := placed
  refine .ite (fun isMessage => ?_) fun _ => ?_
  · have takes := (Command.takesMessage_iff member).2 (eq_of_beq isMessage)
    rw [SourceItem.Valid, Operands, if_pos takes] at valid
    obtain ⟨commands, s, rfl, spelled⟩ := valid
    exact .bind (MessageCommand.normalize_failsOnly _ _ _ spelled (inMessage commands s rfl)) fun _ _ => .of_ok rfl
  · split
    · rename_i e _
      refine invalidOperand_failsOnly ?_
      cases found : operands[e.index]? with
      | none => exact ⟨span, rfl, within⟩
      | some o => exact located o (List.mem_of_getElem? found)
    · exact .of_ok rfl

theorem located_commandOperands {c : Command} {operands operands' : List Operand} {span : Span}
    (checked : commandOperands c operands span = .ok operands') (located : ∀ o ∈ operands, Located lo hi o.span) :
    ∀ o ∈ operands', Located lo hi o.span := by
  have marked (o : Operand) : o.markElse.span = o.span := by cases o <;> rfl
  unfold commandOperands at checked
  rcases ite_eq_ok.1 checked with ⟨-, checked⟩ | ⟨-, checked⟩
  · split at checked
    · rename_i commands s rest
      obtain ⟨commands', -, done⟩ := bind_eq_ok.1 checked
      cases done
      rw [List.forall_mem_cons] at located ⊢
      exact located
    · cases checked
      exact located
  · split at checked
    · cases checked
    · cases checked
      intro o member
      obtain ⟨i, inside, rfl⟩ := List.mem_mapIdx.1 member
      have here := located _ (List.getElem_mem inside)
      split
      · rwa [marked]
      · exact here

theorem checkTerminators_failsOnly (opcode : String) (index : Nat) {os : List Operand}
    (located : ∀ o ∈ os, Located lo hi o.span) : FailsOnly (Rejects lo hi) (checkTerminators opcode index os) := by
  induction os generalizing index with
  | nil => exact .of_ok rfl
  | cons o os ih =>
    obtain ⟨here, others⟩ := List.forall_mem_cons.1 located
    exact .ite (fun _ => invalidOperand_failsOnly here) fun _ => ih _ others

theorem addStatement_failsOnly (s : Script) {opcode : String} {operands : List Operand} {span : Span}
    (valid : (statement opcode operands span).Valid) (placed : (statement opcode operands span).Placed lo hi) :
    FailsOnly (Rejects lo hi) (s.addStatement opcode operands span) := by
  unfold addStatement
  split
  · exact failAt_failsOnly placed.1
  · rename_i c found
    obtain ⟨member, rfl⟩ := Command.ofName?_eq_some.1 found
    refine .bind (commandOperands_failsOnly member valid placed) fun operands' checked => ?_
    have located := located_commandOperands checked placed.2.1
    split
    · have later : ∀ o ∈ operands'.drop 1, Located lo hi o.span :=
        fun o member => located o (List.mem_of_mem_drop member)
      exact .bind (checkTerminators_failsOnly _ _ later) fun _ _ => addSourceItem_failsOnly _ _
    · exact addSourceItem_failsOnly _ _

theorem addSource_failsOnly (s : Script) {item : SourceItem} (valid : item.Valid) (placed : item.Placed lo hi) :
    FailsOnly (Rejects lo hi) (s.addSource item) := by
  cases item with
  | label name span => exact resolution_failsOnly (addBlock_failsOnly _ _ _)
  | directive name operands span => exact addDirective_failsOnly s name valid placed.1 placed.2
  | statement opcode operands span => exact addStatement_failsOnly s valid placed

theorem foldlM_failsOnly (s : Script) {found : List SourceItem} (valid : ∀ item ∈ found, item.Valid)
    (placed : ∀ item ∈ found, item.Placed lo hi) : FailsOnly (Rejects lo hi) (found.foldlM addSource s) := by
  induction found generalizing s with
  | nil => exact .of_ok rfl
  | cons item found ih =>
    rw [List.forall_mem_cons] at valid placed
    rw [List.foldlM_cons]
    exact .bind (addSource_failsOnly s valid.1 placed.1) fun s' _ => ih s' valid.2 placed.2

theorem ofItems_failsOnly {found : List SourceItem} (valid : ∀ item ∈ found, item.Valid)
    (placed : ∀ item ∈ found, item.Placed lo hi) : FailsOnly (Rejects lo hi) (ofItems found) := by
  unfold ofItems
  split
  · rename_i name operands span rest
    obtain ⟨⟨within, located⟩, placed⟩ := List.forall_mem_cons.1 placed
    split
    · exact .error (.inr ⟨_, rfl⟩)
    · refine .bind (Target.ofDirective_failsOnly name within located) fun target _ => ?_
      refine .bind (foldlM_failsOnly _ (List.forall_mem_cons.1 valid).2 placed) fun script _ => ?_
      refine .bind (resolution_failsOnly ?_) fun _ _ => .of_ok rfl
      unfold LabelTable.resolveAll
      split
      · exact .error rfl
      · exact .of_ok rfl
  · exact .error (.inr ⟨_, rfl⟩)
  · exact .error (.inr ⟨_, rfl⟩)

end Script

end Build

/-- What the failure tells about the text: a fault of its characters, its syntax or its operands stands in it, and a
failure that is none of them has its cause in it. -/
def Error.Explains (text : String) : Error → Prop
  | .lex e => Located 0 text.length e.diagnostic.span
  | .parse e => Located 0 text.length e.diagnostic.span
  | .resolution _ => True
  | .numeral _ => Text.HasBadNumeral text.toList
  | .fault f => f = .endOfTokens ∧ SourceItem.OpensMessage (TokenStream.scan text).tokens ∧
      SourceItem.Dangling (TokenStream.scan text).tokens
  | .encode _ | .decode _ => False

namespace SourceItem

theorem Blames.explains {text : String} {e : Error} (blames : Blames 0 text.length e) : e.Explains text := by
  obtain ⟨cause, span, rfl, within⟩ := blames
  exact ⟨span, rfl, within⟩

theorem Rejects.explains {text : String} {e : Error} (rejects : Rejects 0 text.length e) : e.Explains text := by
  rcases rejects with blames | ⟨error, rfl⟩
  · exact blames.explains
  · exact True.intro

theorem between_scan (text : String) : Between 0 text.length (TokenStream.scan text).tokens := by
  have ordered := (TokenStream.covers_scan text).ordered
  rwa [Nat.zero_add, String.length_toList] at ordered

theorem parse_failsOnly (text : String) : FailsOnly (Error.Explains text) (parse text) := by
  have covers := TokenStream.covers_scan text
  unfold parse
  dsimp only
  refine (items_failsOnly (Nat.lt_succ_self _) (between_scan text)).mono fun e refusal => ?_
  rcases refusal with blames | ⟨rfl, stuck⟩
  · exact blames.explains
  · cases fault : (TokenStream.scan text).fault with
    | none => exact ⟨rfl, stuck (covers.closed fault)⟩
    | some error =>
      cases error with
      | lex error =>
        have inside := covers.blamed error fault
        rw [Nat.zero_add, String.length_toList] at inside
        exact ⟨_, rfl, Nat.zero_le _, Nat.le_succ _, inside.2⟩
      | numeral error => exact covers.numeral error fault

end SourceItem

/-- A text is a script, or it is told why not: the characters are at fault or the syntax, somewhere in the text, or the
labels and entry points do not go together. Other than that a run of digits may be no numeral, or a message at the end
of the text may be left unfinished. The items of the text are such that all that is looked up about them is there. -/
theorem Script.parse_explains (text : String) :
    (∀ e, Script.parse text = .error e → e.Explains text) ∧
      ∀ found, SourceItem.parse text = .ok found → ∀ item ∈ found, item.Valid := by
  refine ⟨?_, fun found => SourceItem.parse_valid⟩
  refine FailsOnly.bind (SourceItem.parse_failsOnly text) fun found read => ?_
  obtain ⟨-, last, -, derived⟩ := SourceItem.parse_eq_ok.1 read
  have placed := SourceItem.placed_of_itemsOf derived (SourceItem.between_scan text)
  exact (ofItems_failsOnly (SourceItem.parse_valid read) placed).mono fun e => SourceItem.Rejects.explains

def unfinishedText : String := ".globals\nmsg \"a\", wait(1),\n"

theorem Script.parse_explains_unfinished :
    Script.parse unfinishedText = .error (.fault .endOfTokens) ∧
      (Error.fault .endOfTokens).Explains unfinishedText := by
  have failed : Script.parse unfinishedText = .error (.fault .endOfTokens) := rfl
  exact ⟨failed, (Script.parse_explains unfinishedText).1 _ failed⟩

end EventScript
