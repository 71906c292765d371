import EventScript.Proofs.Derivation

namespace EventScript

open Token (Between Closed)

namespace Span

theorem Within.join {lo hi : Nat} {a b : Span} (first : a.Within lo hi) (second : b.Within lo hi) :
    (a.join b).Within lo hi := by
  simp only [Within, Span.join] at *
  omega

end Span

theorem Token.Between.span {lo hi : Nat} {t : Token} {ts : List Token} (ordered : Between lo hi (t :: ts)) :
    t.span.Within lo hi :=
  ⟨ordered.1, ordered.2.1, ordered.2.2.le⟩

namespace SourceItem

open Grammar

def Blames (lo hi : Nat) (e : Error) : Prop := ∃ cause span, e = .parse ⟨cause, some span⟩ ∧ span.Within lo hi

def Dangling (ts : List Token) : Prop :=
  ∃ before mark lines last, ts = before ++ mark :: (lines ++ [last]) ∧ mark.lexeme ∈ [.comma, .openParen] ∧
    (∀ l ∈ lines, l.lexeme = .newline) ∧ last.lexeme = .endOfInput

def Unfinished (inMessage : Prop) (ts : List Token) : Prop := inMessage ∧ ((∃ t, ts = [t]) ∨ Dangling ts)

def Refusal (stop : Error) (stuck : List Token → Prop) (lo hi : Nat) (ts : List Token) (e : Error) : Prop :=
  Blames lo hi e ∨ e = stop ∧ (Closed ts → stuck ts)

def Refuses {α : Type} (stop : Error) (stuck : List Token → Prop) (n : Nat) (reader : List Token → Except Error α) :
    Prop :=
  ∀ lo hi ts, ts.length ≤ n → Between lo hi ts → FailsOnly (Refusal stop stuck lo hi ts) (reader ts)

theorem Dangling.append {ts : List Token} (dangling : Dangling ts) (used : List Token) : Dangling (used ++ ts) := by
  obtain ⟨before, mark, lines, last, rfl, isMark⟩ := dangling
  exact ⟨used ++ before, mark, lines, last, by simp, isMark⟩

theorem Unfinished.dangling {inMessage : Prop} {ts : List Token} (unfinished : Unfinished inMessage ts)
    (closed : Closed ts) {mark : Token} {lines : List Token} (isMark : mark.lexeme ∈ [.comma, .openParen])
    (newlines : ∀ l ∈ lines, l.lexeme = .newline) : inMessage ∧ Dangling (mark :: lines ++ ts) := by
  obtain ⟨message, ⟨last, rfl⟩ | dangling⟩ := unfinished
  · have isLast : last.lexeme = .endOfInput := by
      cases closed with
      | last isLast => exact isLast
      | cons _ closed => cases closed
    exact ⟨message, [], mark, lines, last, rfl, isMark, newlines, isLast⟩
  · exact ⟨message, dangling.append (mark :: lines)⟩

section Readers

variable {α : Type} {stop : Error} {stuck stuck' : List Token → Prop} {lo hi : Nat} {element : List Token → α → Prop}

theorem Refusal.append {rest : List Token} {e : Error} (refusal : Refusal stop stuck lo hi rest e) (used : List Token)
    (notEnd : ∀ t ∈ used, t.lexeme ≠ .endOfInput) (extend : Closed rest → stuck rest → stuck' (used ++ rest)) :
    Refusal stop stuck' lo hi (used ++ rest) e := by
  rcases refusal with blames | ⟨isStop, isStuck⟩
  · exact .inl blames
  · refine .inr ⟨isStop, fun closed => ?_⟩
    have closed := closed.of_append notEnd
    exact extend closed (isStuck closed)

theorem Refusal.extend {inMessage : Prop} {used rest : List Token} {e : Error}
    (refusal : Refusal stop (fun ts => inMessage ∧ Dangling ts) lo hi rest e)
    (notEnd : ∀ t ∈ used, t.lexeme ≠ .endOfInput) :
    Refusal stop (fun ts => inMessage ∧ Dangling ts) lo hi (used ++ rest) e :=
  refusal.append used notEnd fun _ stuck => ⟨stuck.1, stuck.2.append used⟩

theorem Refusal.after_mark {inMessage : Prop} {mark : Token} {rest : List Token} {e : Error}
    (refusal : Refusal stop (Unfinished inMessage) lo hi rest e) (isMark : mark.lexeme ∈ [.comma, .openParen])
    (lines : List Token) (newlines : ∀ l ∈ lines, l.lexeme = .newline) :
    Refusal stop (fun ts => inMessage ∧ Dangling ts) lo hi (mark :: lines ++ rest) e := by
  refine refusal.append (mark :: lines) (List.forall_mem_cons.2 ⟨?_, fun l member => ?_⟩) fun closed unfinished =>
    unfinished.dangling closed isMark newlines
  · rintro isEnd
    simp [isEnd] at isMark
  · simp [newlines l member]

theorem failsOnly_nil (used : List Token) (notEnd : ∀ t ∈ used, t.lexeme ≠ .endOfInput) :
    FailsOnly (Refusal stop stuck lo hi used) (.error stop : Except Error α) := by
  refine .error (.inr ⟨rfl, fun closed => ?_⟩)
  rw [← List.append_nil used] at closed
  cases closed.of_append notEnd

theorem failsOnly_failAt {cause : ParseCause} {span : Span} {ts : List Token} (within : span.Within lo hi) :
    FailsOnly (Refusal stop stuck lo hi ts) (failAt cause span : Except Error α) :=
  .error (.inl ⟨cause, span, rfl, within⟩)

theorem commaTail_failsOnly {inMessage : Prop} {n : Nat} {one : List Token → Except Error (α × List Token)}
    (each : Derives element one) (refuses : Refuses stop (Unfinished inMessage) n one) {fuel : Nat} {ts : List Token}
    (short : ts.length ≤ n) (enough : ts.length ≤ fuel) (ordered : Between lo hi ts) :
    FailsOnly (Refusal stop (fun ts => inMessage ∧ Dangling ts) lo hi ts) (commaTail stop one fuel ts) := by
  induction fuel generalizing ts with
  | zero =>
    obtain rfl : ts = [] := List.eq_nil_of_length_eq_zero (Nat.le_zero.1 enough)
    exact failsOnly_nil [] (by simp)
  | succ fuel ih =>
    cases ts with
    | nil => exact failsOnly_nil [] (by simp)
    | cons t ts =>
      rw [List.length_cons] at short enough
      refine .ite (fun isComma => ?_) fun _ => .of_ok rfl
      have isComma : t.lexeme = .comma := eq_of_beq isComma
      refine .bind ?_ fun result read => .bind ?_ fun _ _ => .of_ok rfl
      · refine (refuses lo hi ts (by omega) ordered.tail).mono fun e refusal => ?_
        exact refusal.after_mark (by simp [isComma]) [] (by simp)
      · obtain ⟨a, rest⟩ := result
        obtain ⟨used, rfl, notEnd, -⟩ := each _ _ _ _ _ ordered.tail read
        rw [List.length_append] at short enough
        refine (ih (by omega) (by omega) ordered.tail.right).mono fun e refusal => ?_
        exact refusal.extend (List.forall_mem_cons.2 ⟨by simp [isComma], notEnd⟩)

theorem arguments_failsOnly {inMessage : Prop} {n : Nat} {one : List Token → Except Error (α × List Token)}
    (each : Derives element one) (refuses : Refuses stop (Unfinished inMessage) n one) {fuel : Nat} {ts : List Token}
    (short : ts.length ≤ n) (enough : ts.length ≤ fuel) (ordered : Between lo hi ts) (nameSpan : Span) :
    FailsOnly (Refusal stop (fun ts => inMessage ∧ Dangling ts) lo hi ts) (arguments stop one fuel nameSpan ts) := by
  cases ts with
  | nil => exact failsOnly_nil [] (by simp)
  | cons t ts =>
    refine .ite (fun isOpen => ?_) fun _ => .of_ok rfl
    have isOpen : t.lexeme = .openParen := eq_of_beq isOpen
    cases ts with
    | nil => exact failsOnly_nil [t] (by simp [isOpen])
    | cons u us =>
      simp only [List.length_cons] at short enough
      refine .ite (fun _ => .of_ok rfl) fun _ => .bind ?_ fun result read => ?_
      · refine (refuses lo hi (u :: us) (by rw [List.length_cons]; omega) ordered.tail).mono fun e refusal => ?_
        exact refusal.after_mark (by simp [isOpen]) [] (by simp)
      · obtain ⟨a, rest⟩ := result
        obtain ⟨used, split, notEnd, -⟩ := each _ _ _ _ _ ordered.tail read
        have length := congrArg List.length split
        rw [List.length_cons, List.length_append] at length
        rw [split] at ordered ⊢
        have notEnd : ∀ u ∈ t :: used, u.lexeme ≠ .endOfInput := List.forall_mem_cons.2 ⟨by simp [isOpen], notEnd⟩
        refine .bind ?_ fun result readTail => ?_
        · refine (commaTail_failsOnly each refuses (by omega) (by omega) ordered.tail.right).mono fun e refusal => ?_
          exact refusal.extend notEnd
        · obtain ⟨as, rest'⟩ := result
          obtain ⟨used', rfl, notEnd', -⟩ := derives_commaTail each fuel _ _ _ _ _ ordered.tail.right readTail
          have notEnd' : ∀ u ∈ (t :: used) ++ used', u.lexeme ≠ .endOfInput :=
            List.forall_mem_append.2 ⟨notEnd, notEnd'⟩
          cases rest' with
          | nil => exact failsOnly_nil _ (by simpa using notEnd')
          | cons v vs =>
            exact .ite (fun _ => .of_ok rfl) fun _ => failsOnly_failAt ordered.tail.right.right.span

theorem call_failsOnly {ts : List Token} {nameSpan : Span} (within : nameSpan.Within lo hi) (name : String)
    (args : List Operand) (span : Span) :
    FailsOnly (Refusal stop stuck lo hi ts) (call name args nameSpan span) := by
  unfold call
  split
  · exact failsOnly_failAt within
  · exact .of_ok rfl

theorem term_refuses (fuel : Nat) : Refuses stop (Unfinished False) fuel (term stop fuel) := by
  induction fuel with
  | zero =>
    intro lo hi ts short _
    obtain rfl : ts = [] := List.eq_nil_of_length_eq_zero (Nat.le_zero.1 short)
    exact failsOnly_nil [] (by simp)
  | succ fuel ih =>
    intro lo hi ts short ordered
    cases ts with
    | nil => exact failsOnly_nil [] (by simp)
    | cons t ts =>
      rw [List.length_cons] at short
      have blamed {cause : ParseCause} : FailsOnly (Refusal stop (Unfinished False) lo hi (t :: ts))
          (failAt cause t.span : Except Error (Operand × List Token)) := failsOnly_failAt ordered.span
      unfold term
      cases lexeme : t.lexeme <;> dsimp only
      case identifier name =>
        refine .bind ?_ fun result _ => .bind ?_ fun _ _ => .of_ok rfl
        · -- What is missing in an expression is blamed on the end of the text, which is a token.
          have inner := arguments_failsOnly (derives_term fuel) ih (Nat.le_of_succ_le_succ short)
            (Nat.le_of_succ_le_succ short) ordered.tail t.span
          exact inner.mono fun e refusal => refusal.append [t] (by simp [lexeme]) fun _ stuck => stuck.1.elim
        · exact call_failsOnly ordered.span name _ _
      case integer | label | offset | atom => exact .of_ok rfl
      all_goals exact blamed

theorem operand_refuses (n : Nat) : Refuses stop (Unfinished False) n (operand stop) := by
  intro lo hi ts _ ordered
  cases ts with
  | nil => exact failsOnly_nil [] (by simp)
  | cons t ts =>
    unfold operand
    cases lexeme : t.lexeme <;> simp only [lexeme]
    case string => exact .of_ok rfl
    case elseWord =>
      cases ts with
      | nil => exact failsOnly_nil [t] (by simp [lexeme])
      | cons u us =>
        dsimp only
        split
        · exact .of_ok rfl
        · exact .of_ok rfl
        · exact failsOnly_failAt ordered.tail.span
    all_goals exact term_refuses _ lo hi (t :: ts) le_rfl ordered

theorem operandTail_failsOnly {inMessage : Prop} {one : Nat → List Token → Except Error (α × List Token)}
    (each : ∀ index, Derives element (one index))
    (refuses : ∀ index n, Refuses stop (Unfinished inMessage) n (one index)) {fuel index : Nat} {ts : List Token}
    (enough : ts.length ≤ fuel) (ordered : Between lo hi ts) :
    FailsOnly (Refusal stop (fun ts => inMessage ∧ Dangling ts) lo hi ts) (operandTail stop one fuel index ts) := by
  induction fuel generalizing ts index with
  | zero =>
    obtain rfl : ts = [] := List.eq_nil_of_length_eq_zero (Nat.le_zero.1 enough)
    exact failsOnly_nil [] (by simp)
  | succ fuel ih =>
    cases ts with
    | nil => exact failsOnly_nil [] (by simp)
    | cons t ts =>
      refine .ite (fun isComma => ?_) fun _ => .of_ok rfl
      have isComma : t.lexeme = .comma := eq_of_beq isComma
      obtain ⟨lines, skipped, newlines⟩ := exists_skipNewlines ts
      generalize skipNewlines ts = us at skipped
      subst skipped
      have notEnd : ∀ u ∈ t :: lines, u.lexeme ≠ .endOfInput :=
        List.forall_mem_cons.2 ⟨by simp [isComma], fun l member => by simp [newlines l member]⟩
      have ordered := ordered.tail.right
      refine .bind ?_ fun result read => .bind ?_ fun _ _ => .of_ok rfl
      · refine (refuses index us.length lo hi us le_rfl ordered).mono fun e refusal => ?_
        exact refusal.after_mark (by simp [isComma]) lines newlines
      · obtain ⟨a, rest⟩ := result
        obtain ⟨used, rfl, notEnd', -⟩ := each index _ _ _ _ _ ordered read
        simp only [List.length_append, List.length_cons] at enough
        refine (ih (by omega) ordered.right).mono fun e refusal => ?_
        have extended := refusal.extend (List.forall_mem_append.2 ⟨notEnd, notEnd'⟩)
        rwa [List.append_assoc] at extended

theorem operandList_failsOnly {inMessage : Prop} {one : Nat → List Token → Except Error (α × List Token)}
    (each : ∀ index, Derives element (one index))
    (refuses : ∀ index n, Refuses stop (Unfinished inMessage) n (one index)) {ts : List Token}
    (ordered : Between lo hi ts) :
    FailsOnly (Refusal stop (fun ts => inMessage ∧ Dangling ts) lo hi ts) (operandList stop one ts) := by
  cases ts with
  | nil => exact failsOnly_nil [] (by simp)
  | cons t ts =>
    refine .ite (fun _ => .of_ok rfl) fun goesOn => .bind ?_ fun result read => .bind ?_ fun _ _ => .of_ok rfl
    · refine (refuses 0 _ lo hi (t :: ts) le_rfl ordered).mono fun e refusal => ?_
      have notEnd : t.lexeme ≠ .endOfInput := fun atEnd => goesOn (by simp [atEnd, Lexeme.endsItem])
      rcases refusal with blames | ⟨isStop, stuck⟩
      · exact .inl blames
      · refine .inr ⟨isStop, fun closed => ?_⟩
        obtain ⟨message, ⟨u, single⟩ | dangling⟩ := stuck closed
        · cases single
          cases closed.tail notEnd
        · exact ⟨message, dangling⟩
    · obtain ⟨a, rest⟩ := result
      obtain ⟨used, split, notEnd, -⟩ := each 0 _ _ _ _ _ ordered read
      rw [split] at ordered ⊢
      refine (operandTail_failsOnly each refuses le_rfl ordered.right).mono fun e refusal => ?_
      exact refusal.extend notEnd

theorem skipParens_failsOnly {depth : Nat} {span : Span} {ts : List Token} :
    FailsOnly (fun e => e = stop ∧ ¬ Closed ts) (skipParens stop depth span ts) := by
  induction ts generalizing depth span with
  | nil => exact .error ⟨rfl, nofun⟩
  | cons t ts ih =>
    have goesOn (notEnd : t.lexeme ≠ .endOfInput) {depth : Nat} {span : Span} :
        FailsOnly (fun e => e = stop ∧ ¬ Closed (t :: ts)) (skipParens stop depth span ts) :=
      ih.mono fun e failed => ⟨failed.1, fun closed => failed.2 (closed.tail notEnd)⟩
    unfold skipParens
    cases lexeme : t.lexeme <;> simp only
    case closeParen => exact .ite (fun _ => .of_ok rfl) fun _ => goesOn (by simp [lexeme])
    case newline | endOfInput => exact .of_ok rfl
    all_goals exact goesOn (by simp [lexeme])

theorem skipParens_within {depth : Nat} {span reached : Span} {ts : List Token} (within : span.Within lo hi)
    (ordered : Between lo hi ts) (skipped : skipParens stop depth span ts = .ok reached) : reached.Within lo hi := by
  induction ts generalizing depth span with
  | nil => cases skipped
  | cons t ts ih =>
    have within := within.join ordered.span
    unfold skipParens at skipped
    dsimp only at skipped
    split at skipped
    · exact ih within ordered.tail skipped
    · split at skipped
      · cases skipped
        exact within
      · exact ih within ordered.tail skipped
    · cases skipped
      exact within
    · cases skipped
      exact within
    · exact ih within ordered.tail skipped

theorem refuse_failsOnly {cause : ParseCause} {ts : List Token} (ordered : Between lo hi ts) :
    FailsOnly (Refusal stop (Unfinished True) lo hi ts)
      (do failAt cause (← skipTerm stop ts) : Except Error (α × List Token)) := by
  match ts with
  | [] => exact failsOnly_nil [] (by simp)
  -- The token after the last is asked for here only, to see whether a parenthesis follows.
  | [t] => exact .error (.inr ⟨rfl, fun _ => ⟨True.intro, .inl ⟨t, rfl⟩⟩⟩)
  | t :: u :: us =>
    refine .bind ?_ fun span skipped => failsOnly_failAt ?_
    · refine .ite (fun _ => skipParens_failsOnly.mono ?_) fun _ => .of_ok rfl
      rintro e ⟨isStop, notClosed⟩
      refine .inr ⟨isStop, fun closed => absurd ?_ notClosed⟩
      cases closed with
      | cons _ closed => exact closed
    · rcases ite_eq_ok.1 skipped with ⟨-, skipped⟩ | ⟨-, skipped⟩
      · exact skipParens_within ordered.span ordered.tail skipped
      · cases skipped
        exact ordered.span

theorem messageArgument_refuses (opcode : String) (index n : Nat) :
    Refuses stop (Unfinished True) n (messageArgument stop opcode index) := by
  intro lo hi ts _ ordered
  cases ts with
  | nil => exact failsOnly_nil [] (by simp)
  | cons t ts =>
    unfold messageArgument
    dsimp only
    split
    · exact .of_ok rfl
    · exact .of_ok rfl
    · exact refuse_failsOnly ordered

theorem messageCommand_refuses (opcode : String) (index n : Nat) :
    Refuses stop (Unfinished True) n (messageCommand stop opcode index) := by
  intro lo hi ts _ ordered
  cases ts with
  | nil => exact failsOnly_nil [] (by simp)
  | cons t ts =>
    unfold messageCommand
    cases lexeme : t.lexeme <;> simp only [lexeme]
    case string => exact .of_ok rfl
    case identifier name =>
      refine .ite (fun _ => .bind ?_ fun _ _ => .of_ok rfl) fun _ => refuse_failsOnly ordered
      have refuses : Refuses stop (Unfinished True) ts.length (messageArgument stop opcode index) :=
        messageArgument_refuses opcode index ts.length
      have inner := arguments_failsOnly derives_messageArgument refuses le_rfl (le_refl ts.length) ordered.tail t.span
      exact inner.mono fun e refusal => refusal.append [t] (by simp [lexeme]) fun _ stuck =>
        ⟨stuck.1, .inr (stuck.2.append [t])⟩
    all_goals exact refuse_failsOnly ordered

end Readers

def OpensMessage (ts : List Token) : Prop :=
  ∃ found t u after name, ItemsOf (t :: u :: after) ts found ∧ t.lexeme = .identifier name ∧ name ∈ messageNames ∧
    u.lexeme ≠ .colon

theorem OpensMessage.newlines {lines ts : List Token} (opens : OpensMessage ts)
    (newlines : ∀ l ∈ lines, l.lexeme = .newline) : OpensMessage (lines ++ ts) := by
  obtain ⟨found, t, u, after, name, derived, isMessage⟩ := opens
  exact ⟨found, t, u, after, name, derived.newlines newlines, isMessage⟩

theorem OpensMessage.label {t u : Token} {name : String} {ts : List Token} (opens : OpensMessage ts)
    (lexeme : t.lexeme = .identifier name) (isColon : u.lexeme = .colon) : OpensMessage (t :: u :: ts) := by
  obtain ⟨found, t', u', after, name', derived, isMessage⟩ := opens
  exact ⟨_, t', u', after, name', .label lexeme isColon derived, isMessage⟩

theorem OpensMessage.line {used ts : List Token} {item : SourceItem} (opens : OpensMessage ts)
    (isLine : LineOf used item) (ends : Ends ts) : OpensMessage (used ++ ts) := by
  obtain ⟨found, t, u, after, name, derived, isMessage⟩ := opens
  exact ⟨_, t, u, after, name, .line isLine ends derived, isMessage⟩

section Items

variable {stop : Error} {lo hi : Nat}

theorem operands_failsOnly {t : Token} (notEnd : t.lexeme ≠ .endOfInput) {ts : List Token}
    (ordered : Between lo hi (t :: ts)) :
    FailsOnly (Refusal stop (fun ts => OpensMessage ts ∧ Dangling ts) lo hi (t :: ts))
      (operandList stop (fun _ => operand stop) ts) := by
  refine (operandList_failsOnly (fun _ => derives_operand) (fun _ => operand_refuses) ordered.tail).mono ?_
  exact fun e refusal => refusal.append [t] (by simpa using notEnd) fun _ stuck => stuck.1.elim

theorem statement_failsOnly {t u : Token} {name : String} (lexeme : t.lexeme = .identifier name)
    (notColon : u.lexeme ≠ .colon) {us : List Token} (ordered : Between lo hi (t :: u :: us)) :
    FailsOnly (Refusal stop (fun ts => OpensMessage ts ∧ Dangling ts) lo hi (t :: u :: us))
      (statementOperands stop name t.span (u :: us)) := by
  refine .ite (fun takes => .bind ?_ fun _ _ => .of_ok rfl) fun _ => operands_failsOnly (by simp [lexeme]) ordered
  refine (operandList_failsOnly (fun _ => derives_messageCommand) (messageCommand_refuses name) ordered.tail).mono ?_
  refine fun e refusal => refusal.append [t] (by simp [lexeme]) fun _ stuck => ?_
  exact ⟨⟨[], t, u, us, name, .nil, lexeme, mem_messageNames.1 takes, notColon⟩, stuck.2.append [t]⟩

theorem endOfItem_failsOnly {stuck : List Token → Prop} {used rest : List Token}
    (notEnd : ∀ t ∈ used, t.lexeme ≠ .endOfInput) (ordered : Between lo hi (used ++ rest)) :
    FailsOnly (Refusal stop stuck lo hi (used ++ rest)) (endOfItem stop rest) := by
  cases rest with
  | nil =>
    rw [List.append_nil]
    exact failsOnly_nil used notEnd
  | cons t ts => exact .ite (fun _ => .of_ok rfl) fun _ => failsOnly_failAt ordered.right.span

theorem afterLine_failsOnly {fuel : Nat} {ts rest : List Token} {item : SourceItem} (takes : Takes LineOf ts item rest)
    (ordered : Between lo hi ts) (enough : ts.length < fuel + 1)
    (later : ∀ rest, rest.length < fuel → Between lo hi rest →
      FailsOnly (Refusal stop (fun ts => OpensMessage ts ∧ Dangling ts) lo hi rest) (items stop fuel rest)) :
    FailsOnly (Refusal stop (fun ts => OpensMessage ts ∧ Dangling ts) lo hi ts)
      (do endOfItem stop rest; (items stop fuel rest).map (item :: ·)) := by
  obtain ⟨used, rfl, notEnd, isLine⟩ := takes
  refine .bind (endOfItem_failsOnly notEnd ordered) fun _ ended => .map ?_
  have positive : 0 < used.length := by cases isLine <;> simp
  rw [List.length_append] at enough
  refine (later rest (by omega) ordered.right).mono fun e refusal => refusal.append used notEnd ?_
  exact fun _ stuck => ⟨stuck.1.line isLine (ends_of_endOfItem ended), stuck.2.append used⟩

theorem items_failsOnly {fuel : Nat} {ts : List Token} (enough : ts.length < fuel) (ordered : Between lo hi ts) :
    FailsOnly (Refusal stop (fun ts => OpensMessage ts ∧ Dangling ts) lo hi ts) (items stop fuel ts) := by
  induction fuel generalizing ts with
  | zero => cases enough
  | succ fuel ih =>
    obtain ⟨lines, skipped, newlines⟩ := exists_skipNewlines ts
    have notEnd : ∀ l ∈ lines, l.lexeme ≠ .endOfInput := fun l member => by simp [newlines l member]
    unfold items
    generalize skipNewlines ts = us at skipped
    subst skipped
    rw [List.length_append] at enough
    cases us with
    | nil =>
      rw [List.append_nil]
      exact failsOnly_nil lines notEnd
    | cons t ts =>
      have ordered := ordered.right
      rw [List.length_cons] at enough
      suffices afterLines : FailsOnly (Refusal stop (fun ts => OpensMessage ts ∧ Dangling ts) lo hi (t :: ts)) _ from
        afterLines.mono fun e refusal => refusal.append lines notEnd fun _ stuck =>
          ⟨stuck.1.newlines newlines, stuck.2.append lines⟩
      cases lexeme : t.lexeme <;> simp only [lexeme]
      case endOfInput => exact .of_ok rfl
      case identifier name =>
        cases ts with
        | nil => exact failsOnly_nil [t] (by simp [lexeme])
        | cons u us =>
          rw [List.length_cons] at enough
          refine .ite (fun isColon => .map ?_) fun notColon => .bind ?_ fun result read => ?_
          · have isColon : u.lexeme = .colon := eq_of_beq isColon
            refine (ih (by omega) ordered.tail.tail).mono fun e refusal => ?_
            exact refusal.append [t, u] (by simp [lexeme, isColon]) fun _ stuck =>
              ⟨stuck.1.label lexeme isColon, stuck.2.append [t, u]⟩
          · exact statement_failsOnly lexeme (by simpa using notColon) ordered
          · exact afterLine_failsOnly (takes_statement lexeme ordered read) ordered
              (by simp only [List.length_cons]; omega) fun rest => ih
      case directive name =>
        refine .bind (operands_failsOnly (by simp [lexeme]) ordered) fun result read => ?_
        exact afterLine_failsOnly (takes_directive lexeme ordered read) ordered
          (by simp only [List.length_cons]; omega) fun rest => ih
      all_goals exact failsOnly_failAt ordered.span

end Items

end SourceItem

end EventScript
