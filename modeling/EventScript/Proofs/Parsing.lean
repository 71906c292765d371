import EventScript.Proofs.Derivation

namespace EventScript

namespace SourceItem

open Grammar Token

section Completeness

variable {α : Type} (stop : Error) {element : List Token → α → Prop}

def Accepts (n : Nat) (element : List Token → α → Prop) (reader : List Token → Except Error (α × List Token)) : Prop :=
  ∀ lo hi used a rest, element used a → used.length ≤ n → Between lo hi (used ++ rest) → Follows [.openParen] rest →
    reader (used ++ rest) = .ok (a, rest)

theorem Follows.weaken {others fewer : List Lexeme} {rest : List Token} (follows : Follows others rest)
    (subset : fewer ⊆ others) : Follows fewer rest := by
  obtain ⟨t, ts, rfl, notThese⟩ := follows
  exact ⟨t, ts, rfl, fun member => notThese (subset member)⟩

theorem follows_of_further {separator : List Token → Prop}
    (isComma : ∀ s, separator s → ∃ c lines, s = c :: lines ∧ c.lexeme = .comma) {us rest : List Token} {as : List α}
    (derived : Further separator element us as) (follows : Follows [.openParen, .comma] rest) :
    Follows [.openParen] (us ++ rest) := by
  cases derived with
  | nil => exact follows.weaken (by simp)
  | cons isSeparator =>
    obtain ⟨c, lines, rfl, isComma⟩ := isComma _ isSeparator
    exact ⟨c, _, rfl, by simp [isComma]⟩

theorem commaTail_of_further {n : Nat} {one : List Token → Except Error (α × List Token)} (each : Accepts n element one)
    {fuel lo hi : Nat} {us rest : List Token} {as : List α} (derived : Further Comma element us as)
    (short : us.length ≤ n) (enough : us.length < fuel) (ordered : Between lo hi (us ++ rest))
    (follows : Follows [.openParen, .comma] rest) : commaTail stop one fuel (us ++ rest) = .ok (as, rest) := by
  induction derived generalizing fuel with
  | nil =>
    obtain ⟨t, ts, rfl, notThese⟩ := follows
    cases fuel with
    | zero => cases enough
    | succ fuel => simp_all [commaTail]
  | @cons s ts us a as isComma isElement further ih =>
    obtain ⟨c, rfl, isComma⟩ := isComma
    simp only [List.length_append, List.length_singleton] at short enough
    cases fuel with
    | zero => cases enough
    | succ fuel =>
      simp only [List.append_assoc] at ordered
      have ordered := ordered.right
      have next := follows_of_further (fun _ => Comma.eq_cons) further follows
      have first := each _ _ _ _ _ isElement (by omega) ordered next
      have others : commaTail stop one fuel (us ++ rest) = .ok (as, rest) := ih (by omega) (by omega) ordered.right
      rw [List.append_assoc, List.append_assoc, List.singleton_append, commaTail, if_pos (by simp [isComma]), first]
      change (commaTail stop one fuel (us ++ rest) >>= _) = _
      rw [others]
      rfl

theorem arguments_of_derived {n : Nat} {one : List Token → Except Error (α × List Token)} (each : Accepts n element one)
    (starts : ∀ ts a, element ts a → Starts (ts.map (·.lexeme))) {fuel lo hi : Nat} {name : Token}
    {ts rest : List Token} {as : List α} (derived : Arguments element ts as) (short : ts.length ≤ n)
    (enough : ts.length ≤ fuel) (ordered : Between lo hi (name :: (ts ++ rest))) (follows : Follows [.openParen] rest) :
    ∃ last, arguments stop one fuel name.span (ts ++ rest) = .ok (as, last, rest) ∧
      name.span.join last = extent (name :: ts) := by
  cases derived with
  | absent =>
    obtain ⟨t, ts, rfl, notThese⟩ := follows
    refine ⟨name.span, ?_, by simp [Span.join, extent]⟩
    simp_all [arguments]
  | @empty opening closing isOpen isClose =>
    refine ⟨closing.span, ?_, join_span_closing [opening] ordered⟩
    simp [arguments, isOpen, isClose]
  | @list opening closing ts us a as isOpen isElement further isClose =>
    simp only [List.length_cons, List.length_append] at short enough
    have ordered' : Between lo hi (name :: (opening :: (ts ++ us) ++ closing :: rest)) := by simpa using ordered
    refine ⟨closing.span, ?_, by simpa using join_span_closing _ ordered'⟩
    have closes : Follows [.openParen, .comma] (closing :: rest) := ⟨closing, rest, rfl, by simp [isClose]⟩
    have next := follows_of_further (fun _ => Comma.eq_cons) further closes
    have ordered : Between lo hi (ts ++ (us ++ closing :: rest)) := by simpa using ordered'.tail.tail
    have first := each _ _ _ _ _ isElement (by omega) ordered next
    have others : commaTail stop one fuel (us ++ closing :: rest) = .ok (as, closing :: rest) :=
      commaTail_of_further stop each further (by omega) (by omega) ordered.right closes
    obtain ⟨l, ls, split, notThese⟩ := starts _ _ isElement
    obtain ⟨u, us', rfl, isFirst, -⟩ := List.map_eq_cons_iff.1 split
    -- The reader looks for an empty list first, and no phrase starts like its end.
    have notClose : ¬ (u.lexeme == .closeParen) = true := by
      intro isClose
      exact notThese (by simp [← isFirst, eq_of_beq isClose])
    simp only [List.cons_append, List.append_assoc, List.nil_append] at first ⊢
    rw [arguments, if_pos (by simp [isOpen])]
    dsimp only
    rw [if_neg notClose, first]
    change (commaTail stop one fuel (us ++ closing :: rest) >>= _) = _
    rw [others]
    change (if (closing.lexeme == .closeParen) = true then _ else _) = _
    rw [if_pos (by simp [isClose])]

theorem accepts_term (fuel : Nat) : Accepts fuel TermOf (term stop fuel) := by
  induction fuel with
  | zero =>
    intro lo hi used o rest derived short _ _
    have empty : used = [] := List.eq_nil_of_length_eq_zero (Nat.le_zero.1 short)
    exact absurd empty (ne_nil_of_starts derived.starts)
  | succ fuel ih =>
    intro lo hi used o rest derived short ordered follows
    cases derived with
    | integer lexeme | label lexeme | offset lexeme | atom lexeme => simp [term, lexeme]
    | @operator t name ts args lexeme known isArguments =>
      -- The arguments have fewer tokens than the term, so that less fuel is enough for each.
      rw [List.length_cons] at short
      obtain ⟨last, read, reached⟩ := arguments_of_derived stop ih (fun _ _ => TermOf.starts) isArguments
        (Nat.le_of_succ_le_succ short) (Nat.le_of_succ_le_succ short) ordered follows
      rw [List.cons_append, term]
      simp only [lexeme]
      rw [read]
      change (call name args t.span (t.span.join last) >>= _) = _
      rw [call_eq_ok.2 ⟨known, rfl⟩, reached]
      rfl

theorem accepts_operand (n : Nat) : Accepts n OperandOf (operand stop) := by
  intro lo hi used o rest derived short ordered follows
  cases derived with
  | string lexeme => simp [operand, lexeme]
  | @elseLabel t u _ _ lexeme lexeme' | @elseOffset t u _ _ lexeme lexeme' =>
    have reached : t.span.join u.span = extent [t, u] := join_span_closing [] ordered
    simp [operand, lexeme, lexeme', reached]
  | term isTerm =>
    have read := accepts_term stop (used ++ rest).length _ _ _ _ _ isTerm (by simp) ordered follows
    obtain ⟨t, ts, rfl, opens⟩ : ∃ t ts, used = t :: ts ∧ opensTerm t.lexeme = true := by
      cases isTerm with
      | integer lexeme | label lexeme | offset lexeme | atom lexeme | operator lexeme =>
        exact ⟨_, _, rfl, by simp [lexeme, opensTerm]⟩
    exact (operand_of_opensTerm opens (ts ++ rest)).trans read

theorem accepts_messageArgument (opcode : String) (index n : Nat) :
    Accepts n ArgumentOf (messageArgument stop opcode index) := by
  intro lo hi used o rest derived _ _ _
  cases derived with
  | integer lexeme | string lexeme => simp [messageArgument, lexeme]

theorem accepts_messageCommand (opcode : String) (index n : Nat) :
    Accepts n CommandOf (messageCommand stop opcode index) := by
  intro lo hi used command rest derived _ ordered follows
  cases derived with
  | string lexeme => simp [messageCommand, lexeme]
  | @command t name ts args lexeme known isArguments =>
    obtain ⟨last, read, reached⟩ := arguments_of_derived stop (accepts_messageArgument stop opcode index ts.length)
      (fun _ _ => ArgumentOf.starts) isArguments le_rfl (by simp : ts.length ≤ (ts ++ rest).length) ordered follows
    rw [List.cons_append, messageCommand]
    simp only [lexeme]
    rw [if_pos known, read]
    change Except.ok (MessageCommand.mk name args (some (t.span.join last)), rest) = _
    rw [reached]

theorem operandTail_of_further {one : Nat → List Token → Except Error (α × List Token)}
    (each : ∀ index n, Accepts n element (one index)) (starts : ∀ ts a, element ts a → Starts (ts.map (·.lexeme)))
    {fuel index lo hi : Nat} {us rest : List Token} {as : List α} (derived : Further CommaLines element us as)
    (enough : us.length < fuel) (ordered : Between lo hi (us ++ rest)) (follows : Follows [.openParen, .comma] rest) :
    operandTail stop one fuel index (us ++ rest) = .ok (as, rest) := by
  induction derived generalizing fuel index with
  | nil =>
    obtain ⟨t, ts, rfl, notThese⟩ := follows
    cases fuel with
    | zero => cases enough
    | succ fuel => simp_all [operandTail]
  | @cons s ts us a as isComma isElement further ih =>
    obtain ⟨c, lines, rfl, isComma, newlines⟩ := isComma
    simp only [List.length_append, List.length_cons] at enough
    cases fuel with
    | zero => cases enough
    | succ fuel =>
      simp only [List.append_assoc] at ordered
      have ordered := ordered.right
      have next := follows_of_further (fun _ => CommaLines.eq_cons) further follows
      have first := each index _ _ _ _ _ _ isElement le_rfl ordered next
      have others : operandTail stop one fuel (index + 1) (us ++ rest) = .ok (as, rest) := ih (by omega) ordered.right
      have skipped := skipNewlines_append (List.map_eq_replicate_iff.2 newlines) (starts _ _ isElement) (us ++ rest)
      simp only [List.append_assoc, List.cons_append]
      rw [operandTail, if_pos (by simp [isComma]), skipped, first]
      change (operandTail stop one fuel (index + 1) (us ++ rest) >>= _) = _
      rw [others]
      rfl

theorem operandList_of_series {one : Nat → List Token → Except Error (α × List Token)}
    (each : ∀ index n, Accepts n element (one index)) (starts : ∀ ts a, element ts a → Starts (ts.map (·.lexeme)))
    {lo hi : Nat} {ts rest : List Token} {as : List α} (derived : Series element ts as)
    (ordered : Between lo hi (ts ++ rest)) (ends : Ends rest) : operandList stop one (ts ++ rest) = .ok (as, rest) := by
  cases derived with
  | none =>
    obtain ⟨t, ts, rfl, endsItem⟩ := ends
    simp [operandList, endsItem]
  | @list ts us a as isElement further =>
    rw [List.append_assoc] at ordered ⊢
    have next := follows_of_further (fun _ => CommaLines.eq_cons) further ends.follows
    have first := each 0 _ _ _ _ _ _ isElement le_rfl ordered next
    have enough : us.length < (us ++ rest).length := by
      obtain ⟨t, others, rfl, -⟩ := ends
      simp
    have others : operandTail stop one (us ++ rest).length 1 (us ++ rest) = .ok (as, rest) :=
      operandTail_of_further stop each starts further enough ordered.right ends.follows
    obtain ⟨l, ls, split, notThese⟩ := starts _ _ isElement
    obtain ⟨t, ts', rfl, rfl, -⟩ := List.map_eq_cons_iff.1 split
    have goesOn : ¬ t.lexeme.endsItem = true := by
      intro endsItem
      rcases endsItem_iff.1 endsItem with isNewline | isEnd
      · exact notThese (by simp [isNewline])
      · exact notThese (by simp [isEnd])
    rw [List.cons_append] at first ⊢
    rw [operandList, if_neg goesOn, first]
    change (operandTail stop one (us ++ rest).length 1 (us ++ rest) >>= _) = _
    rw [others]
    rfl

theorem endOfItem_of_ends {rest : List Token} (ends : Ends rest) : endOfItem stop rest = .ok () := by
  obtain ⟨t, ts, rfl, endsItem⟩ := ends
  exact if_pos endsItem

theorem exists_notColon (starts : ∀ ts a, element ts a → Starts (ts.map (·.lexeme))) {ts rest : List Token}
    {as : List α} (derived : Series element ts as) (ends : Ends rest) :
    ∃ u us, ts ++ rest = u :: us ∧ ¬ (u.lexeme == .colon) = true := by
  cases derived with
  | none =>
    obtain ⟨t, ts, rfl, endsItem⟩ := ends
    refine ⟨t, ts, rfl, fun isColon => ?_⟩
    rw [eq_of_beq isColon] at endsItem
    cases endsItem
  | list isElement =>
    obtain ⟨l, ls, split, notThese⟩ := starts _ _ isElement
    obtain ⟨u, us, rfl, rfl, -⟩ := List.map_eq_cons_iff.1 split
    exact ⟨u, _, rfl, fun isColon => notThese (by simp [eq_of_beq isColon])⟩

theorem items_after_line {fuel : Nat} {rest : List Token} {found : List SourceItem} (ends : Ends rest)
    (later : items stop fuel rest = .ok found) (item : SourceItem) :
    (do endOfItem stop rest; (items stop fuel rest).map (item :: ·)) = .ok (item :: found) := by
  rw [endOfItem_of_ends stop ends, later]
  rfl

theorem items_of_statement {fuel : Nat} {t : Token} {name : String} (lexeme : t.lexeme = .identifier name)
    {ts rest : List Token} {operands : List Operand} {found : List SourceItem}
    (next : ∃ u us, ts = u :: us ∧ ¬ (u.lexeme == .colon) = true)
    (read : statementOperands stop name t.span ts = .ok (operands, rest)) (ends : Ends rest)
    (later : items stop fuel rest = .ok found) :
    items stop (fuel + 1) (t :: ts) = .ok (.statement name operands (spanFrom t.span operands) :: found) := by
  obtain ⟨u, us, rfl, notColon⟩ := next
  have notNewline : skipNewlines (t :: u :: us) = t :: u :: us := List.dropWhile_cons_of_neg (by simp [lexeme])
  rw [items, notNewline]
  simp only [lexeme]
  rw [if_neg notColon, read]
  exact items_after_line stop ends later _

theorem items_of_directive {fuel : Nat} {t : Token} {name : String} (lexeme : t.lexeme = .directive name)
    {ts rest : List Token} {operands : List Operand} {found : List SourceItem}
    (read : operandList stop (fun _ => operand stop) ts = .ok (operands, rest)) (ends : Ends rest)
    (later : items stop fuel rest = .ok found) :
    items stop (fuel + 1) (t :: ts) = .ok (.directive name operands (spanFrom t.span operands) :: found) := by
  have notNewline : skipNewlines (t :: ts) = t :: ts := List.dropWhile_cons_of_neg (by simp [lexeme])
  rw [items, notNewline]
  simp only [lexeme]
  rw [read]
  exact items_after_line stop ends later _

theorem items_of_line {fuel lo hi : Nat} {ts rest : List Token} {item : SourceItem} {found : List SourceItem}
    (isLine : LineOf ts item) (ends : Ends rest) (ordered : Between lo hi (ts ++ rest))
    (later : items stop fuel rest = .ok found) : items stop (fuel + 1) (ts ++ rest) = .ok (item :: found) := by
  have operands {ts : List Token} {os : List Operand} (series : Series OperandOf ts os)
      (ordered : Between lo hi (ts ++ rest)) :
      operandList stop (fun _ => operand stop) (ts ++ rest) = .ok (os, rest) :=
    operandList_of_series stop (fun _ => accepts_operand stop) (fun _ _ => OperandOf.starts) series ordered ends
  cases isLine with
  | directive lexeme series =>
    rw [← spanFrom_eq_extent ordered series]
    exact items_of_directive stop lexeme (operands series ordered.tail) ends later
  | statement lexeme notMessage series =>
    rw [← spanFrom_eq_extent ordered series]
    refine items_of_statement stop lexeme (exists_notColon (fun _ _ => OperandOf.starts) series ends) ?_ ends later
    rw [statementOperands, if_neg fun takes => notMessage (mem_messageNames.1 takes)]
    exact operands series ordered.tail
  | @message t name ts commands lexeme isMessage series =>
    rw [List.cons_append, ← spanFrom_message ordered]
    refine items_of_statement stop lexeme (exists_notColon (fun _ _ => CommandOf.starts) series ends) ?_ ends later
    have read := operandList_of_series stop (accepts_messageCommand stop name) (fun _ _ => CommandOf.starts) series
      ordered.tail ends
    rw [statementOperands, if_pos (mem_messageNames.2 isMessage), read, ← messageSpan_eq_extent series]
    rfl

theorem items_of_itemsOf {fuel lo hi : Nat} {last : Token} {ts : List Token} {found : List SourceItem}
    (isLast : last.lexeme = .endOfInput) (derived : ItemsOf [last] ts found) (enough : ts.length ≤ fuel)
    (ordered : Between lo hi ts) : items stop fuel ts = .ok found := by
  induction derived generalizing fuel with
  | nil =>
    cases fuel with
    | zero => cases enough
    | succ fuel => simp [items, skipNewlines, isLast]
  | @newline t ts found isNewline _ ih =>
    have sameItems : items stop fuel (t :: ts) = items stop fuel ts := by
      cases fuel with
      | zero => rfl
      | succ fuel => rw [items, items, skipNewlines, List.dropWhile_cons_of_pos (by simp [isNewline]), skipNewlines]
    rw [List.length_cons] at enough
    rw [sameItems]
    exact ih (by omega) ordered.tail
  | @label t u name ts found lexeme isColon _ ih =>
    cases fuel with
    | zero => cases enough
    | succ fuel =>
      simp only [List.length_cons] at enough
      have later : items stop fuel ts = .ok found := ih (by omega) ordered.tail.tail
      simp [items, skipNewlines, lexeme, isColon, extent, later, Except.map]
  | @line ts us item found isLine ends _ ih =>
    have nonempty : ts ≠ [] := by cases isLine <;> simp
    have positive : 0 < ts.length := List.length_pos_of_ne_nil nonempty
    rw [List.length_append] at enough
    cases fuel with
    | zero => omega
    | succ fuel => exact items_of_line stop isLine ends ordered (ih (by omega) ordered.right)

end Completeness

theorem parse_eq_ok {text : String} {found : List SourceItem} :
    parse text = .ok found ↔ (TokenStream.scan text).fault = none ∧ FileOf (TokenStream.scan text).tokens found := by
  have covers := TokenStream.covers_scan text
  unfold parse
  dsimp only
  constructor
  · intro read
    obtain ⟨last, after, isLast, derived⟩ := itemsOf_of_items covers.ordered read
    obtain ⟨before, split⟩ := derived.suffix
    have noFault : (TokenStream.scan text).fault = none := by
      by_contra fault
      exact covers.cut fault last (by simp [← split]) isLast
    refine ⟨noFault, last, isLast, ?_⟩
    have closed := covers.closed noFault
    rw [← split] at closed
    rwa [closed.after_eq_nil isLast] at derived
  · rintro ⟨noFault, last, isLast, derived⟩
    exact items_of_itemsOf _ isLast derived (by simp) covers.ordered

/-- Items are read from a text exactly if all of it can be read as tokens, and these are derived by the grammar; the
items are then those of the derivation, and there is no other. -/
theorem parse_iff_derived (text : String) :
    (∀ found, parse text = .ok found ↔
      (TokenStream.scan text).fault = none ∧ FileOf (TokenStream.scan text).tokens found) ∧
    ∀ found found', FileOf (TokenStream.scan text).tokens found → FileOf (TokenStream.scan text).tokens found' →
      found = found' := by
  refine ⟨fun found => parse_eq_ok, fun found found' derived derived' => ?_⟩
  have noFault : (TokenStream.scan text).fault = none := by
    by_contra fault
    obtain ⟨last, isLast, derived⟩ := derived
    exact (TokenStream.covers_scan text).cut fault last (derived.suffix.mem (by simp)) isLast
  have read := parse_eq_ok.2 ⟨noFault, derived⟩
  have read' := parse_eq_ok.2 ⟨noFault, derived'⟩
  rw [read] at read'
  cases read'
  rfl

-- A list may go on on a new line after a comma, but not before one.
example : (parse "msg \"a\",\n\"b\"").isOk = true ∧ (parse "msg \"a\"\n, \"b\"").isOk = false := by decide +kernel

end SourceItem

end EventScript
