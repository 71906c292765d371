import EventScript.Proofs.Scanning
import Mathlib.Data.List.Infix

namespace EventScript

namespace Text

/-- A run of digits among these characters may be no numeral: one of them is no decimal digit, or there are more decimal
digits in a row than a numeral may have. -/
def HasBadNumeral (cs : List Char) : Prop :=
  (∃ c ∈ cs, 128 ≤ c.toNat ∧ isDigit c = true ∧ isDecimal c = false) ∨
    ∃ run, run <:+: cs ∧ maxDecimalDigits < run.length ∧ ∀ c ∈ run, isDecimal c = true

theorem HasBadNumeral.mono {cs ds : List Char} (bad : HasBadNumeral cs) (inside : cs <:+: ds) :
    HasBadNumeral ds := by
  rcases bad with ⟨c, member, notDecimal⟩ | ⟨run, isRun, long⟩
  · exact .inl ⟨c, inside.subset member, notDecimal⟩
  · exact .inr ⟨run, isRun.trans inside, long⟩

theorem HasBadNumeral.cons {cs : List Char} (bad : HasBadNumeral cs) (c : Char) : HasBadNumeral (c :: cs) :=
  bad.mono (List.suffix_cons c cs).isInfix

theorem not_ascii_of_not_isDecimal {c : Char} (digit : isDigit c = true) (notDecimal : isDecimal c = false) :
    128 ≤ c.toNat := by
  by_contra small
  have ascii : c.toNat < 128 := Nat.lt_of_not_le small
  rw [isDigit_ascii ascii] at digit
  obtain ⟨n, below, rfl⟩ := exists_ascii ascii
  have table : ∀ n < 128, (Char.ofNat n).isDigit = true → isDecimal (Char.ofNat n) = true := by decide +kernel
  rw [table n below digit] at notDecimal
  cases notDecimal

theorem decimalValue?_eq_some {c : Char} {v : Nat} (found : decimalValue? c = some v) :
    v < 10 ∧ ∃ start ∈ decimalZeros, c.toNat = start + v := by
  obtain ⟨start, isStart, rfl⟩ := Option.map_eq_some_iff.1 found
  have range := List.find?_some isStart
  simp only [Bool.and_eq_true, decide_eq_true_eq] at range
  exact ⟨by omega, start, List.mem_of_find?_eq_some isStart, by omega⟩

namespace Numeral

theorem isDigit_toAscii {c : Char} (decimal : isDecimal c = true) : (toAscii c).isDigit = true := by
  obtain ⟨v, found⟩ := Option.isSome_iff_exists.1 decimal
  obtain ⟨small, start, isStart, place⟩ := decimalValue?_eq_some found
  have table : ∀ start ∈ decimalZeros, start = 48 ∨ 0x7f ≤ start ∧
      ∀ v < 10, isWideBlank (Char.ofNat (start + v)) = false := by decide +kernel
  have digits : ∀ v < 10, (Char.ofNat (48 + v)).isDigit = true := by decide +kernel
  rcases table start isStart with rfl | ⟨high, notBlank⟩
  · have ascii : c.toNat < 0x7f := by omega
    rw [toAscii, if_pos ascii, ← Char.ofNat_toNat c, place]
    exact digits v small
  · have notAscii : ¬ c.toNat < 0x7f := by omega
    have blank : ¬ isWideBlank c = true := by
      rw [← Char.ofNat_toNat c, place, notBlank v small]
      exact Bool.false_ne_true
    rw [toAscii, if_neg notAscii, if_neg blank, found]
    exact digits v small

theorem hasBadNumeral_of_parse {ds : List Char} {e : NumeralError} (nonempty : ds ≠ [])
    (digits : ∀ c ∈ ds, isDigit c = true) (failed : parse .decimal (String.ofList ds) = .error e) :
    HasBadNumeral ds := by
  by_cases decimal : ∀ c ∈ ds, isDecimal c = true
  · refine .inr ⟨ds, List.infix_rfl, ?_, decimal⟩
    by_contra short
    have ascii : ∀ c ∈ ds, (toAscii c).isDigit = true := fun c member => isDigit_toAscii (decimal c member)
    rw [parse_digits ascii, magnitude_digits .decimal _ (by simpa using ascii) (by simpa using nonempty)
      (by simpa using short) (by simp)] at failed
    cases failed
  · simp only [not_forall, Bool.not_eq_true] at decimal
    obtain ⟨c, member, notDecimal⟩ := decimal
    exact .inl ⟨c, member, not_ascii_of_not_isDecimal (digits c member) notDecimal, digits c member, notDecimal⟩

end Numeral

end Text

theorem skipGap_eq_ok {gap : Gap} {cs cs' : List Char} {place place' : Nat}
    (skipped : skipGap gap cs place = .ok (cs', place')) :
    ∃ before, cs = before ++ cs' ∧ place' = place + before.length := by
  have longer (first : List Char) {cs : List Char} {place : Nat}
      (ih : ∃ before, cs = before ++ cs' ∧ place' = place + first.length + before.length) :
      ∃ before, first ++ cs = before ++ cs' ∧ place' = place + before.length := by
    obtain ⟨before, rfl, rfl⟩ := ih
    exact ⟨first ++ before, by simp, by simp [Nat.add_assoc]⟩
  fun_induction skipGap gap cs place with
  | case1 => cases skipped
  | case2 _ cs place ih => exact longer ['*', '/'] (ih skipped)
  | case3 _ c cs place _ ih => exact longer [c] (ih skipped)
  | case6 c cs place _ ih => exact longer [c] (ih skipped)
  | case8 cs place ih => exact longer ['/', '*'] (ih skipped)
  | case9 c cs place _ _ ih => exact longer [c] (ih skipped)
  | case10 c cs place _ _ _ ih => exact longer [c] (ih skipped)
  | case4 | case5 | case7 | case11 =>
    cases skipped
    exact ⟨[], rfl, rfl⟩

theorem skipGap_eq_error {gap : Gap} {cs : List Char} {place opened : Nat}
    (failed : skipGap gap cs place = .error opened) :
    gap = .blockComment opened ∨ place ≤ opened ∧ opened < place + cs.length := by
  fun_induction skipGap gap cs place with
  | case1 =>
    cases failed
    exact .inl rfl
  | case2 _ cs place ih =>
    rcases ih failed with same | inside
    · cases same
    · simp only [List.length_cons]
      omega
  | case3 _ c cs place _ ih =>
    refine (ih failed).imp_right fun inside => ?_
    simp only [List.length_cons]
    omega
  | case8 cs place ih =>
    simp only [List.length_cons]
    rcases ih failed with same | inside
    · cases same
      omega
    · omega
  | case6 c cs place _ ih | case9 c cs place _ _ ih | case10 c cs place _ _ _ ih =>
    rcases ih failed with same | inside
    · cases same
    · simp only [List.length_cons]
      omega
  | case4 | case5 | case7 | case11 => cases failed

namespace Lexeme

/-- What a reader may answer about these characters: it takes some of them, or blames one of them, or a numeral. -/
inductive Answers {α : Type} (good : α → Prop) (cs : List Char) : Reading α → Prop
  | ok {a : α} {size : Nat} : good a → 1 ≤ size → size ≤ cs.length → Answers good cs (.ok (a, size))
  | char {distance : Nat} (cause : LexCause) : distance < cs.length → Answers good cs (.error (.char distance cause))
  | numeral (e : Text.NumeralError) : Text.HasBadNumeral cs → Answers good cs (.error (.numeral e))

theorem suffixLength_le (cs : List Char) : suffixLength (readSuffix cs) ≤ cs.length := by
  unfold readSuffix
  split
  · split
    · simp [suffixLength]
    · cases Width.ofSuffix? _ <;> simp [suffixLength]
  · simp [suffixLength]

theorem length_takeName_le (cs : List Char) : (takeName cs).length ≤ cs.length := by
  simpa [takeName] using (List.takeWhile_sublist _).length_le

theorem Answers.map {α β : Type} {good : α → Prop} {good' : β → Prop} {cs : List Char} {reading : Reading α}
    (answers : Answers good cs reading) {f : α × Nat → β × Nat}
    (keep : ∀ a size, good a → good' (f (a, size)).1 ∧ (f (a, size)).2 = size) :
    Answers good' cs (reading.map f) := by
  cases answers with
  | @ok a size isGood positive within =>
    obtain ⟨isGood', same⟩ := keep a size isGood
    exact .ok isGood' (positive.trans_eq same.symm) (same.trans_le within)
  | char cause within => exact .char cause within
  | numeral e bad => exact .numeral e bad

theorem Answers.ite {α : Type} {good : α → Prop} {cs : List Char} {yes no : Reading α} {p : Prop} [Decidable p]
    (ifYes : p → Answers good cs yes) (ifNo : ¬ p → Answers good cs no) :
    Answers good cs (if p then yes else no) := by
  split
  · exact ifYes ‹_›
  · exact ifNo ‹_›

theorem digits_answers (cs digits : List Char) (skipped : Nat) {value : Except Text.NumeralError Nat}
    {reading : Reading Nat} (isReading : reading = if digits.isEmpty then .error (.char 0 .missingDigits)
      else match (cs.drop (skipped + digits.length)).head?.filter isIdentifierChar, value with
        | some c, _ => .error (.char (skipped + digits.length) (.badDigit c))
        | none, .ok n => .ok (n, skipped + digits.length)
        | none, .error e => .error (.numeral e))
    (within : skipped + digits.length ≤ cs.length)
    (numeral : ∀ e, digits ≠ [] → value = .error e → Text.HasBadNumeral cs) :
    reading = .error (.char 0 .missingDigits) ∨ Answers (fun _ => True) cs reading := by
  by_cases empty : digits = []
  · left
    rw [isReading, empty]
    rfl
  · right
    have positive : 1 ≤ digits.length := List.length_pos_of_ne_nil empty
    rw [if_neg (by simpa using empty)] at isReading
    split at isReading
    · rename_i c next
      obtain ⟨first, -⟩ := Option.filter_eq_some_iff.1 next
      have inside : skipped + digits.length < cs.length := by
        by_contra beyond
        rw [List.drop_eq_nil_of_le (Nat.le_of_not_lt beyond)] at first
        cases first
      exact isReading ▸ .char _ inside
    · exact isReading ▸ .ok True.intro (by omega) within
    · exact isReading ▸ .numeral _ (numeral _ empty rfl)

theorem readMagnitude_answers (cs : List Char) :
    readMagnitude cs = .error (.char 0 .missingDigits) ∨ Answers (fun _ => True) cs (readMagnitude cs) := by
  have short (x : Char) (rest : List Char) :
      2 + (rest.takeWhile Text.isHexDigit).length ≤ ('0' :: x :: rest).length := by
    have taken := (List.takeWhile_sublist Text.isHexDigit (l := rest)).length_le
    simp only [List.length_cons]
    omega
  unfold readMagnitude
  split
  · exact digits_answers _ _ 2 rfl (short 'x' _) fun e _ failed => by cases failed
  · exact digits_answers _ _ 2 rfl (short 'X' _) fun e _ failed => by cases failed
  · have decimal := List.takeWhile_sublist Text.isDigit (l := cs)
    refine digits_answers cs _ 0 rfl (by simpa using decimal.length_le) fun e nonempty failed => ?_
    have unread : ∃ e, Text.Numeral.parse .decimal (String.ofList (cs.takeWhile Text.isDigit)) = .error e := by
      cases parsed : Text.Numeral.parse .decimal (String.ofList (cs.takeWhile Text.isDigit)) with
      | error e => exact ⟨e, rfl⟩
      | ok n =>
        rw [parsed] at failed
        cases failed
    obtain ⟨e, unread⟩ := unread
    have front : cs.takeWhile Text.isDigit <+: cs := List.takeWhile_prefix Text.isDigit
    refine (Text.Numeral.hasBadNumeral_of_parse nonempty ?_ unread).mono front.isInfix
    intro c member
    exact List.all_eq_true.1 List.all_takeWhile c member

theorem readNumber_answers {cs : List Char} (nonempty : cs ≠ []) : Answers (fun _ => True) cs (readNumber cs) := by
  have positive : 0 < cs.length := List.length_pos_of_ne_nil nonempty
  unfold readNumber
  split
  rename_i negative body signed
  have length : cs.length = (if negative then 1 else 0) + body.length := by
    split at signed <;> cases signed <;> simp [Nat.add_comm]
  have inside : body <:+: cs := by
    split at signed <;> cases signed
    · exact (List.suffix_cons _ _).isInfix
    · exact List.infix_rfl
  rcases readMagnitude_answers body with missing | answers
  · rw [missing]
    exact .char _ positive
  · generalize readMagnitude body = reading at answers
    cases answers with
    | numeral e bad => exact .numeral e (bad.mono inside)
    | @char distance cause within =>
      cases cause with
      | missingDigits => exact .char _ positive
      | _ => exact .char _ (by omega)
    | @ok magnitude size _ atLeast within =>
      have suffix := suffixLength_le (body.drop size)
      rw [List.length_drop] at suffix
      dsimp only
      generalize (if negative then -(magnitude : Int) else magnitude) = value
      split
      · exact .char _ positive
      · exact .ok True.intro (by omega) (by omega)

theorem readStringTail_answers {cs ds : List Char} {taken : Nat} (positive : 1 ≤ taken)
    (length : taken + cs.length ≤ ds.length) : Answers (fun _ => True) ds (readStringTail cs taken) := by
  fun_induction readStringTail cs taken with
  | case1 rest taken =>
    rw [List.length_cons] at length
    exact .ok True.intro (by omega) (by omega)
  | case2 taken a b rest high low _ _ ih =>
    simp only [List.length_cons] at length
    exact (ih (by omega) (by omega)).map fun _ _ _ => ⟨True.intro, rfl⟩
  | case4 c rest taken _ byte _ ih | case8 c rest taken _ _ _ _ _ byte _ ih =>
    simp only [List.length_cons] at length
    exact (ih (by omega) (by omega)).map fun _ _ _ => ⟨True.intro, rfl⟩
  | case3 | case5 | case6 | case7 | case9 =>
    simp only [List.length_cons] at length
    exact .char _ (by omega)
  | case10 => exact .char _ (by omega)

theorem offset_answers {cs : List Char} (nonempty : cs ≠ []) :
    Answers (fun lexeme => lexeme ≠ .endOfInput) ('*' :: cs) (match readNumber cs with
      | .ok ((value, width), size) => .ok (Lexeme.offset value.toNat width, 1 + size)
      | .error (.char distance cause) => .error (.char (1 + distance) cause)
      | .error (.numeral e) => .error (.numeral e)) := by
  have answers := readNumber_answers nonempty
  generalize readNumber cs = reading at answers
  cases answers with
  | ok _ _ within => exact .ok (by simp) (by omega) (by rw [List.length_cons]; omega)
  | char cause within => exact .char _ (by rw [List.length_cons]; omega)
  | numeral e bad => exact .numeral e (bad.cons '*')

theorem read_answers (c : Char) (cs : List Char) : Answers (· ≠ .endOfInput) (c :: cs) (read c cs) := by
  have single {lexeme : Lexeme} (notEnd : lexeme ≠ .endOfInput) :
      Answers (· ≠ .endOfInput) (c :: cs) (.ok (lexeme, 1)) := .ok notEnd le_rfl (by simp)
  have refused (cause : LexCause) :
      Answers (fun lexeme : Lexeme => lexeme ≠ .endOfInput) (c :: cs) (.error (.char 0 cause)) :=
    .char cause (by simp)
  have taken := length_takeName_le cs
  have tail : Answers (fun _ => True) (c :: cs) (readStringTail cs 1) :=
    readStringTail_answers le_rfl (by simp [Nat.add_comm])
  have number := readNumber_answers (List.cons_ne_nil c cs)
  refine .ite (fun _ => single (by simp)) fun _ =>
    .ite (fun _ => single (by simp)) fun _ =>
    .ite (fun _ => single (by simp)) fun _ =>
    .ite (fun _ => single (by simp)) fun _ =>
    .ite (fun _ => single (by simp)) fun _ =>
    .ite (fun _ => tail.map fun _ _ _ => ⟨by simp, rfl⟩) fun _ =>
    .ite (fun _ => number.map fun _ _ _ => ⟨by simp, rfl⟩) fun _ =>
    .ite (fun _ => .ite (fun _ => ?marked) fun _ => refused _) fun _ =>
    .ite (fun star => ?star) fun _ =>
    .ite (fun start => ?word) fun _ => refused _
  case marked => exact .ok (by split <;> simp) (by omega) (by rw [List.length_cons]; omega)
  case star =>
    obtain rfl := eq_of_beq star
    refine .ite (fun digit => offset_answers ?_) fun _ => .ite (fun _ => ?_) fun _ => refused _
    · rintro rfl
      cases digit
    · have suffix := suffixLength_le (cs.drop (takeName cs).length)
      rw [List.length_drop] at suffix
      exact .ok (by simp) (by omega) (by rw [List.length_cons]; omega)
  case word =>
    have nonempty : 1 ≤ (takeName (c :: cs)).length := by
      rw [takeName, List.takeWhile_cons_of_pos (isIdentifierChar_of_start start)]
      simp
    exact .ok (by split <;> simp) nonempty (length_takeName_le (c :: cs))

end Lexeme

def Span.Within (lo hi : Nat) (span : Span) : Prop :=
  lo ≤ span.start ∧ span.start ≤ span.stop ∧ span.stop ≤ hi

namespace Token

def Between (lo hi : Nat) : List Token → Prop
  | [] => lo ≤ hi
  | t :: ts => lo ≤ t.span.start ∧ t.span.start ≤ t.span.stop ∧ Between t.span.stop hi ts

/-- The tokens end with the end of the text, which stands nowhere else. -/
inductive Closed : List Token → Prop
  | last {t : Token} : t.lexeme = .endOfInput → Closed [t]
  | cons {t : Token} {ts : List Token} : t.lexeme ≠ .endOfInput → Closed ts → Closed (t :: ts)

theorem Between.le {lo hi : Nat} {ts : List Token} (between : Between lo hi ts) : lo ≤ hi := by
  induction ts generalizing lo with
  | nil => exact between
  | cons t ts ih =>
    obtain ⟨start, stop, rest⟩ := between
    exact (start.trans stop).trans (ih rest)

theorem Between.of_le {lo lo' hi : Nat} {ts : List Token} (between : Between lo hi ts) (lower : lo' ≤ lo) :
    Between lo' hi ts := by
  cases ts with
  | nil => exact lower.trans between
  | cons t ts => exact ⟨lower.trans between.1, between.2⟩

theorem between_append {lo hi : Nat} {ts us : List Token} :
    Between lo hi (ts ++ us) ↔ ∃ mid, Between lo mid ts ∧ Between mid hi us := by
  induction ts generalizing lo with
  | nil =>
    refine ⟨fun rest => ⟨lo, le_refl lo, rest⟩, ?_⟩
    rintro ⟨mid, below, rest⟩
    exact rest.of_le below
  | cons t ts ih =>
    simp only [List.cons_append, Between, ih]
    tauto

theorem Between.right {lo hi : Nat} {ts us : List Token} (between : Between lo hi (ts ++ us)) : Between lo hi us := by
  obtain ⟨mid, first, rest⟩ := between_append.1 between
  exact rest.of_le first.le

theorem Between.tail {lo hi : Nat} {t : Token} {ts : List Token} (between : Between lo hi (t :: ts)) :
    Between lo hi ts := by
  rw [← List.singleton_append] at between
  exact between.right

theorem Between.left {lo hi : Nat} {ts us : List Token} (between : Between lo hi (ts ++ us)) : Between lo hi ts := by
  induction ts generalizing lo with
  | nil => exact between.le
  | cons t ts ih => exact ⟨between.1, between.2.1, ih between.2.2⟩

def extent : List Token → Span
  | [] => ⟨0, 0⟩
  | [t] => t.span
  | t :: ts => ⟨t.span.start, (extent ts).stop⟩

theorem extent_cons {t : Token} {ts : List Token} (more : ts ≠ []) :
    extent (t :: ts) = ⟨t.span.start, (extent ts).stop⟩ := by
  cases ts with
  | nil => exact absurd rfl more
  | cons u us => rfl

theorem extent_append {ts us : List Token} (first : ts ≠ []) (last : us ≠ []) :
    extent (ts ++ us) = ⟨(extent ts).start, (extent us).stop⟩ := by
  induction ts with
  | nil => exact absurd rfl first
  | cons t ts ih =>
    rw [List.cons_append, extent_cons (List.append_ne_nil_of_right_ne_nil ts last)]
    by_cases single : ts = []
    · subst single
      rfl
    · rw [ih single, extent_cons single]

theorem start_extent_append {ts : List Token} (first : ts ≠ []) (us : List Token) :
    (extent (ts ++ us)).start = (extent ts).start := by
  by_cases none : us = []
  · rw [none, List.append_nil]
  · rw [extent_append first none]

theorem stop_extent_append (ts : List Token) {us : List Token} (last : us ≠ []) :
    (extent (ts ++ us)).stop = (extent us).stop := by
  by_cases none : ts = []
  · rw [none, List.nil_append]
  · rw [extent_append none last]

theorem Between.extent {lo hi : Nat} {ts : List Token} (between : Between lo hi ts) (nonempty : ts ≠ []) :
    (extent ts).Within lo hi := by
  induction ts generalizing lo with
  | nil => exact absurd rfl nonempty
  | cons t ts ih =>
    obtain ⟨start, stop, rest⟩ := between
    by_cases single : ts = []
    · subst single
      exact ⟨start, stop, rest⟩
    · have later := ih rest single
      rw [extent_cons single]
      exact ⟨start, (stop.trans later.1).trans later.2.1, later.2.2⟩

theorem join_extent {lo hi : Nat} {first between last : List Token}
    (ordered : Between lo hi (first ++ (between ++ last))) (isFirst : first ≠ []) (isLast : last ≠ []) :
    (extent first).join (extent last) = extent (first ++ (between ++ last)) := by
  obtain ⟨mid, before, after⟩ := between_append.1 ordered
  have start := before.extent isFirst
  have stop := after.right.extent isLast
  rw [extent_append isFirst (List.append_ne_nil_of_right_ne_nil between isLast), stop_extent_append between isLast,
    Span.join]
  simp only [Span.Within] at start stop
  congr 1 <;> omega

theorem Closed.tail {t : Token} {ts : List Token} (closed : Closed (t :: ts)) (notEnd : t.lexeme ≠ .endOfInput) :
    Closed ts := by
  cases closed with
  | last atEnd => exact absurd atEnd notEnd
  | cons _ closed => exact closed

theorem Closed.of_append {used rest : List Token} (closed : Closed (used ++ rest))
    (notEnd : ∀ t ∈ used, t.lexeme ≠ .endOfInput) : Closed rest := by
  induction used with
  | nil => exact closed
  | cons t used ih =>
    rw [List.forall_mem_cons] at notEnd
    exact ih (closed.tail notEnd.1) notEnd.2

theorem Closed.after_eq_nil {before after : List Token} {t : Token} (closed : Closed (before ++ t :: after))
    (atEnd : t.lexeme = .endOfInput) : after = [] := by
  induction before with
  | nil =>
    cases closed with
    | last => rfl
    | cons notEnd => exact absurd atEnd notEnd
  | cons b before ih =>
    obtain ⟨ts, split⟩ : ∃ ts, before ++ t :: after = ts := ⟨_, rfl⟩
    rw [List.cons_append, split] at closed
    cases closed with
    | last => simp at split
    | cons _ closed => exact ih (split ▸ closed)

end Token

namespace TokenStream

/-- The stream is one of these characters, the first of which stands at `place`. -/
structure Covers (cs : List Char) (place : Nat) (s : TokenStream) : Prop where
  ordered : Token.Between place (place + cs.length) s.tokens
  closed : s.fault = none → Token.Closed s.tokens
  cut : s.fault ≠ none → ∀ t ∈ s.tokens, t.lexeme ≠ .endOfInput
  blamed : ∀ e, s.fault = some (.lex e) → place ≤ e.place ∧ e.place < place + cs.length
  numeral : ∀ e, s.fault = some (.numeral e) → Text.HasBadNumeral cs

theorem Covers.of_suffix {before cs : List Char} {place : Nat} {s : TokenStream}
    (covers : Covers cs (place + before.length) s) : Covers (before ++ cs) place s where
  ordered := by
    rw [List.length_append, ← Nat.add_assoc]
    exact covers.ordered.of_le (Nat.le_add_right place _)
  closed := covers.closed
  cut := covers.cut
  blamed e fault := by
    have blamed := covers.blamed e fault
    rw [List.length_append]
    omega
  numeral e fault := (covers.numeral e fault).mono (List.suffix_append before cs).isInfix

theorem Covers.cons {cs : List Char} {place size : Nat} {lexeme : Lexeme} {s : TokenStream}
    (covers : Covers (cs.drop size) (place + size) s) (notEnd : lexeme ≠ .endOfInput) (within : size ≤ cs.length) :
    Covers cs place (s.cons ⟨lexeme, ⟨place, place + size⟩⟩) := by
  have length : (cs.take size).length = size := by simpa using within
  have whole : Covers cs place s := by
    rw [← List.take_append_drop size cs]
    exact .of_suffix (by rwa [length])
  have hi : place + size + (cs.drop size).length = place + cs.length := by
    rw [List.length_drop]
    omega
  exact { ordered := ⟨le_rfl, Nat.le_add_right place size, hi ▸ covers.ordered⟩
          closed := fun noFault => .cons notEnd (covers.closed noFault)
          cut := fun fault => List.forall_mem_cons.2 ⟨notEnd, covers.cut fault⟩
          blamed := whole.blamed
          numeral := whole.numeral }

theorem covers_blame {cs : List Char} {place : Nat} {e : LexError}
    (inside : place ≤ e.place ∧ e.place < place + cs.length) : Covers cs place ⟨[], some (.lex e)⟩ where
  ordered := Nat.le_add_right place _
  closed := nofun
  cut := nofun
  blamed e' same := by
    cases same
    exact inside
  numeral := nofun

theorem covers_numeral {cs : List Char} {place : Nat} {e : Text.NumeralError} (bad : Text.HasBadNumeral cs) :
    Covers cs place ⟨[], some (.numeral e)⟩ where
  ordered := Nat.le_add_right place _
  closed := nofun
  cut := nofun
  blamed := nofun
  numeral _ _ := bad

theorem covers_nil (place : Nat) : Covers [] place ⟨[⟨.endOfInput, ⟨place, place⟩⟩], none⟩ where
  ordered := ⟨le_rfl, le_rfl, le_rfl⟩
  closed _ := .last rfl
  cut fault := absurd rfl fault
  blamed := nofun
  numeral := nofun

theorem covers_scanFrom {fuel : Nat} {cs : List Char} {place : Nat} (enough : cs.length < fuel) :
    Covers cs place (scanFrom fuel cs place) := by
  induction fuel generalizing cs place with
  | zero => cases enough
  | succ fuel ih =>
    unfold scanFrom
    split
    · rename_i opened failed
      have inside : place ≤ opened ∧ opened < place + cs.length := by
        rcases skipGap_eq_error failed with same | inside
        · cases same
        · exact inside
      exact covers_blame inside
    · rename_i start skipped
      obtain ⟨before, rfl, rfl⟩ := skipGap_eq_ok skipped
      exact (covers_nil _).of_suffix
    · rename_i c rest start skipped
      obtain ⟨before, rfl, rfl⟩ := skipGap_eq_ok skipped
      refine .of_suffix ?_
      have answers := Lexeme.read_answers c rest
      generalize Lexeme.read c rest = reading at answers
      cases answers with
      | char cause within => exact covers_blame ⟨Nat.le_add_right _ _, Nat.add_lt_add_left within _⟩
      | numeral e bad => exact covers_numeral bad
      | @ok lexeme size notEnd positive within =>
        -- A token takes a character at least, so that the fuel lasts.
        have shorter : ((c :: rest).drop size).length < fuel := by
          rw [List.length_append] at enough
          rw [List.length_drop]
          omega
        exact (ih shorter).cons notEnd within

/-- Scanning covers the whole text. -/
theorem covers_scan (text : String) : Covers text.toList 0 (scan text) :=
  covers_scanFrom (Nat.lt_succ_of_le (String.length_toList).le)

end TokenStream

end EventScript
