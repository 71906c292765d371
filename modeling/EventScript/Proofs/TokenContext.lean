import EventScript.Proofs.TokenPlaces

namespace EventScript

namespace Lexeme

def SameHead (rest after : List Char) : Prop := ∀ c ∈ after.head?, c ∈ rest.head?

/-- `after` goes on no further than `rest`: it is empty or starts like it, and no width follows there only. -/
structure Agrees (rest after : List Char) : Prop where
  head : SameHead rest after
  suffix : readSuffix rest = none → readSuffix after = none

theorem agrees_nil (rest : List Char) : Agrees rest [] where
  head := nofun
  suffix _ := rfl

def Local {α : Type} (agrees : List Char → List Char → Prop) (reader : List Char → Reading α) : Prop :=
  ∀ cs a size, reader cs = .ok (a, size) → ∃ text rest, cs = text ++ rest ∧ text.length = size ∧
    ∀ after, agrees rest after → reader (text ++ after) = .ok (a, size)

theorem SameHead.append (text : List Char) {rest after : List Char} (same : SameHead rest after) :
    SameHead (text ++ rest) (text ++ after) := by
  cases text with
  | nil => exact same
  | cons c text => exact fun _ first => first

theorem SameHead.filter {rest after : List Char} (same : SameHead rest after) {p : Char → Bool}
    (none : rest.head?.filter p = none) : after.head?.filter p = .none := by
  rw [Option.filter_eq_none_iff] at none ⊢
  exact fun c first => none c (same c first)

theorem SameHead.any {rest after : List Char} (same : SameHead rest after) {p : Char → Bool}
    (notAny : rest.head?.any p = false) : after.head?.any p = false := by
  rw [Option.any_eq_false] at notAny ⊢
  exact fun c first => notAny c (same c first)

theorem takeWhile_of_sameHead {p : Char → Bool} {cs after : List Char} (same : SameHead (cs.dropWhile p) after) :
    (cs.takeWhile p ++ after).takeWhile p = cs.takeWhile p := by
  refine takeWhile_append_of_stop (fun c member => List.all_eq_true.1 List.all_takeWhile c member) fun c first => ?_
  have stop := List.head?_dropWhile_not p cs
  rw [same c first] at stop
  simpa using stop

theorem drop_takeWhile (p : Char → Bool) (cs : List Char) : cs.drop (cs.takeWhile p).length = cs.dropWhile p := by
  have split : cs.takeWhile p ++ cs.dropWhile p = cs := List.takeWhile_append_dropWhile
  calc cs.drop (cs.takeWhile p).length
      = (cs.takeWhile p ++ cs.dropWhile p).drop (cs.takeWhile p).length := by rw [split]
    _ = cs.dropWhile p := List.drop_left

theorem takeName_of_sameHead {cs after : List Char} (same : SameHead (cs.dropWhile isIdentifierChar) after) :
    takeName (cs.takeWhile isIdentifierChar ++ after) = takeName cs := by
  rw [takeName, takeWhile_of_sameHead same, takeName]

theorem length_takeName (cs : List Char) : (takeName cs).length = (cs.takeWhile isIdentifierChar).length := by
  simp [takeName]

theorem drop_takeName (cs : List Char) : cs.drop (takeName cs).length = cs.dropWhile isIdentifierChar := by
  rw [length_takeName, drop_takeWhile]

theorem readSuffix_local (cs : List Char) : ∃ text rest, cs = text ++ rest ∧
    text.length = suffixLength (readSuffix cs) ∧
      ∀ after, Agrees rest after → readSuffix (text ++ after) = readSuffix cs := by
  cases found : readSuffix cs with
  | none => exact ⟨[], cs, rfl, rfl, fun after agrees => agrees.suffix found⟩
  | some width =>
    unfold readSuffix at found
    split at found
    · rename_i c rest
      split at found
      · cases found
      · rename_i ends
        refine ⟨['.', c], rest, rfl, rfl, fun after agrees => ?_⟩
        have ends : after.head?.any isIdentifierChar = false :=
          agrees.head.any (Bool.eq_false_iff.2 ends)
        simp [readSuffix, ends, found]
    · cases found

def finishDigits (cs : List Char) (skipped : Nat) (digits : List Char) (value : Except Text.NumeralError Nat) :
    Reading Nat :=
  if digits.isEmpty then .error (.char 0 .missingDigits)
  else match (cs.drop (skipped + digits.length)).head?.filter isIdentifierChar, value with
    | some c, _ => .error (.char (skipped + digits.length) (.badDigit c))
    | none, .ok n => .ok (n, skipped + digits.length)
    | none, .error e => .error (.numeral e)

theorem finishDigits_eq_ok {cs digits : List Char} {skipped n size : Nat} {value : Except Text.NumeralError Nat} :
    finishDigits cs skipped digits value = .ok (n, size) ↔ digits ≠ [] ∧ value = .ok n ∧
      size = skipped + digits.length ∧ (cs.drop (skipped + digits.length)).head?.filter isIdentifierChar = none := by
  unfold finishDigits
  by_cases empty : digits = []
  · simp [empty]
  · rw [if_neg (by simpa using empty)]
    cases (cs.drop (skipped + digits.length)).head?.filter isIdentifierChar with
    | some c => simp
    | none =>
      cases value with
      | error e => simp
      | ok m => simp [empty, eq_comm]

def IsHexMark (x : Char) : Prop := x = 'x' ∨ x = 'X'

theorem readMagnitude_marked {x : Char} (mark : IsHexMark x) (rest : List Char) :
    readMagnitude ('0' :: x :: rest) = finishDigits ('0' :: x :: rest) 2 (rest.takeWhile Text.isHexDigit)
      (.ok (Text.Numeral.value 16 (rest.takeWhile Text.isHexDigit))) := by
  rcases mark with rfl | rfl <;> rfl

theorem readMagnitude_plain {cs : List Char} (plain : ∀ x rest, cs = '0' :: x :: rest → ¬ IsHexMark x) :
    readMagnitude cs = finishDigits cs 0 (cs.takeWhile Text.isDigit)
      ((Text.Numeral.parse .decimal (String.ofList (cs.takeWhile Text.isDigit))).map Int.toNat) := by
  unfold readMagnitude
  split
  · exact absurd (.inl rfl) (plain _ _ rfl)
  · exact absurd (.inr rfl) (plain _ _ rfl)
  · rfl

/-- A run of digits does not become hexadecimal where it is cut off: a mark after its first digit would be one of its
digits, or would follow it in the text too. -/
theorem plain_takeWhile {cs after : List Char} (plain : ∀ x rest, cs = '0' :: x :: rest → ¬ IsHexMark x)
    (nonempty : cs.takeWhile Text.isDigit ≠ []) (same : SameHead (cs.dropWhile Text.isDigit) after) (x : Char)
    (rest : List Char) (split : cs.takeWhile Text.isDigit ++ after = '0' :: x :: rest) : ¬ IsHexMark x := by
  intro mark
  have notDigit : Text.isDigit x = false := by
    rcases mark with rfl | rfl <;> exact Text.isDigit_ascii (by decide)
  cases digits : cs.takeWhile Text.isDigit with
  | nil => exact nonempty digits
  | cons d ds =>
    rw [digits, List.cons_append, List.cons.injEq] at split
    obtain ⟨rfl, split⟩ := split
    cases ds with
    | nil =>
      have first : x ∈ (cs.dropWhile Text.isDigit).head? := same x (by rw [← List.nil_append after, split]; rfl)
      obtain ⟨others, tail⟩ := List.head?_eq_some_iff.1 first
      refine plain x others ?_ mark
      rw [← List.takeWhile_append_dropWhile (p := Text.isDigit) (l := cs), digits, tail]
      rfl
    | cons e es =>
      cases split
      have digit := List.all_eq_true.1 (List.all_takeWhile (p := Text.isDigit) (l := cs)) x (by simp [digits])
      rw [notDigit] at digit
      cases digit

theorem readMagnitude_local : Local SameHead readMagnitude := by
  intro cs n size read
  by_cases marked : ∃ x rest, cs = '0' :: x :: rest ∧ IsHexMark x
  · obtain ⟨x, rest, rfl, mark⟩ := marked
    rw [readMagnitude_marked mark, finishDigits_eq_ok] at read
    obtain ⟨nonempty, value, rfl, ends⟩ := read
    have dropped : ('0' :: x :: rest).drop (2 + (rest.takeWhile Text.isHexDigit).length) =
        rest.dropWhile Text.isHexDigit := by
      rw [Nat.add_comm, List.drop_succ_cons, List.drop_succ_cons, drop_takeWhile]
    rw [dropped] at ends
    refine ⟨'0' :: x :: rest.takeWhile Text.isHexDigit, rest.dropWhile Text.isHexDigit, by simp,
      by rw [List.length_cons, List.length_cons]; omega, fun after same => ?_⟩
    rw [List.cons_append, List.cons_append, readMagnitude_marked mark, takeWhile_of_sameHead same, finishDigits_eq_ok]
    refine ⟨nonempty, value, rfl, ?_⟩
    rw [Nat.add_comm, List.drop_succ_cons, List.drop_succ_cons, List.drop_left]
    exact same.filter ends
  · have plain : ∀ x rest, cs = '0' :: x :: rest → ¬ IsHexMark x := fun x rest split mark =>
      marked ⟨x, rest, split, mark⟩
    rw [readMagnitude_plain plain, finishDigits_eq_ok, Nat.zero_add] at read
    obtain ⟨nonempty, value, rfl, ends⟩ := read
    rw [drop_takeWhile] at ends
    refine ⟨cs.takeWhile Text.isDigit, cs.dropWhile Text.isDigit, by simp, rfl, fun after same => ?_⟩
    rw [readMagnitude_plain (plain_takeWhile plain nonempty same), takeWhile_of_sameHead same, finishDigits_eq_ok,
      Nat.zero_add, List.drop_left]
    exact ⟨nonempty, value, rfl, same.filter ends⟩

def signChars (negative : Bool) : List Char := if negative then ['-'] else []

def finishNumber (negative : Bool) (body : List Char) : Reading (Int × Option Width) :=
  match readMagnitude body with
  | .error (.char _ .missingDigits) => .error (.char 0 .missingDigits)
  | .error (.char distance cause) => .error (.char ((if negative then 1 else 0) + distance) cause)
  | .error (.numeral e) => .error (.numeral e)
  | .ok (magnitude, size) =>
    let value : Int := if negative then -magnitude else magnitude
    if value < leastLiteral ∨ greatestLiteral < value then .error (.char 0 .outOfRange)
    else
      let width := readSuffix (body.drop size)
      .ok ((value, width), (if negative then 1 else 0) + size + suffixLength width)

theorem finishNumber_eq_ok {negative : Bool} {body : List Char} {value : Int} {width : Option Width} {size : Nat} :
    finishNumber negative body = .ok ((value, width), size) ↔ ∃ magnitude length,
      readMagnitude body = .ok (magnitude, length) ∧ value = (if negative then -(magnitude : Int) else magnitude) ∧
      ¬ (value < leastLiteral ∨ greatestLiteral < value) ∧ width = readSuffix (body.drop length) ∧
      size = (signChars negative).length + length + suffixLength width := by
  have sign : (signChars negative).length = if negative then 1 else 0 := by cases negative <;> rfl
  rw [sign, finishNumber]
  constructor
  · intro read
    cases found : readMagnitude body with
    | error fault =>
      rw [found] at read
      cases fault with
      | numeral e => cases read
      | char distance cause => cases cause <;> cases read
    | ok taken =>
      obtain ⟨magnitude, length⟩ := taken
      rw [found] at read
      rcases ite_eq_ok.1 read with ⟨-, read⟩ | ⟨inside, read⟩
      · cases read
      · cases read
        exact ⟨magnitude, length, rfl, rfl, inside, rfl, rfl⟩
  · rintro ⟨magnitude, length, found, rfl, inside, rfl, rfl⟩
    rw [found]
    dsimp only
    rw [if_neg inside]

theorem readNumber_signed (body : List Char) : readNumber ('-' :: body) = finishNumber true body := rfl

theorem readNumber_unsigned {cs : List Char} (unsigned : cs.head? ≠ some '-') :
    readNumber cs = finishNumber false cs := by
  unfold readNumber
  split
  rename_i negative body signed
  split at signed
  · exact absurd rfl unsigned
  · cases signed
    rfl

theorem readNumber_eq_ok {cs : List Char} {value : Int} {width : Option Width} {size : Nat} :
    readNumber cs = .ok ((value, width), size) ↔ ∃ negative body magnitude length,
      cs = signChars negative ++ body ∧ (negative = false → body.head? ≠ some '-') ∧
      readMagnitude body = .ok (magnitude, length) ∧ value = (if negative then -(magnitude : Int) else magnitude) ∧
      ¬ (value < leastLiteral ∨ greatestLiteral < value) ∧ width = readSuffix (body.drop length) ∧
      size = (signChars negative).length + length + suffixLength width := by
  constructor
  · intro read
    by_cases signed : cs.head? = some '-'
    · obtain ⟨body, rfl⟩ := List.head?_eq_some_iff.1 signed
      rw [readNumber_signed] at read
      obtain ⟨magnitude, length, found⟩ := finishNumber_eq_ok.1 read
      exact ⟨true, body, magnitude, length, rfl, by simp, found⟩
    · rw [readNumber_unsigned signed] at read
      obtain ⟨magnitude, length, found⟩ := finishNumber_eq_ok.1 read
      exact ⟨false, cs, magnitude, length, rfl, fun _ => signed, found⟩
  · rintro ⟨negative, body, magnitude, length, rfl, unsigned, found⟩
    have read := finishNumber_eq_ok.2 ⟨magnitude, length, found⟩
    cases negative with
    | true => exact read
    | false => exact (readNumber_unsigned (unsigned rfl)).trans read

theorem readNumber_local : Local Agrees readNumber := by
  intro cs number size read
  obtain ⟨value, width⟩ := number
  obtain ⟨negative, body, magnitude, length, rfl, unsigned, found, isValue, inside, isWidth, rfl⟩ :=
    readNumber_eq_ok.1 read
  obtain ⟨digits, tail, rfl, rfl, magnitudeLocal⟩ := readMagnitude_local body magnitude length found
  rw [List.drop_left] at isWidth
  obtain ⟨suffix, rest, rfl, suffixLength, suffixLocal⟩ := readSuffix_local tail
  rw [← isWidth] at suffixLength suffixLocal
  refine ⟨signChars negative ++ (digits ++ suffix), rest, by simp, by simp [suffixLength, Nat.add_assoc],
    fun after agrees => ?_⟩
  have read := magnitudeLocal (suffix ++ after) (agrees.head.append suffix)
  refine readNumber_eq_ok.2 ⟨negative, digits ++ (suffix ++ after), magnitude, digits.length, by simp, ?_, read,
    isValue, inside, ?_, rfl⟩
  · intro positive minus
    -- A magnitude has a digit, so that the first character is one of the number's own.
    cases digits with
    | nil =>
      rcases readMagnitude_answers ([] ++ (suffix ++ rest)) with missing | answers
      · rw [missing] at found
        cases found
      · rw [found] at answers
        cases answers with
        | ok _ atLeast _ => cases atLeast
    | cons d ds => exact unsigned positive minus
  · rw [List.drop_left, suffixLocal after agrees]

theorem readStringTail_local {cs : List Char} {taken : Nat} {bytes : Bytes} {size : Nat}
    (read : readStringTail cs taken = .ok (bytes, size)) : ∃ text rest, cs = text ++ rest ∧
      size = taken + text.length ∧ ∀ after, readStringTail (text ++ after) taken = .ok (bytes, size) := by
  fun_induction readStringTail cs taken generalizing bytes with
  | case1 rest taken =>
    cases read
    exact ⟨['"'], rest, rfl, rfl, fun after => rfl⟩
  | case2 a b rest taken low high isHigh isLow ih =>
    obtain ⟨⟨tail, _⟩, inner, same⟩ := map_eq_ok.1 read
    cases same
    obtain ⟨text, rest, rfl, rfl, stays⟩ := ih inner
    refine ⟨'\\' :: 'x' :: a :: b :: text, rest, rfl, by simp only [List.length_cons]; omega, fun after => ?_⟩
    simp only [List.cons_append, readStringTail, isHigh, isLow, stays after]
    rfl
  | case4 c rest taken notHex byte escaped ih =>
    obtain ⟨⟨tail, _⟩, inner, same⟩ := map_eq_ok.1 read
    cases same
    obtain ⟨text, rest, rfl, rfl, stays⟩ := ih inner
    refine ⟨'\\' :: c :: text, rest, rfl, by simp only [List.length_cons]; omega, fun after => ?_⟩
    have letter : c ≠ 'x' := by
      rintro rfl
      cases escaped
    rw [List.cons_append, List.cons_append, readStringTail.eq_3 _ _ _ (by simp [letter]), escaped]
    simp only [stays after]
    rfl
  | case8 c rest taken notQuote notHex notEscape notLast notNewline byte encoded ih =>
    obtain ⟨⟨tail, _⟩, inner, same⟩ := map_eq_ok.1 read
    cases same
    obtain ⟨text, rest, rfl, rfl, stays⟩ := ih inner
    refine ⟨c :: text, rest, rfl, by simp only [List.length_cons]; omega, fun after => ?_⟩
    have notSlash : c ≠ '\\' := by
      rintro rfl
      cases later : text ++ rest with
      | nil => exact notLast rfl later
      | cons d ds => exact notEscape d ds rfl later
    rw [List.cons_append, readStringTail.eq_5 _ _ _ notQuote (by simp [notSlash]) (by simp [notSlash])
      (by simp [notSlash]), if_neg notNewline, encoded]
    simp only [stays after]
    rfl
  | case3 | case5 | case6 | case7 | case9 | case10 => cases read

theorem startsIdentifier_takeWhile {cs : List Char} (starts : startsIdentifier cs = true) (after : List Char) :
    startsIdentifier (cs.takeWhile isIdentifierChar ++ after) = true := by
  cases cs with
  | nil => cases starts
  | cons c cs =>
    rw [List.takeWhile_cons_of_pos (isIdentifierChar_of_start starts)]
    exact starts

theorem startsGap_of_read {c : Char} {cs : List Char} {lexeme : Lexeme} {size : Nat}
    (taken : read c cs = .ok (lexeme, size)) : startsGap c = false := by
  have refuses : [' ', '\t', '\r', '\x0c', ';', '/'].all (fun c => decide ((c.toNat < 128 ∧ c.isDigit = false) ∧
      isIdentifierStart c = false ∧ c ∉ ['\n', ',', '(', ')', ':', '"', '-', '.', '@', '*'])) = true := by decide
  by_contra starts
  have member : c ∈ [' ', '\t', '\r', '\x0c', ';', '/'] := by
    simp only [startsGap, isBlank, Bool.not_eq_false, Bool.or_eq_true, beq_iff_eq] at starts
    simpa [or_assoc] using starts
  obtain ⟨⟨ascii, noDigit⟩, noName, others⟩ := of_decide_eq_true (List.all_eq_true.1 refuses c member)
  rw [← Text.isDigit_ascii ascii] at noDigit
  simp only [List.mem_cons, List.not_mem_nil, or_false, not_or] at others
  simp [read, others, noDigit, noName] at taken

theorem readNumber_cons_local {c : Char} {cs : List Char} {number : Int × Option Width} {size : Nat}
    (read : readNumber (c :: cs) = .ok (number, size)) : ∃ text rest, cs = text ++ rest ∧ text.length + 1 = size ∧
      ∀ after, Agrees rest after → readNumber (c :: (text ++ after)) = .ok (number, size) := by
  obtain ⟨text, rest, split, rfl, stays⟩ := readNumber_local (c :: cs) number size read
  cases text with
  | nil =>
    have answers := readNumber_answers (List.cons_ne_nil c cs)
    rw [read] at answers
    cases answers with
    | ok _ atLeast _ => cases atLeast
  | cons d text =>
    cases split
    exact ⟨text, rest, rfl, rfl, stays⟩

def LocalFrom (c : Char) : Prop :=
  ∀ cs lexeme size, read c cs = .ok (lexeme, size) → ∃ text rest, cs = text ++ rest ∧ text.length + 1 = size ∧
    ∀ after, Agrees rest after → read c (text ++ after) = .ok (lexeme, size)

theorem localFrom_single {c : Char} {lexeme : Lexeme} (single : ∀ cs, read c cs = .ok (lexeme, 1)) : LocalFrom c := by
  intro cs lexeme' size taken
  rw [single] at taken
  cases taken
  exact ⟨[], cs, rfl, rfl, fun after _ => single after⟩

theorem read_quote (cs : List Char) :
    read '"' cs = (readStringTail cs 1).map fun (bytes, size) => (.string bytes, size) := rfl

theorem localFrom_quote : LocalFrom '"' := by
  intro cs lexeme size taken
  rw [read_quote] at taken
  obtain ⟨⟨bytes, length⟩, inner, same⟩ := map_eq_ok.1 taken
  cases same
  obtain ⟨text, rest, rfl, rfl, stays⟩ := readStringTail_local inner
  refine ⟨text, rest, rfl, Nat.add_comm _ _, fun after _ => ?_⟩
  rw [read_quote, stays after]
  rfl

theorem localFrom_number {c : Char} (number : ∀ cs, read c cs =
    (readNumber (c :: cs)).map fun ((value, width), size) => (.integer value width, size)) : LocalFrom c := by
  intro cs lexeme size taken
  rw [number] at taken
  obtain ⟨⟨⟨value, width⟩, length⟩, inner, same⟩ := map_eq_ok.1 taken
  cases same
  obtain ⟨text, rest, rfl, rfl, stays⟩ := readNumber_cons_local inner
  refine ⟨text, rest, rfl, rfl, fun after agrees => ?_⟩
  rw [number, stays after agrees]
  rfl

theorem localFrom_mark {c : Char} {lexeme : String → Lexeme} {cause : LexCause} (mark : ∀ cs, read c cs =
    if startsIdentifier cs then .ok (lexeme (takeName cs), 1 + (takeName cs).length) else .error (.char 0 cause)) :
    LocalFrom c := by
  intro cs lexeme' size taken
  rw [mark] at taken
  rcases ite_eq_ok.1 taken with ⟨starts, taken⟩ | ⟨-, taken⟩
  · cases taken
    refine ⟨cs.takeWhile isIdentifierChar, cs.dropWhile isIdentifierChar, by simp, ?_, fun after agrees => ?_⟩
    · rw [length_takeName, Nat.add_comm]
    · rw [mark, if_pos (startsIdentifier_takeWhile starts after), takeName_of_sameHead agrees.head]
  · cases taken

theorem localFrom_word {c : Char} {lexeme : String → Lexeme} (start : isIdentifierStart c = true)
    (word : ∀ cs, read c cs = .ok (lexeme (takeName (c :: cs)), (takeName (c :: cs)).length)) : LocalFrom c := by
  intro cs lexeme' size taken
  rw [word] at taken
  cases taken
  have named := isIdentifierChar_of_start start
  refine ⟨cs.takeWhile isIdentifierChar, cs.dropWhile isIdentifierChar, by simp, ?_, fun after agrees => ?_⟩
  · rw [length_takeName, List.takeWhile_cons_of_pos named, List.length_cons]
  · have same : takeName (c :: (cs.takeWhile isIdentifierChar ++ after)) = takeName (c :: cs) := by
      rw [takeName, takeName, List.takeWhile_cons_of_pos named, List.takeWhile_cons_of_pos named,
        takeWhile_of_sameHead agrees.head]
    rw [word, same]

def readOffset (cs : List Char) : Reading Lexeme :=
  match readNumber cs with
  | .ok ((value, width), size) => .ok (.offset value.toNat width, 1 + size)
  | .error (.char distance cause) => .error (.char (1 + distance) cause)
  | .error (.numeral e) => .error (.numeral e)

theorem readOffset_eq_ok {cs : List Char} {lexeme : Lexeme} {size : Nat} : readOffset cs = .ok (lexeme, size) ↔
    ∃ value width length, readNumber cs = .ok ((value, width), length) ∧ lexeme = .offset value.toNat width ∧
      size = 1 + length := by
  unfold readOffset
  cases readNumber cs with
  | error fault => cases fault <;> simp
  | ok taken =>
    obtain ⟨⟨value, width⟩, length⟩ := taken
    constructor
    · rintro ⟨⟩
      exact ⟨value, width, length, rfl, rfl, rfl⟩
    · rintro ⟨_, _, _, ⟨⟩, rfl, rfl⟩
      rfl

theorem read_star (cs : List Char) : read '*' cs =
    if cs.head?.any Text.isDigit then readOffset cs
    else if startsIdentifier cs then
      .ok (.label (takeName cs) (readSuffix (cs.drop (takeName cs).length)),
        1 + (takeName cs).length + suffixLength (readSuffix (cs.drop (takeName cs).length)))
    else .error (.char 0 (.invalidToken '*')) := by
  have noDigit : Text.isDigit '*' = false := Text.isDigit_ascii (by decide)
  simp only [read, noDigit]
  rfl

theorem read_star_digit {c : Char} (digit : Text.isDigit c = true) (cs : List Char) :
    read '*' (c :: cs) = readOffset (c :: cs) := by
  rw [read_star, if_pos (by simpa using digit)]

theorem read_star_name {cs : List Char} (starts : startsIdentifier cs = true) : read '*' cs =
    .ok (.label (takeName cs) (readSuffix (cs.dropWhile isIdentifierChar)),
      1 + (takeName cs).length + suffixLength (readSuffix (cs.dropWhile isIdentifierChar))) := by
  have noDigit : cs.head?.any Text.isDigit = false := by
    cases cs with
    | nil => rfl
    | cons c cs => exact (isIdentifierStart_spec starts).1
  rw [read_star, noDigit, if_neg Bool.false_ne_true, if_pos starts, drop_takeName]

theorem localFrom_star : LocalFrom '*' := by
  intro cs lexeme size taken
  by_cases digit : cs.head?.any Text.isDigit = true
  · obtain ⟨c, first, digit⟩ := (Option.any_eq_true _ _).1 digit
    obtain ⟨cs, rfl⟩ := List.head?_eq_some_iff.1 first
    rw [read_star_digit digit] at taken
    obtain ⟨value, width, length, number, rfl, rfl⟩ := readOffset_eq_ok.1 taken
    obtain ⟨text, rest, rfl, rfl, stays⟩ := readNumber_cons_local number
    refine ⟨c :: text, rest, rfl, by simp only [List.length_cons]; omega, fun after agrees => ?_⟩
    rw [List.cons_append, read_star_digit digit]
    exact readOffset_eq_ok.2 ⟨value, width, text.length + 1, stays after agrees, rfl, rfl⟩
  · by_cases starts : startsIdentifier cs = true
    · rw [read_star_name starts] at taken
      cases taken
      obtain ⟨suffix, rest, tail, suffixLength, suffixLocal⟩ := readSuffix_local (cs.dropWhile isIdentifierChar)
      have split : cs = cs.takeWhile isIdentifierChar ++ (suffix ++ rest) := by
        rw [← tail, List.takeWhile_append_dropWhile]
      refine ⟨cs.takeWhile isIdentifierChar ++ suffix, rest, by rw [List.append_assoc, ← split], ?_,
        fun after agrees => ?_⟩
      · rw [List.length_append, suffixLength, length_takeName]
        omega
      · have same : SameHead (cs.dropWhile isIdentifierChar) (suffix ++ after) := by
          rw [tail]
          exact agrees.head.append suffix
        rw [List.append_assoc, read_star_name (startsIdentifier_takeWhile starts (suffix ++ after)),
          takeName_of_sameHead same, ← drop_takeWhile, takeWhile_of_sameHead same, List.drop_left,
          suffixLocal after agrees]
    · rw [read_star, if_neg digit, if_neg starts] at taken
      cases taken

theorem localFrom (c : Char) : LocalFrom c := by
  by_cases punctuation : c ∈ ['\n', ',', '(', ')', ':']
  · simp only [List.mem_cons, List.not_mem_nil, or_false] at punctuation
    rcases punctuation with rfl | rfl | rfl | rfl | rfl <;> exact localFrom_single fun _ => rfl
  simp only [List.mem_cons, List.not_mem_nil, or_false, not_or] at punctuation
  by_cases quote : c = '"'
  · exact quote ▸ localFrom_quote
  by_cases numeric : (c == '-' || Text.isDigit c) = true
  · refine localFrom_number fun cs => ?_
    simp only [read, beq_iff_eq, punctuation, quote, numeric, if_false, if_true]
  by_cases marked : (c == '.' || c == '@') = true
  · refine @localFrom_mark c (fun name => if c == '.' then .directive name else .atom name) (.invalidToken c)
      fun cs => ?_
    simp only [read, beq_iff_eq, punctuation, quote, numeric, marked, if_false, if_true, Bool.false_eq_true]
  by_cases star : c = '*'
  · exact star ▸ localFrom_star
  by_cases start : isIdentifierStart c = true
  · refine @localFrom_word c (fun name => if name == "else" then .elseWord else .identifier name) start fun cs => ?_
    simp only [read, beq_iff_eq, punctuation, quote, numeric, marked, star, start, if_false, if_true]
    rfl
  · intro cs lexeme size taken
    simp only [read, beq_iff_eq, punctuation, quote, numeric, marked, star, start, if_false] at taken
    cases taken

theorem read_of_agrees {c : Char} {text rest after : List Char} {lexeme : Lexeme}
    (taken : read c (text ++ rest) = .ok (lexeme, text.length + 1)) (agrees : Agrees rest after) :
    read c (text ++ after) = .ok (lexeme, text.length + 1) := by
  obtain ⟨text', rest', split, length, stays⟩ := localFrom c _ _ _ taken
  obtain ⟨rfl, rfl⟩ := List.append_inj split (by omega)
  exact stays after agrees

theorem readSuffix_of_ne {c : Char} (notDot : c ≠ '.') (cs : List Char) : readSuffix (c :: cs) = none := by
  unfold readSuffix
  split
  · rename_i same
    cases same
    exact absurd rfl notDot
  · rfl

theorem readSuffix_of_read {text rest after : List Char} {lexeme : Lexeme}
    (taken : read '.' (text ++ rest) = .ok (lexeme, text.length + 1)) (same : SameHead rest after) :
    readSuffix ('.' :: (text ++ after)) = readSuffix ('.' :: (text ++ rest)) := by
  have noDigit : Text.isDigit '.' = false := Text.isDigit_ascii (by decide)
  have unfolded : read '.' (text ++ rest) = if startsIdentifier (text ++ rest) then
      .ok (.directive (takeName (text ++ rest)), 1 + (takeName (text ++ rest)).length)
      else .error (.char 0 (.invalidToken '.')) := by
    simp only [read, noDigit]
    rfl
  rw [unfolded] at taken
  rcases ite_eq_ok.1 taken with ⟨starts, taken⟩ | ⟨-, taken⟩
  · have length : ((text ++ rest).takeWhile isIdentifierChar).length = text.length := by
      simp only [Except.ok.injEq, Prod.mk.injEq, length_takeName] at taken
      omega
    obtain ⟨name, tail⟩ := List.append_inj
      (List.takeWhile_append_dropWhile (p := isIdentifierChar) (l := text ++ rest)) length
    cases text with
    | nil =>
      cases rest with
      | nil => cases starts
      | cons c rest =>
        rw [List.nil_append, List.takeWhile_cons_of_pos (isIdentifierChar_of_start starts)] at name
        cases name
    | cons d text =>
      have next : (text ++ after).head?.any isIdentifierChar = (text ++ rest).head?.any isIdentifierChar := by
        cases text with
        | nil =>
          have stop := List.head?_dropWhile_not isIdentifierChar ([d] ++ rest)
          rw [tail] at stop
          have ends : rest.head?.any isIdentifierChar = false := by
            cases rest with
            | nil => rfl
            | cons c rest => simpa using stop
          exact (same.any ends).trans ends.symm
        | cons e text => rfl
      simp only [List.cons_append, readSuffix, next]
  · cases taken

end Lexeme

end EventScript
