import EventScript.Proofs.Digits
import EventScript.Proofs.Spelling
import Mathlib.Data.List.TakeDrop
import Mathlib.Data.List.TakeWhile

namespace EventScript

namespace Text

theorem exists_ascii {c : Char} (ascii : c.toNat < 128) : ∃ n < 128, Char.ofNat n = c :=
  ⟨c.toNat, ascii, Char.ofNat_toNat c⟩

theorem isDigit_iff {c : Char} : c.isDigit = true ↔ 48 ≤ c.toNat ∧ c.toNat ≤ 57 := by
  simp only [Char.isDigit, Bool.and_eq_true, decide_eq_true_eq]
  exact Iff.rfl

theorem ascii_of_isDigit {c : Char} (digit : c.isDigit = true) : c.toNat < 128 := by
  have range := isDigit_iff.1 digit
  omega

theorem ascii_of_isIdentifierChar {c : Char} (named : Lexeme.isIdentifierChar c = true) : c.toNat < 128 := by
  have letter : c.isAlpha = (decide (c.val ≥ 65 ∧ c.val ≤ 90) || (c.val ≥ 97 && c.val ≤ 122)) := rfl
  simp only [Lexeme.isIdentifierChar, Char.isAlphanum, letter, Bool.or_eq_true, Bool.and_eq_true,
    decide_eq_true_eq, beq_iff_eq] at named
  rcases named with ((⟨-, high⟩ | ⟨-, high⟩) | digit) | rfl
  · exact Nat.lt_of_le_of_lt (show c.val.toNat ≤ 90 from high) (by decide)
  · exact Nat.lt_of_le_of_lt (show c.val.toNat ≤ 122 from high) (by decide)
  · exact ascii_of_isDigit digit
  · decide

theorem isDigit_ascii {c : Char} (ascii : c.toNat < 128) : Text.isDigit c = c.isDigit := by
  have zeros : ∀ first ∈ decimalZeros, first = 48 ∨ 128 ≤ first := by decide
  have others : ∀ range ∈ otherDigitRanges, 128 ≤ range.1 := by decide
  rw [Bool.eq_iff_iff, isDigit_iff, Text.isDigit, isDecimal, decimalValue?, Bool.or_eq_true, Option.isSome_map,
    List.find?_isSome, List.any_eq_true]
  simp only [Bool.and_eq_true, decide_eq_true_eq]
  constructor
  · rintro (⟨first, member, low, high⟩ | ⟨range, member, low, -⟩)
    · rcases zeros first member with rfl | outside <;> omega
    · have outside := others range member
      omega
  · rintro ⟨low, high⟩
    exact .inl ⟨48, by decide, low, by omega⟩

theorem decimal_digit {c : Char} (digit : c.isDigit = true) : Text.isDigit c = true ∧ Numeral.isDigitOf 10 c = true ∧
    Numeral.toAscii c = c ∧ Numeral.isBlank c = false ∧ c ∉ ['_', '-', '+', 'x', 'X'] := by
  obtain ⟨low, high⟩ := isDigit_iff.1 digit
  have table : ∀ n < 10, Text.isDigit (Char.ofNat (48 + n)) = true ∧
      Numeral.isDigitOf 10 (Char.ofNat (48 + n)) = true ∧ Numeral.toAscii (Char.ofNat (48 + n)) = Char.ofNat (48 + n) ∧
      Numeral.isBlank (Char.ofNat (48 + n)) = false ∧ Char.ofNat (48 + n) ∉ ['_', '-', '+', 'x', 'X'] := by
    decide +kernel
  have here := table (c.toNat - 48) (by omega)
  rwa [Nat.add_sub_cancel' low, Char.ofNat_toNat] at here

namespace Numeral

theorem isSeparated_of_ne {cs : List Char} (plain : ∀ c ∈ cs, c ≠ '_') : isSeparated cs = true := by
  induction cs with
  | nil => rfl
  | cons c cs ih =>
    obtain ⟨here, others⟩ := List.forall_mem_cons.1 plain
    have rest := ih others
    cases cs with
    | nil => simp [isSeparated]
    | cons d cs =>
      have next : d ≠ '_' := others d List.mem_cons_self
      simp [isSeparated, next, rest]

theorem magnitude_digits (form : NumeralForm) (text : String) {ds : List Char} (digits : ∀ c ∈ ds, c.isDigit = true)
    (nonempty : ds ≠ []) (short : ds.length ≤ maxDecimalDigits)
    (plain : form = .prefixed → splitBase ds = (10, ds) ∧ (ds.head? = some '0' → value 10 ds = 0)) :
    magnitude form text ds = .ok (value 10 ds) := by
  have digit {c : Char} (member : c ∈ ds) := decimal_digit (digits c member)
  have separated : isSeparated ds = true :=
    isSeparated_of_ne fun c member same => (digit member).2.2.2.2 (by simp [same])
  have kept : ds.filter (· != '_') = ds := by
    rw [List.filter_eq_self]
    intro c member
    have := (digit member).2.2.2.2
    simp_all
  have run : ds.span (fun c => c == '_' || isDigitOf 10 c) = (ds, []) := by
    have all : ∀ c ∈ ds, (c == '_' || isDigitOf 10 c) = true := fun c member => by
      simp [(digit member).2.1]
    rw [List.span_eq_takeWhile_dropWhile, List.takeWhile_eq_self_iff.2 all, List.dropWhile_eq_nil_iff.2 all]
  have length : ¬ maxDecimalDigits < ds.length := Nat.not_lt.2 short
  cases form with
  | decimal =>
    simp only [magnitude, run, kept, separated, length]
    simp [nonempty]
  | prefixed =>
    obtain ⟨unprefixed, leading⟩ := plain rfl
    simp only [magnitude, unprefixed, run, kept, separated, length]
    simpa [nonempty] using leading

theorem magnitude_toDigits (form : NumeralForm) (text : String) {n : Nat} (short : n < 10 ^ maxDecimalDigits) :
    magnitude form text (Nat.toDigits 10 n) = .ok n := by
  have unprefixed : splitBase (Nat.toDigits 10 n) = (10, Nat.toDigits 10 n) := by
    rcases toDigits_cases n with ⟨-, zero⟩ | ⟨-, d, ds, split, notZero, -⟩
    · rw [zero]
      rfl
    · rw [split, splitBase]
      intro c rest same
      cases same
      exact notZero rfl
  have stands : value 10 (Nat.toDigits 10 n) = n := value_toDigits (by decide) (by decide) n
  have leading : (Nat.toDigits 10 n).head? = some '0' → value 10 (Nat.toDigits 10 n) = 0 := by
    rw [stands]
    intro first
    by_contra positive
    exact head?_toDigits_ne (Nat.pos_of_ne_zero positive) first
  rw [magnitude_digits form text (fun c => Nat.isDigit_of_mem_toDigits (by decide) (by decide)) Nat.toDigits_ne_nil
    ((Nat.length_toDigits_le_iff (by decide) (by decide)).2 short) fun _ => ⟨unprefixed, leading⟩, stands]

theorem parse_digits {form : NumeralForm} {ds : List Char} (digits : ∀ c ∈ ds, (toAscii c).isDigit = true) :
    parse form (String.ofList ds) =
      (magnitude form (String.ofList ds) (ds.map toAscii)).map fun n => (n : Int) := by
  unfold parse
  rw [String.toList_ofList]
  cases ds with
  | nil => rfl
  | cons c cs =>
    have first := decimal_digit (digits c List.mem_cons_self)
    rw [List.map_cons, List.dropWhile_cons_of_neg (by simp [first.2.2.2.1])]
    split
    · rename_i same
      simp [(List.cons.inj same).1] at first
    · rename_i same
      simp [(List.cons.inj same).1] at first
    · rfl

theorem parse_toDigits {form : NumeralForm} {n : Nat} (short : n < 10 ^ maxDecimalDigits) :
    parse form (String.ofList (Nat.toDigits 10 n)) = .ok (n : Int) := by
  have ascii {c : Char} (member : c ∈ Nat.toDigits 10 n) :=
    (decimal_digit (Nat.isDigit_of_mem_toDigits (by decide) (by decide) member)).2.2.1
  have same : (Nat.toDigits 10 n).map toAscii = Nat.toDigits 10 n :=
    (List.map_congr_left fun c => ascii).trans (List.map_id _)
  rw [parse_digits, same, magnitude_toDigits form _ short]
  · rfl
  · intro c member
    rw [ascii member]
    exact Nat.isDigit_of_mem_toDigits (by decide) (by decide) member

end Numeral

theorem hex_digit {d : Nat} (small : d < 16) : isHexDigit (Nat.digitChar d) = true := by
  rw [isHexDigit, hexValue?_digitChar small]
  rfl

theorem isHexDigit_of_mem_toDigits {n : Nat} {c : Char} (member : c ∈ Nat.toDigits 16 n) : isHexDigit c = true := by
  induction n using Nat.strongRecOn with
  | ind n ih =>
    by_cases small : n < 16
    · rw [Nat.toDigits_of_lt_base small, List.mem_singleton] at member
      exact member ▸ hex_digit small
    · rw [Nat.toDigits_of_base_le (by decide) (Nat.le_of_not_lt small), List.mem_append, List.mem_singleton] at member
      rcases member with before | rfl
      · exact ih _ (Nat.div_lt_self (by omega) (by decide)) before
      · exact hex_digit (Nat.mod_lt _ (by decide))

theorem value_replicate_zero (k : Nat) (digits : List Char) :
    Numeral.value 16 (List.replicate k '0' ++ digits) = Numeral.value 16 digits := by
  have zeros : (List.replicate k '0').foldl (fun v c => 16 * v + (hexValue? c).getD 0) 0 = 0 := by
    induction k with
    | zero => rfl
    | succ k ih =>
      rw [List.replicate_succ', List.foldl_append, ih]
      rfl
  rw [Numeral.value, List.foldl_append, zeros]
  rfl

end Text

namespace Lexeme

def isBreak (c : Char) : Bool := [',', '(', ')', ':', '\n', ' ', '\t'].contains c

def Breaks (cs : List Char) : Prop := ∀ c ∈ cs.head?, isBreak c = true

def Stops (cs : List Char) : Prop := ∀ c ∈ cs.head?, isIdentifierChar c = false ∧ Text.isDigit c = false

theorem breaks_cons {c : Char} (isBreak : isBreak c = true) (cs : List Char) : Breaks (c :: cs) := by
  intro d first
  cases first
  exact isBreak

theorem isBreak_spec {c : Char} (breaks : isBreak c = true) :
    isIdentifierChar c = false ∧ Text.isDigit c = false ∧ c ≠ '.' := by
  have table : [',', '(', ')', ':', '\n', ' ', '\t'].all (fun c =>
      !isIdentifierChar c && !Text.isDigit c && c != '.') = true := by decide +kernel
  simpa [and_assoc] using List.all_eq_true.1 table c (by simpa [isBreak] using breaks)

theorem Breaks.stops {cs : List Char} (breaks : Breaks cs) : Stops cs := by
  intro c first
  have spec := isBreak_spec (breaks c first)
  exact ⟨spec.1, spec.2.1⟩

theorem stops_suffixText (width : Option Width) {rest : List Char} (breaks : Breaks rest) :
    Stops ((Width.suffixText width).toList ++ rest) := by
  cases width with
  | none => simpa [Width.suffixText] using breaks.stops
  | some w =>
    intro c first
    obtain rfl : '.' = c := by simpa [Width.suffixText] using first
    exact ⟨by decide, Text.isDigit_ascii (by decide)⟩

theorem readSuffix_suffixText (width : Option Width) {rest : List Char} (breaks : Breaks rest) :
    readSuffix ((Width.suffixText width).toList ++ rest) = width := by
  have plain : rest.head?.any isIdentifierChar = false := by
    cases rest with
    | nil => rfl
    | cons c rest => exact (isBreak_spec (breaks c rfl)).1
  cases width with
  | none =>
    have noDot : ∀ tail, rest ≠ '.' :: tail := by
      rintro tail rfl
      exact (isBreak_spec (breaks '.' rfl)).2.2 rfl
    simp only [Width.suffixText, String.toList_empty, List.nil_append]
    unfold readSuffix
    split
    · exact absurd rfl (noDot _)
    · rfl
  | some w =>
    cases w <;> simp [Width.suffixText, Width.suffix, readSuffix, plain, Width.ofSuffix?]

theorem length_suffixText (width : Option Width) : (Width.suffixText width).length = suffixLength width := by
  cases width with
  | none => rfl
  | some w => cases w <;> rfl

theorem isIdentifierChar_of_isHexDigit {c : Char} (isHex : Text.isHexDigit c = true) : isIdentifierChar c = true := by
  have ascii : c.toNat < 128 := by
    simp only [Text.isHexDigit, Text.hexValue?] at isHex
    split at isHex
    · rename_i range
      exact Nat.lt_of_le_of_lt (show c.toNat ≤ 57 from range.2) (by decide)
    · split at isHex
      · rename_i range
        exact Nat.lt_of_le_of_lt (show c.toNat ≤ 102 from range.2) (by decide)
      · split at isHex
        · rename_i range
          exact Nat.lt_of_le_of_lt (show c.toNat ≤ 70 from range.2) (by decide)
        · cases isHex
  obtain ⟨n, small, rfl⟩ := Text.exists_ascii ascii
  revert n
  decide +kernel

theorem takeWhile_append_of_stop {p : Char → Bool} {cs rest : List Char} (all : ∀ c ∈ cs, p c = true)
    (stop : ∀ c ∈ rest.head?, p c = false) : (cs ++ rest).takeWhile p = cs := by
  rw [List.takeWhile_append_of_pos all]
  cases rest with
  | nil => simp
  | cons c rest => rw [List.takeWhile_cons_of_neg (by simp [stop c rfl]), List.append_nil]

theorem takeName_append {name : String} (isName : IsName name) {rest : List Char} (stops : Stops rest) :
    takeName (name.toList ++ rest) = name := by
  have all : ∀ c ∈ name.toList, isIdentifierChar c = true := List.all_eq_true.1 isName.2
  rw [takeName, takeWhile_append_of_stop all fun c first => (stops c first).1, String.ofList_toList]

theorem head?_filter_of_stops {rest : List Char} (stops : Stops rest) : rest.head?.filter isIdentifierChar = none := by
  cases rest with
  | nil => rfl
  | cons c rest => simp [Option.filter, (stops c rfl).1]

theorem readMagnitude_hex {digits rest : List Char} (nonempty : digits ≠ [])
    (all : ∀ c ∈ digits, Text.isHexDigit c = true) (stops : Stops rest) :
    readMagnitude ('0' :: 'x' :: digits ++ rest) = .ok (Text.Numeral.value 16 digits, 2 + digits.length) := by
  have stop : ∀ c ∈ rest.head?, Text.isHexDigit c = false := by
    intro c first
    by_contra isHex
    have named := isIdentifierChar_of_isHexDigit (Bool.not_eq_false _ ▸ isHex)
    rw [(stops c first).1] at named
    cases named
  have taken : (digits ++ rest).takeWhile Text.isHexDigit = digits := takeWhile_append_of_stop all stop
  have dropped : ('0' :: 'x' :: (digits ++ rest)).drop (2 + digits.length) = rest := by
    rw [Nat.add_comm]
    simp
  simp only [readMagnitude, List.cons_append, taken, dropped, head?_filter_of_stops stops, List.isEmpty_iff, nonempty,
    if_false]

theorem readMagnitude_decimal {n : Nat} (short : n < 10 ^ Text.maxDecimalDigits) {rest : List Char}
    (stops : Stops rest) :
    readMagnitude (Nat.toDigits 10 n ++ rest) = .ok (n, (Nat.toDigits 10 n).length) := by
  have digit {c : Char} (member : c ∈ Nat.toDigits 10 n) :=
    Text.decimal_digit (Nat.isDigit_of_mem_toDigits (by decide) (by decide) member)
  have taken : (Nat.toDigits 10 n ++ rest).takeWhile Text.isDigit = Nat.toDigits 10 n :=
    takeWhile_append_of_stop (fun c member => (digit member).1) fun c first => (stops c first).2
  -- The number has no second character that would make it hexadecimal.
  have second : ∀ c ∈ ((Nat.toDigits 10 n ++ rest).drop 1).head?, c ≠ 'x' ∧ c ≠ 'X' := by
    intro c next
    cases split : Nat.toDigits 10 n with
    | nil => exact absurd split Nat.toDigits_ne_nil
    | cons d ds =>
      rw [split, List.cons_append, List.drop_one, List.tail_cons] at next
      cases ds with
      | nil =>
        have stop := (stops c next).1
        refine ⟨?_, ?_⟩ <;> rintro rfl <;> exact absurd stop (by decide)
      | cons e es =>
        cases next
        have := (digit (c := c) (by simp [split])).2.2.2.2
        simp_all
  unfold readMagnitude
  dsimp only
  split
  · rename_i same
    exact absurd rfl (second 'x' (by rw [same]; rfl)).1
  · rename_i same
    exact absurd rfl (second 'X' (by rw [same]; rfl)).2
  · simp only [taken, Nat.zero_add, List.drop_left, head?_filter_of_stops stops, List.isEmpty_iff,
      Nat.toDigits_ne_nil, if_false, Text.Numeral.parse_toDigits short]
    rfl

theorem isIdentifierStart_spec {c : Char} (start : isIdentifierStart c = true) :
    Text.isDigit c = false ∧ isBlank c = false ∧
      c ∉ ['\n', ',', '(', ')', ':', '"', '-', '.', '@', '*', ';', '/'] := by
  have ascii := Text.ascii_of_isIdentifierChar (isIdentifierChar_of_start start)
  rw [Text.isDigit_ascii ascii]
  obtain ⟨n, small, rfl⟩ := Text.exists_ascii ascii
  revert n
  decide +kernel

theorem IsName.exists_cons {name : String} (isName : IsName name) :
    ∃ c cs, name.toList = c :: cs ∧ isIdentifierStart c = true := by
  obtain ⟨start, -⟩ := isName
  cases split : name.toList with
  | nil =>
    rw [split] at start
    cases start
  | cons c cs =>
    rw [split] at start
    exact ⟨c, cs, rfl, start⟩

theorem startsIdentifier_append {name : String} (isName : IsName name) (rest : List Char) :
    startsIdentifier (name.toList ++ rest) = true := by
  obtain ⟨c, cs, split, start⟩ := isName.exists_cons
  rw [split]
  exact start

theorem read_word {name : String} (isName : IsName name) {c : Char} {cs rest : List Char}
    (split : name.toList = c :: cs) (stops : Stops rest) :
    read c (cs ++ rest) = .ok (if name == "else" then .elseWord else .identifier name, cs.length + 1) := by
  have start : isIdentifierStart c = true := by
    have := isName.1
    rwa [split] at this
  obtain ⟨noDigit, -, others⟩ := isIdentifierStart_spec start
  have word : takeName (c :: (cs ++ rest)) = name := by
    rw [← List.cons_append, ← split, takeName_append isName stops]
  have size : name.length = cs.length + 1 := by
    rw [← String.length_toList, split, List.length_cons]
  simp only [List.mem_cons, List.not_mem_nil, or_false, not_or] at others
  simp [read, others, noDigit, start, word, size]

theorem read_dot {name : String} (isName : IsName name) {rest : List Char} (stops : Stops rest) :
    read '.' (name.toList ++ rest) = .ok (.directive name, name.toList.length + 1) := by
  have noDigit : Text.isDigit '.' = false := Text.isDigit_ascii (by decide)
  simp [read, noDigit, startsIdentifier_append isName, takeName_append isName stops, String.length_toList, Nat.add_comm]

theorem read_at {name : String} (isName : IsName name) {rest : List Char} (stops : Stops rest) :
    read '@' (name.toList ++ rest) = .ok (.atom name, name.toList.length + 1) := by
  have noDigit : Text.isDigit '@' = false := Text.isDigit_ascii (by decide)
  simp [read, noDigit, startsIdentifier_append isName, takeName_append isName stops, String.length_toList, Nat.add_comm]

theorem read_label {name : String} (isName : IsName name) (width : Option Width) {rest : List Char}
    (breaks : Breaks rest) :
    read '*' (name.toList ++ ((Width.suffixText width).toList ++ rest)) =
      .ok (.label name width, (name.toList ++ (Width.suffixText width).toList).length + 1) := by
  have noDigit : Text.isDigit '*' = false := Text.isDigit_ascii (by decide)
  have word := takeName_append isName (stops_suffixText width breaks)
  have start := startsIdentifier_append isName ((Width.suffixText width).toList ++ rest)
  have suffix : (name.toList ++ ((Width.suffixText width).toList ++ rest)).drop name.length =
      (Width.suffixText width).toList ++ rest := by
    rw [← String.length_toList, List.drop_left]
  have noNumber : (name.toList ++ ((Width.suffixText width).toList ++ rest)).head?.any Text.isDigit = false := by
    obtain ⟨c, cs, split, start⟩ := isName.exists_cons
    rw [split]
    exact (isIdentifierStart_spec start).1
  simp only [read, noDigit, noNumber, start, word, suffix, readSuffix_suffixText width breaks]
  simp only [List.length_append, String.length_toList, length_suffixText]
  simp
  omega

theorem readNumber_of_magnitude {digits rest : List Char} {n : Nat} {width : Option Width} (breaks : Breaks rest)
    (magnitude : readMagnitude (digits ++ ((Width.suffixText width).toList ++ rest)) = .ok (n, digits.length))
    (unsigned : digits.head? ≠ some '-') (nonempty : digits ≠ []) (inRange : InRange n) :
    readNumber (digits ++ ((Width.suffixText width).toList ++ rest)) =
      .ok ((n, width), (digits ++ (Width.suffixText width).toList).length) := by
  have inside : ¬ ((n : Int) < leastLiteral ∨ greatestLiteral < n) := by
    have := inRange
    unfold InRange at this
    omega
  cases digits with
  | nil => exact absurd rfl nonempty
  | cons d ds =>
    have noSign : d ≠ '-' := by simpa using unsigned
    unfold readNumber
    split
    · rename_i same
      split at same
      · rename_i first
        cases first
        exact absurd rfl noSign
      · cases same
        rw [magnitude]
        simp only [Bool.false_eq_true, if_false, if_neg inside, List.drop_left, readSuffix_suffixText width breaks]
        simp [String.length_toList, length_suffixText]
        omega

theorem readNumber_minus {digits rest : List Char} {n : Nat} {width : Option Width} (breaks : Breaks rest)
    (magnitude : readMagnitude (digits ++ ((Width.suffixText width).toList ++ rest)) = .ok (n, digits.length))
    (inRange : InRange (-n)) :
    readNumber ('-' :: digits ++ ((Width.suffixText width).toList ++ rest)) =
      .ok ((-n, width), ('-' :: digits ++ (Width.suffixText width).toList).length) := by
  have inside : ¬ (-(n : Int) < leastLiteral ∨ greatestLiteral < -(n : Int)) := by
    have := inRange
    unfold InRange at this
    omega
  simp only [readNumber, List.cons_append, magnitude, List.drop_left, readSuffix_suffixText width breaks, if_true,
    if_neg inside]
  simp [String.length_toList, length_suffixText]
  omega

theorem not_mem_of_numeric {c : Char} (numeric : (c == '-' || Text.isDigit c) = true) :
    c ∉ ['\n', ',', '(', ')', ':', '"', ' ', '\t', '\r', '\x0c', ';', '/'] := by
  intro member
  have table : ['\n', ',', '(', ')', ':', '"', ' ', '\t', '\r', '\x0c', ';', '/'].all (fun c =>
      !(c == '-' || Text.isDigit c)) = true := by decide +kernel
  have here := List.all_eq_true.1 table c member
  rw [numeric] at here
  cases here

theorem read_number {c : Char} {cs : List Char} (numeric : (c == '-' || Text.isDigit c) = true) {value : Int}
    {width : Option Width} {size : Nat} (number : readNumber (c :: cs) = .ok ((value, width), size)) :
    read c cs = .ok (.integer value width, size) := by
  have others := not_mem_of_numeric numeric
  simp only [List.mem_cons, List.not_mem_nil, or_false, not_or] at others
  simp only [read, beq_iff_eq, others, if_false, numeric, if_true, number]
  rfl

theorem read_offset {cs : List Char} (digit : cs.head?.any Text.isDigit = true) {value : Nat} {width : Option Width}
    {size : Nat} (number : readNumber cs = .ok ((value, width), size)) :
    read '*' cs = .ok (.offset value width, size + 1) := by
  have noDigit : Text.isDigit '*' = false := Text.isDigit_ascii (by decide)
  simp [read, noDigit, digit, number, Nat.add_comm]

end Lexeme

namespace Text

theorem toList_toString (value : Int) : (toString value).toList =
    if value < 0 then '-' :: Nat.toDigits 10 value.natAbs else Nat.toDigits 10 value.natAbs := by
  cases value with
  | ofNat n =>
    rw [if_neg (by simp)]
    simp [toString, Int.repr, Nat.repr]
  | negSucc n =>
    rw [if_pos (Int.negSucc_lt_zero n)]
    simp [toString, Int.repr, Nat.repr]

theorem toList_hexPadded {width n : Nat} : (hexPadded width n).toList =
    List.replicate (width - (Nat.toDigits 16 n).length) '0' ++ Nat.toDigits 16 n := by
  simp [hexPadded]

theorem escapeLetter?_eq_some {b : UInt8} {c : Char} (found : escapeLetter? b = some c) :
    c ≠ 'x' ∧ escapedByte? c = some b := by
  obtain ⟨p, isFirst, rfl⟩ := Option.map_eq_some_iff.1 found
  have table : ∀ p ∈ simpleEscapes, p.1 ≠ 'x' ∧ escapedByte? p.1 = some p.2 := by decide +kernel
  have same : p.2 = b := by simpa using List.find?_some isFirst
  exact same ▸ table p (List.mem_of_find?_eq_some isFirst)

theorem encodeChar?_quoteByte {b : UInt8} (noEscape : escapeLetter? b = none)
    (shown : ((0x20 ≤ b && b < 0x7f) || 0xa0 ≤ b) = true) :
    encodeChar? (Char.ofNat b.toNat) = some b ∧ Char.ofNat b.toNat ∉ ['"', '\\', '\n'] := by
  have bound := b.toNat_lt
  have number : (Char.ofNat b.toNat).toNat = b.toNat := by
    rw [Char.ofNat, dif_pos (.inl (by omega))]
    rfl
  have range : (0x20 ≤ b.toNat ∧ b.toNat < 0x7f) ∨ 0xa0 ≤ b.toNat := by
    simpa [UInt8.le_iff_toNat_le, UInt8.lt_iff_toNat_lt] using shown
  have printed : (b.toNat < 0x80 || (0xa0 ≤ b.toNat && b.toNat < 0x100)) = true := by
    simp only [Bool.or_eq_true, Bool.and_eq_true, decide_eq_true_eq]
    omega
  refine ⟨by rw [encodeChar?, number, if_pos printed, UInt8.ofNat_toNat], fun member => ?_⟩
  have escaped : ∀ n ∈ [34, 92, 10], escapeLetter? (UInt8.ofNat n) ≠ none := by decide
  have here := escaped _ (List.mem_map_of_mem (f := Char.toNat) member)
  rw [number, UInt8.ofNat_toNat] at here
  exact here noEscape

theorem hexPadded_two {n : Nat} (small : n < 256) :
    (hexPadded 2 n).toList = [Nat.digitChar (n / 16), Nat.digitChar (n % 16)] := by
  rw [toList_hexPadded]
  rcases Nat.lt_or_ge n 16 with low | high
  · rw [Nat.toDigits_of_lt_base low, Nat.div_eq_of_lt low, Nat.mod_eq_of_lt low]
    rfl
  · rw [Nat.toDigits_of_base_le (by decide) high, Nat.toDigits_of_lt_base (by omega)]
    rfl

end Text

namespace Lexeme

theorem readStringTail_quoteByte (b : UInt8) (cs : List Char) (taken : Nat) :
    readStringTail (Text.quoteByte b ++ cs) taken =
      (readStringTail cs (taken + (Text.quoteByte b).length)).map fun (bytes, size) => (b :: bytes, size) := by
  unfold Text.quoteByte
  cases escape : Text.escapeLetter? b with
  | some c =>
    obtain ⟨notHex, byte⟩ := Text.escapeLetter?_eq_some escape
    dsimp only [List.cons_append, List.nil_append]
    rw [readStringTail.eq_3 _ _ _ (by simp [notHex]), byte]
    rfl
  | none =>
    by_cases shown : ((0x20 ≤ b && b < 0x7f) || 0xa0 ≤ b) = true
    · obtain ⟨encoded, others⟩ := Text.encodeChar?_quoteByte escape shown
      simp only [List.mem_cons, List.not_mem_nil, or_false, not_or] at others
      dsimp only
      rw [if_pos shown, List.cons_append, List.nil_append]
      rw [readStringTail.eq_5 _ _ _ (by simp [others]) (by simp [others]) (by simp [others]) (by simp [others]),
        if_neg (by simp [others]), encoded]
      rfl
    · dsimp only
      rw [if_neg shown, Text.hexPadded_two b.toNat_lt]
      have high : b.toNat / 16 < 16 := Nat.div_lt_of_lt_mul b.toNat_lt
      have low : b.toNat % 16 < 16 := Nat.mod_lt _ (by decide)
      have joined : 16 * (b.toNat / 16) + b.toNat % 16 = b.toNat := Nat.div_add_mod _ _
      simp only [List.cons_append, List.nil_append, readStringTail, Text.hexValue?_digitChar high,
        Text.hexValue?_digitChar low, joined, UInt8.ofNat_toNat]
      rfl

theorem readStringTail_quote (bytes : Bytes) (rest : List Char) (taken : Nat) :
    readStringTail (bytes.flatMap Text.quoteByte ++ '"' :: rest) taken =
      .ok (bytes, taken + (bytes.flatMap Text.quoteByte).length + 1) := by
  induction bytes generalizing taken with
  | nil => rfl
  | cons b bytes ih =>
    rw [List.flatMap_cons, List.append_assoc, readStringTail_quoteByte, ih]
    simp [Except.map, Nat.add_assoc]

theorem read_string (bytes : Bytes) (rest : List Char) :
    read '"' (bytes.flatMap Text.quoteByte ++ '"' :: rest) =
      .ok (.string bytes, (bytes.flatMap Text.quoteByte).length + 2) := by
  simp only [read, readStringTail_quote]
  simp [Except.map]
  omega

end Lexeme

def startsGap (c : Char) : Bool := isBlank c || c == ';' || c == '/'

/-- The first characters are scanned to the tokens. What follows them is left, and decides with them where a token
ends. -/
inductive Scans : List Char → List Lexeme → List Char → Prop
  | done (rest : List Char) : Scans rest [] rest
  | blank {c : Char} {cs rest : List Char} {lexemes : List Lexeme} :
    isBlank c = true → Scans cs lexemes rest → Scans (c :: cs) lexemes rest
  | token {c : Char} {text cs rest : List Char} {lexeme : Lexeme} {lexemes : List Lexeme} :
    startsGap c = false → Lexeme.read c (text ++ cs) = .ok (lexeme, text.length + 1) → Scans cs lexemes rest →
      Scans (c :: (text ++ cs)) (lexeme :: lexemes) rest

namespace Scans

variable {cs middle rest : List Char} {lexemes lexemes' : List Lexeme}

theorem append (first : Scans cs lexemes middle) (second : Scans middle lexemes' rest) :
    Scans cs (lexemes ++ lexemes') rest := by
  induction first with
  | done => exact second
  | blank isBlank _ ih => exact .blank isBlank (ih second)
  | token starts read _ ih => exact .token starts read (ih second)

theorem skipGap_blank {c : Char} (isBlank : isBlank c = true) (cs : List Char) (place : Nat) :
    skipGap .blank (c :: cs) place = skipGap .blank cs (place + 1) := by
  have notSlash : c ≠ '/' := by
    rintro rfl
    cases isBlank
  rw [skipGap.eq_8 _ _ _ (by simp [notSlash]), if_pos isBlank]

theorem skipGap_token {c : Char} (starts : startsGap c = false) (cs : List Char) (place : Nat) :
    skipGap .blank (c :: cs) place = .ok (c :: cs, place) := by
  simp only [startsGap, Bool.or_eq_false_iff] at starts
  obtain ⟨⟨notBlank, notSemicolon⟩, slash⟩ := starts
  have notSlash : c ≠ '/' := by simpa using slash
  rw [skipGap.eq_8 _ _ _ (by simp [notSlash]), if_neg (by simp [notBlank]), if_neg (by simp [notSemicolon])]

/-- A text that is scanned to its end has those tokens, and then the end of input. -/
theorem scanFrom_eq (scans : Scans cs lexemes []) {fuel place : Nat} (enough : cs.length < fuel) :
    ∃ ts last, TokenStream.scanFrom fuel cs place = ⟨ts ++ [⟨.endOfInput, last⟩], none⟩ ∧
      ts.map (·.lexeme) = lexemes := by
  generalize ends : ([] : List Char) = rest at scans
  induction scans generalizing fuel place with
  | done =>
    subst ends
    cases fuel with
    | zero => cases enough
    | succ fuel => exact ⟨[], _, rfl, rfl⟩
  | @blank c cs _ _ isBlank scans ih =>
    cases fuel with
    | zero => cases enough
    | succ fuel =>
      have skipped : TokenStream.scanFrom (fuel + 1) (c :: cs) place =
          TokenStream.scanFrom (fuel + 1) cs (place + 1) := by
        rw [TokenStream.scanFrom, TokenStream.scanFrom, skipGap_blank isBlank]
      rw [skipped]
      exact ih (Nat.lt_of_succ_lt enough) ends
  | @token c text cs _ lexeme _ starts read scans ih =>
    cases fuel with
    | zero => cases enough
    | succ fuel =>
      have dropped : (c :: (text ++ cs)).drop (text.length + 1) = cs := by simp
      have shorter : cs.length < fuel := by
        simp only [List.length_cons, List.length_append] at enough
        omega
      obtain ⟨ts, last, scanned, same⟩ := @ih fuel (place + (text.length + 1)) shorter ends
      rw [TokenStream.scanFrom, skipGap_token starts]
      simp only [read, dropped, scanned]
      exact ⟨_ :: ts, last, rfl, by simp [same]⟩

end Scans

/-- The text is written for the tokens: it is scanned to them wherever a name or a number may end after it. -/
def Writes (text : List Char) (lexemes : List Lexeme) : Prop :=
  ∀ rest, Lexeme.Breaks rest → Scans (text ++ rest) lexemes rest

namespace Writes

variable {text text' : List Char} {lexemes lexemes' : List Lexeme}

theorem nil : Writes [] [] := fun rest _ => .done rest

theorem blank {c : Char} (isBlank : isBlank c = true) (writes : Writes text lexemes) : Writes (c :: text) lexemes :=
  fun rest breaks => .blank isBlank (writes rest breaks)

theorem of_read {c : Char} {lexeme : Lexeme} (starts : startsGap c = false)
    (read : ∀ rest, Lexeme.Breaks rest → Lexeme.read c (text ++ rest) = .ok (lexeme, text.length + 1)) :
    Writes (c :: text) [lexeme] :=
  fun rest breaks => .token starts (read rest breaks) (.done rest)

theorem punctuation {c : Char} {lexeme : Lexeme} (starts : startsGap c = false)
    (read : ∀ cs, Lexeme.read c cs = .ok (lexeme, 1)) (writes : Writes text lexemes) :
    Writes (c :: text) (lexeme :: lexemes) := by
  intro rest breaks
  have first : Scans (c :: ([] ++ (text ++ rest))) [lexeme] (text ++ rest) := .token starts (read _) (.done _)
  exact first.append (writes rest breaks)

theorem comma (writes : Writes text lexemes) : Writes (',' :: text) (.comma :: lexemes) :=
  writes.punctuation rfl fun _ => rfl

theorem openParen (writes : Writes text lexemes) : Writes ('(' :: text) (.openParen :: lexemes) :=
  writes.punctuation rfl fun _ => rfl

theorem closeParen (writes : Writes text lexemes) : Writes (')' :: text) (.closeParen :: lexemes) :=
  writes.punctuation rfl fun _ => rfl

theorem colon (writes : Writes text lexemes) : Writes (':' :: text) (.colon :: lexemes) :=
  writes.punctuation rfl fun _ => rfl

theorem newline (writes : Writes text lexemes) : Writes ('\n' :: text) (.newline :: lexemes) :=
  writes.punctuation rfl fun _ => rfl

theorem append (first : Writes text lexemes) {c : Char} (isBreak : Lexeme.isBreak c = true)
    (second : Writes (c :: text') lexemes') : Writes (text ++ c :: text') (lexemes ++ lexemes') := by
  intro rest breaks
  rw [List.append_assoc]
  exact (first _ (Lexeme.breaks_cons isBreak _)).append (second rest breaks)

theorem intercalate {c : Char} {separator : List Char} {between : List Lexeme} (isBreak : Lexeme.isBreak c = true)
    (separates : ∀ {text lexemes}, Writes text lexemes → Writes (c :: separator ++ text) (between ++ lexemes))
    {texts : List (List Char)} {parts : List (List Lexeme)} (each : List.Forall₂ Writes texts parts) :
    Writes ((c :: separator).intercalate texts) (between.intercalate parts) := by
  induction each with
  | nil => exact nil
  | @cons text part texts parts here others ih =>
    cases others with
    | nil => simpa using here
    | cons next others =>
      rw [List.intercalate_cons_cons, List.intercalate_cons_cons, List.append_assoc, List.append_assoc]
      exact here.append isBreak (separates ih)

theorem commas {texts : List String} {parts : List (List Lexeme)}
    (each : List.Forall₂ (fun text part => Writes text.toList part) texts parts) :
    Writes (", ".intercalate texts).toList ([.comma].intercalate parts) := by
  have separator : ", ".toList = [',', ' '] := by decide
  rw [String.toList_intercalate, separator]
  apply intercalate
  · decide
  · intro text lexemes writes
    exact (writes.blank (by decide)).comma
  · exact List.forall₂_map_left_iff.2 each

theorem commaLines {texts : List String} {parts : List (List Lexeme)}
    (each : List.Forall₂ (fun text part => Writes text.toList part) texts parts) :
    Writes (",\n\t\t".intercalate texts).toList ([.comma, .newline].intercalate parts) := by
  have separator : ",\n\t\t".toList = [',', '\n', '\t', '\t'] := by decide
  rw [String.toList_intercalate, separator]
  apply intercalate
  · decide
  · intro text lexemes writes
    exact ((writes.blank (by decide)).blank (by decide)).newline.comma
  · exact List.forall₂_map_left_iff.2 each

theorem word {name : String} (isName : Lexeme.IsName name) :
    Writes name.toList [if name == "else" then .elseWord else .identifier name] := by
  obtain ⟨c, cs, split, start⟩ := isName.exists_cons
  have starts : startsGap c = false := by
    obtain ⟨-, notBlank, others⟩ := Lexeme.isIdentifierStart_spec start
    simp_all [startsGap]
  rw [split]
  exact of_read starts fun rest breaks => Lexeme.read_word isName split breaks.stops

theorem identifier {name : String} (isName : Lexeme.IsName name) (notElse : name ≠ "else") :
    Writes name.toList [.identifier name] := by
  simpa [notElse] using word isName

theorem directive {name : String} (isName : Lexeme.IsName name) : Writes ('.' :: name.toList) [.directive name] :=
  of_read (by decide) fun _ breaks => Lexeme.read_dot isName breaks.stops

theorem atom {name : String} (isName : Lexeme.IsName name) : Writes ('@' :: name.toList) [.atom name] :=
  of_read (by decide) fun _ breaks => Lexeme.read_at isName breaks.stops

theorem label {name : String} (isName : Lexeme.IsName name) (width : Option Width) :
    Writes ('*' :: (name.toList ++ (Width.suffixText width).toList)) [.label name width] := by
  refine of_read (by decide) fun rest breaks => ?_
  rw [List.append_assoc]
  exact Lexeme.read_label isName width breaks

theorem string (bytes : Bytes) : Writes (Text.quoteChars bytes) [.string bytes] := by
  have body : Writes ('"' :: (bytes.flatMap Text.quoteByte ++ ['"'])) [.string bytes] := by
    refine of_read (by decide) fun rest _ => ?_
    rw [List.append_assoc]
    simpa using Lexeme.read_string bytes rest
  exact body

theorem number {c : Char} {cs : List Char} {value : Int} {width : Option Width}
    (numeric : (c == '-' || Text.isDigit c) = true)
    (read : ∀ rest, Lexeme.Breaks rest → Lexeme.readNumber (c :: cs ++ rest) = .ok ((value, width), cs.length + 1)) :
    Writes (c :: cs) [.integer value width] := by
  have starts : startsGap c = false := by
    have others := Lexeme.not_mem_of_numeric numeric
    simp only [List.mem_cons, List.not_mem_nil, or_false, not_or] at others
    simp [startsGap, isBlank, others]
  exact of_read starts fun rest breaks => Lexeme.read_number numeric (read rest breaks)

theorem integer {value : Int} (inRange : Lexeme.InRange value) (width : Option Width) :
    Writes ((toString value).toList ++ (Width.suffixText width).toList) [.integer value width] := by
  have short : value.natAbs < 10 ^ Text.maxDecimalDigits := by
    have small : value.natAbs < 10 ^ 10 := by
      simp only [Lexeme.InRange, Lexeme.leastLiteral, Lexeme.greatestLiteral] at inRange
      omega
    exact Nat.lt_of_lt_of_le small (Nat.pow_le_pow_right (by decide) (by decide))
  have magnitude (rest : List Char) (breaks : Lexeme.Breaks rest) :=
    Lexeme.readMagnitude_decimal short (Lexeme.stops_suffixText width breaks)
  rw [Text.toList_toString]
  by_cases negative : value < 0
  · rw [if_pos negative]
    have same : -((value.natAbs : Nat) : Int) = value := by omega
    refine number (by simp) fun rest breaks => ?_
    have read := Lexeme.readNumber_minus breaks (magnitude rest breaks) (by rwa [same])
    rw [same] at read
    simpa using read
  · rw [if_neg negative]
    have same : ((value.natAbs : Nat) : Int) = value := by omega
    cases split : Nat.toDigits 10 value.natAbs with
    | nil => exact absurd split Nat.toDigits_ne_nil
    | cons d ds =>
      have digit := Text.decimal_digit (Nat.isDigit_of_mem_toDigits (by decide) (by decide)
        (show d ∈ Nat.toDigits 10 value.natAbs by simp [split]))
      have unsigned : (d :: ds).head? ≠ some '-' := by
        rintro ⟨⟩
        simp at digit
      refine number (by simp [digit.1]) fun rest breaks => ?_
      have read := Lexeme.readNumber_of_magnitude breaks (split ▸ magnitude rest breaks) unsigned (by simp)
        (same.symm ▸ inRange)
      rw [same] at read
      simpa using read

theorem readNumber_hex {n k : Nat} (inRange : Lexeme.InRange n) (width : Option Width) {rest : List Char}
    (breaks : Lexeme.Breaks rest) :
    Lexeme.readNumber ('0' :: 'x' :: (List.replicate k '0' ++ Nat.toDigits 16 n) ++
        ((Width.suffixText width).toList ++ rest)) =
      .ok ((n, width), ('0' :: 'x' :: (List.replicate k '0' ++ Nat.toDigits 16 n) ++
        (Width.suffixText width).toList).length) := by
  have all : ∀ c ∈ List.replicate k '0' ++ Nat.toDigits 16 n, Text.isHexDigit c = true := by
    intro c member
    rcases List.mem_append.1 member with zero | digit
    · rw [(List.mem_replicate.1 zero).2]
      decide
    · exact Text.isHexDigit_of_mem_toDigits digit
  have magnitude := Lexeme.readMagnitude_hex (by simp [Nat.toDigits_ne_nil]) all
    (Lexeme.stops_suffixText width breaks)
  rw [Text.value_replicate_zero, Text.Numeral.value_toDigits (by decide) (Nat.le_refl _), Nat.add_comm] at magnitude
  exact Lexeme.readNumber_of_magnitude breaks magnitude (by simp) (by simp) inRange

theorem offset {value : Int} (nonneg : 0 ≤ value) (inRange : Lexeme.InRange value) (width : Option Width) :
    Writes ('*' :: '0' :: 'x' :: ((Text.hexInt value).toList ++ (Width.suffixText width).toList))
      [.offset value.toNat width] := by
  have digits : (Text.hexInt value).toList = Nat.toDigits 16 value.toNat := by
    have same : value.natAbs = value.toNat := by omega
    simp [Text.hexInt, Text.hex, Int.not_lt.2 nonneg, same]
  have inRange' : Lexeme.InRange (value.toNat : Int) := (Int.toNat_of_nonneg nonneg).symm ▸ inRange
  refine of_read (by decide) fun rest breaks => ?_
  have read := readNumber_hex (k := 0) inRange' width breaks
  rw [List.replicate_zero, List.nil_append, ← digits] at read
  exact Lexeme.read_offset rfl (by simpa using read)

theorem colour {value : Int} (nonneg : 0 ≤ value) (inRange : Lexeme.InRange value) :
    Writes ('0' :: 'x' :: (Text.hexPadded 8 value.toNat).toList) [.integer value none] := by
  have inRange' : Lexeme.InRange (value.toNat : Int) := (Int.toNat_of_nonneg nonneg).symm ▸ inRange
  refine number (by simp [Text.isDigit_ascii]) fun rest breaks => ?_
  have read := readNumber_hex (k := 8 - (Nat.toDigits 16 value.toNat).length) inRange' none breaks
  rw [← Text.toList_hexPadded, Int.toNat_of_nonneg nonneg] at read
  simpa [Width.suffixText] using read

end Writes

end EventScript
