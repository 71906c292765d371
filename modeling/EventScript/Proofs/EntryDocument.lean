import EventScript.EntryFile.Basic
import EventScript.Proofs.Scanning

namespace EventScript

namespace Text

/-- The number has no more digits than a numeral may have. -/
def IsShort (n : Nat) : Prop := n < 10 ^ maxDecimalDigits

instance (n : Nat) : Decidable (IsShort n) := inferInstanceAs (Decidable (_ < _))

theorem length_toDigits_le {n : Nat} : (Nat.toDigits 10 n).length ≤ maxDecimalDigits ↔ IsShort n :=
  Nat.length_toDigits_le_iff (by decide) (by decide)

end Text

namespace Json

theorem unit?_eq_some {a b c d : Char} (digits : ∀ x ∈ [a, b, c, d], Text.isHexDigit x = true) :
    unit? a b c d = some (Text.Numeral.value 16 [a, b, c, d]) := by
  simp only [List.forall_mem_cons, Text.isHexDigit, Option.isSome_iff_exists] at digits
  obtain ⟨⟨u, hu⟩, ⟨v, hv⟩, ⟨w, hw⟩, ⟨x, hx⟩, -⟩ := digits
  simp [unit?, Text.Numeral.value, hu, hv, hw, hx]

theorem exists_unit {n : Nat} (small : n < 0x10000) :
    ∃ a b c d, (escapeUnit n).toList = ['\\', 'u', a, b, c, d] ∧ unit? a b c d = some n := by
  have length : (Text.hexPadded 4 n).toList.length = 4 := by
    have fits : (Nat.toDigits 16 n).length ≤ 4 := (Nat.length_toDigits_le_iff (by decide) (by decide)).2 small
    rw [Text.toList_hexPadded, List.length_append, List.length_replicate]
    omega
  match digits : (Text.hexPadded 4 n).toList with
  | [] | [_] | [_, _] | [_, _, _] | _ :: _ :: _ :: _ :: _ :: _ => simp [digits] at length
  | [a, b, c, d] =>
    refine ⟨a, b, c, d, by simp [escapeUnit, digits], ?_⟩
    have hexadecimal : ∀ x ∈ [a, b, c, d], Text.isHexDigit x = true := by
      intro x member
      rw [← digits, Text.toList_hexPadded, List.mem_append] at member
      rcases member with zero | digit
      · obtain rfl := List.eq_of_mem_replicate zero
        rfl
      · exact Text.isHexDigit_of_mem_toDigits digit
    rw [unit?_eq_some hexadecimal, ← digits, Text.toList_hexPadded, Text.value_replicate_zero,
      Text.Numeral.value_toDigits (by decide) (Nat.le_refl _)]

theorem stringCodes_escapeUnit {n : Nat} (small : n < 0x10000) (rest : Rest) :
    stringCodes ((escapeUnit n).toList ++ rest) = (stringCodes rest).map fun found => (n :: found.1, found.2) := by
  obtain ⟨a, b, c, d, text, code⟩ := exists_unit small
  simp only [text, List.cons_append, List.nil_append, stringCodes, code]
  cases stringCodes rest <;> rfl

def units (c : Char) : List Nat :=
  if c.toNat < 0x10000 then [c.toNat]
  else [0xd800 + (c.toNat - 0x10000) / 0x400, 0xdc00 + (c.toNat - 0x10000) % 0x400]

theorem toNat_lt (c : Char) : c.toNat < 0x110000 := by
  rcases c.valid with low | ⟨-, high⟩
  · exact Nat.lt_trans low (by decide)
  · exact high

theorem not_surrogate (c : Char) : isHighSurrogate c.toNat = false ∧ isLowSurrogate c.toNat = false := by
  have valid : c.toNat < 0xd800 ∨ 0xdfff < c.toNat := by
    rcases c.valid with low | ⟨high, -⟩
    · exact .inl low
    · exact .inr high
  simp only [isHighSurrogate, isLowSurrogate, Bool.and_eq_false_iff, decide_eq_false_iff_not]
  omega

theorem stringCodes_plain {c : Char} (quote : c ≠ '"') (slash : c ≠ '\\') (visible : 0x20 ≤ c.toNat)
    (rest : Rest) : stringCodes (c :: rest) = (stringCodes rest).map fun found => (c.toNat :: found.1, found.2) := by
  rw [stringCodes]
  · rw [if_neg (Nat.not_lt.2 visible)]
    cases stringCodes rest <;> rfl
  · exact quote
  · intro _ _ _ _ _ isSlash
    exact absurd isSlash slash
  · intro _ _ isSlash
    exact absurd isSlash slash

theorem stringCodes_escaped {letter char : Char} (member : (letter, char) ∈ escapes) (rest : Rest) :
    stringCodes ('\\' :: letter :: rest) = (stringCodes rest).map fun found => (char.toNat :: found.1, found.2) := by
  have table : ∀ pair ∈ escapes, escapes.find? (·.1 == pair.1) = some pair ∧ pair.1 ≠ 'u' := by decide
  obtain ⟨found, notUnit⟩ := table _ member
  rw [stringCodes, found]
  · cases stringCodes rest <;> rfl
  · intro _ _ _ _ _ isUnit
    exact absurd isUnit notUnit

theorem stringCodes_writeChar (c : Char) (rest : Rest) :
    stringCodes ((writeChar c).toList ++ rest) =
      (stringCodes rest).map fun found => (units c ++ found.1, found.2) := by
  unfold writeChar units
  split
  · rename_i letter char found
    have holds := List.find?_some found
    have member := List.mem_of_find?_eq_some found
    simp only [Bool.and_eq_true, beq_iff_eq] at holds
    obtain ⟨rfl, -⟩ := holds
    have small : ∀ pair ∈ escapes, pair.2.toNat < 0x10000 := by decide
    rw [if_pos (small _ member), String.toList_ofList, List.cons_append, List.cons_append, List.nil_append,
      stringCodes_escaped member]
    rfl
  · rename_i unescaped
    have plain : ∀ pair ∈ escapes, pair.1 ≠ '/' → pair.2 ≠ c := by
      intro pair member notSlash same
      have refused := List.find?_eq_none.1 unescaped pair member
      simp [same, notSlash] at refused
    dsimp only
    split
    · rename_i visible
      rw [if_pos (by omega), show c.toString.toList = [c] from String.toList_singleton c]
      exact stringCodes_plain (plain ('"', '"') (by decide) (by decide)).symm
        (plain ('\\', '\\') (by decide) (by decide)).symm visible.1 rest
    · split
      · rename_i small
        rw [stringCodes_escapeUnit small]
        rfl
      · rename_i large
        have bound := toNat_lt c
        rw [String.toList_append, List.append_assoc, stringCodes_escapeUnit (by omega),
          stringCodes_escapeUnit (by omega)]
        cases stringCodes rest <;> rfl

theorem joinSurrogates_units (c : Char) (codes : List Nat) :
    joinSurrogates (units c ++ codes) = c :: joinSurrogates codes := by
  unfold units
  split
  · obtain ⟨notHigh, notLow⟩ := not_surrogate c
    have self : ofCode c.toNat = c := by simp [ofCode, notHigh, notLow]
    cases codes with
    | nil => simp [joinSurrogates, self]
    | cons low codes => simp [joinSurrogates, notHigh, self]
  · rename_i large
    have bound := toNat_lt c
    have high : isHighSurrogate (0xd800 + (c.toNat - 0x10000) / 0x400) = true := by
      simp only [isHighSurrogate, Bool.and_eq_true, decide_eq_true_eq]
      omega
    have low : isLowSurrogate (0xdc00 + (c.toNat - 0x10000) % 0x400) = true := by
      simp only [isLowSurrogate, Bool.and_eq_true, decide_eq_true_eq]
      omega
    have code : 0x10000 + 0x400 * (0xd800 + (c.toNat - 0x10000) / 0x400 - 0xd800) +
        (0xdc00 + (c.toNat - 0x10000) % 0x400 - 0xdc00) = c.toNat := by omega
    simp only [List.cons_append, List.nil_append, joinSurrogates, high, low, Bool.and_true, if_true, code,
      Char.ofNat_toNat]

theorem stringCodes_writeChars (cs : List Char) (rest : Rest) :
    stringCodes (cs.flatMap (fun c => (writeChar c).toList) ++ '"' :: rest) = some (cs.flatMap units, rest) := by
  induction cs with
  | nil => rfl
  | cons c cs ih =>
    rw [List.flatMap_cons, List.append_assoc, stringCodes_writeChar, ih]
    rfl

theorem joinSurrogates_flatMap_units (cs : List Char) : joinSurrogates (cs.flatMap units) = cs := by
  induction cs with
  | nil => rfl
  | cons c cs ih => rw [List.flatMap_cons, joinSurrogates_units, ih]

theorem readString_writeString (s : String) (rest : Rest) : ∃ body, (writeString s).toList ++ rest = '"' :: body ∧
    readString body = .ok (s, rest) := by
  refine ⟨s.toList.flatMap (fun c => (writeChar c).toList) ++ '"' :: rest, ?_, ?_⟩
  · simp [writeString, String.toList_join, List.flatMap_map]
  · rw [readString, stringCodes_writeChars]
    dsimp only
    rw [joinSurrogates_flatMap_units, String.ofList_toList]

theorem span_digits {digits rest : List Char} (all : ∀ c ∈ digits, isDigit c = true)
    (ends : ∀ c ∈ rest.head?, isDigit c = false) : (digits ++ rest).span isDigit = (digits, rest) := by
  rw [List.span_eq_takeWhile_dropWhile, List.takeWhile_append_of_pos all, List.dropWhile_append_of_pos all]
  cases rest with
  | nil => simp
  | cons c rest =>
    have stop := ends c rfl
    simp [stop]

theorem wholeDigits_toDigits (n : Nat) {rest : Rest} (ends : ∀ c ∈ rest.head?, isDigit c = false) :
    wholeDigits (Nat.toDigits 10 n ++ rest) = some (Nat.toDigits 10 n, rest) := by
  rcases Text.toDigits_cases n with ⟨-, zero⟩ | ⟨-, d, ds, split, notZero, digits⟩
  · rw [zero]
    rfl
  · rw [split, List.cons_append, wholeDigits, if_pos, ← List.cons_append, span_digits digits ends]
    · exact digits d List.mem_cons_self
    · exact notZero

def EndsNumber (rest : Rest) : Prop := rest.head? = some ',' ∨ rest.head? = some '\n'

theorem EndsNumber.cases {rest : Rest} (ends : EndsNumber rest) :
    ∃ c cs, rest = c :: cs ∧ (c = ',' ∨ c = '\n') := by
  cases rest with
  | nil => rcases ends with comma | newline <;> contradiction
  | cons c cs => exact ⟨c, cs, rfl, ends.imp Option.some.inj Option.some.inj⟩

theorem readMagnitude_toDigits (negative : Bool) (n : Nat) {rest : Rest} (ends : EndsNumber rest) :
    readMagnitude negative (Nat.toDigits 10 n ++ rest) =
      if Text.IsShort n then .ok (.integer (if negative then -(n : Int) else n), rest)
      else .error (.numeral (.tooLong (Nat.toDigits 10 n).length)) := by
  obtain ⟨c, cs, rfl, stop⟩ := ends.cases
  have noDigit : ∀ d ∈ (c :: cs).head?, isDigit d = false := by
    rintro d ⟨⟩
    rcases stop with rfl | rfl <;> decide
  have noFraction : fractionDigits (c :: cs) = ([], c :: cs) := by
    rcases stop with rfl | rfl <;> rfl
  have noExponent : exponent? (c :: cs) = none := by
    rcases stop with rfl | rfl <;> rfl
  have long : Text.maxDecimalDigits < (Nat.toDigits 10 n).length ↔ ¬ Text.IsShort n := by
    rw [← Nat.not_le, Text.length_toDigits_le]
  simp only [readMagnitude, wholeDigits_toDigits n noDigit, noFraction, noExponent, List.isEmpty_nil, Bool.not_true,
    Bool.false_eq_true, if_false, long, ofDigits, Text.Numeral.value_toDigits (by decide : 1 < 10) (by decide)]
  split <;> simp_all

theorem readNumber_toString (value : Int) {rest : Rest} (ends : EndsNumber rest) :
    readNumber ((toString value).toList ++ rest) =
      if Text.IsShort value.natAbs then .ok (.integer value, rest)
      else .error (.numeral (.tooLong (Nat.toDigits 10 value.natAbs).length)) := by
  rw [Text.toList_toString]
  split
  · have same : -(value.natAbs : Int) = value := by omega
    rw [List.cons_append, readNumber, readMagnitude_toDigits true _ ends, if_pos rfl, same]
  · have same : (value.natAbs : Int) = value := by omega
    rw [readNumber, readMagnitude_toDigits false _ ends, if_neg Bool.false_ne_true, same]
    intro cs minus
    rcases Text.toDigits_cases value.natAbs with ⟨-, zero⟩ | ⟨-, d, ds, split, -, digits⟩
    · rw [zero] at minus
      cases minus
    · rw [split] at minus
      cases minus
      exact absurd (digits _ List.mem_cons_self) (by decide)

theorem readValue_of_digit (limit : Nat) {d : Char} (digit : d.isDigit = true) (cs : Rest) :
    readValue (limit + 1) (d :: cs) = readNumber (d :: cs) ∧
      readValue (limit + 1) ('-' :: d :: cs) = readNumber ('-' :: d :: cs) := by
  have other : ∀ c ∈ ['"', '\x7b', '[', 'n', 't', 'f', 'N', 'I', '-'], d ≠ c ∧ c ≠ d := by
    intro c member
    have different : d ≠ c := by
      rintro rfl
      simp only [List.mem_cons, List.not_mem_nil, or_false] at member
      rcases member with rfl | rfl | rfl | rfl | rfl | rfl | rfl | rfl | rfl <;> cases digit
    exact ⟨different, different.symm⟩
  simp only [List.forall_mem_cons] at other
  constructor
  · rw [readValue] <;> simp_all [words, dropWord?]
  · rw [readValue] <;> simp_all [words, dropWord?]

theorem readValue_toString (limit : Nat) (value : Int) {rest : Rest} (ends : EndsNumber rest) :
    readValue (limit + 1) ((toString value).toList ++ rest) =
      if Text.IsShort value.natAbs then .ok (.integer value, rest)
      else .error (.numeral (.tooLong (Nat.toDigits 10 value.natAbs).length)) := by
  rw [← readNumber_toString value ends, Text.toList_toString]
  cases split : Nat.toDigits 10 value.natAbs with
  | nil => exact absurd split Nat.toDigits_ne_nil
  | cons d ds =>
    have digit : d.isDigit = true := Nat.isDigit_of_mem_toDigits (by decide) (by decide) (split ▸ List.mem_cons_self)
    obtain ⟨plain, signed⟩ := readValue_of_digit limit digit (ds ++ rest)
    by_cases negative : value < 0
    · simpa only [if_pos negative, List.cons_append] using signed
    · simpa only [if_neg negative, List.cons_append] using plain

theorem readValue_writeString (limit : Nat) (s : String) (rest : Rest) :
    readValue (limit + 1) ((writeString s).toList ++ rest) = .ok (.string s, rest) := by
  obtain ⟨body, text, read⟩ := readString_writeString s rest
  rw [text, readValue, read]
  rfl

theorem skipBlanks_of_not_blank {cs : Rest} (plain : ∀ c ∈ cs.head?, isBlank c = false) : skipBlanks cs = cs := by
  cases cs with
  | nil => rfl
  | cons c cs =>
    have := plain c rfl
    simp [skipBlanks, this]

def readFurther (limit : Nat) (members : List (String × Json)) (rest : Rest) : Except JsonError (Json × Rest) :=
  match skipBlanks rest with
  | ',' :: rest => readMembers limit members (skipBlanks rest)
  | '\x7d' :: rest => .ok (.object members, rest)
  | _ => .error .malformed

theorem readMembers_member (limit : Nat) (done : List (String × Json)) (key : String) {value : Rest}
    (plain : skipBlanks value = value) :
    readMembers (limit + 1) done ((writeString key).toList ++ ':' :: ' ' :: value) =
      (readValue limit value).bind fun (j, rest) => readFurther limit (putMember done key j) rest := by
  obtain ⟨body, text, read⟩ := readString_writeString key (':' :: ' ' :: value)
  have colon : skipBlanks (':' :: ' ' :: value) = ':' :: ' ' :: value := rfl
  have blank : skipBlanks (' ' :: value) = value := plain
  rw [text, readMembers, read]
  simp only [Bind.bind, Except.bind, colon, blank]
  rfl

end Json

namespace EntryFile

open Json

def memberChars (entry : EntryPoint × Int) : List Char :=
  (writeString entry.1.toText).toList ++ ':' :: ' ' :: (toString entry.2).toList

theorem toList_writeEntry (entry : EntryPoint × Int) :
    (writeEntry entry).toList = '\n' :: ' ' :: ' ' :: ' ' :: ' ' :: memberChars entry := by
  simp [writeEntry, memberChars]

theorem skipBlanks_memberChars (entry : EntryPoint × Int) (rest : Rest) :
    skipBlanks (memberChars entry ++ rest) = memberChars entry ++ rest := by
  simp [memberChars, writeString, skipBlanks, show Json.isBlank '"' = false from rfl]

theorem isBlank_of_isDigit {c : Char} (digit : c.isDigit = true) : Json.isBlank c = false := by
  simp only [Json.isBlank, Bool.or_eq_false_iff, beq_eq_false_iff_ne]
  refine ⟨⟨⟨?_, ?_⟩, ?_⟩, ?_⟩ <;>
  · rintro rfl
    cases digit

theorem skipBlanks_toString (value : Int) (rest : Rest) :
    skipBlanks ((toString value).toList ++ rest) = (toString value).toList ++ rest := by
  refine skipBlanks_of_not_blank fun c first => ?_
  rw [Text.toList_toString] at first
  cases split : Nat.toDigits 10 value.natAbs with
  | nil => exact absurd split Nat.toDigits_ne_nil
  | cons d ds =>
    rw [split] at first
    split at first
    · cases first
      rfl
    · cases first
      exact isBlank_of_isDigit (Nat.isDigit_of_mem_toDigits (by decide) (by decide) (split ▸ List.mem_cons_self))

theorem readMembers_memberChars (limit : Nat) (done : List (String × Json)) (entry : EntryPoint × Int) {rest : Rest}
    (ends : EndsNumber rest) : readMembers (limit + 2) done (memberChars entry ++ rest) =
      if Text.IsShort entry.2.natAbs then
        readFurther (limit + 1) (putMember done entry.1.toText (.integer entry.2)) rest
      else .error (.numeral (.tooLong (Nat.toDigits 10 entry.2.natAbs).length)) := by
  rw [memberChars, List.append_assoc, List.cons_append, List.cons_append,
    readMembers_member _ _ _ (skipBlanks_toString _ _), readValue_toString _ _ ends]
  by_cases short : Text.IsShort entry.2.natAbs
  · simp only [if_pos short, Except.bind]
  · simp only [if_neg short, Except.bind]

def furtherChars (entries : EntryTable) (rest : Rest) : Rest :=
  entries.flatMap (fun entry => ',' :: (writeEntry entry).toList) ++ '\n' :: ' ' :: ' ' :: '\x7d' :: rest

theorem endsNumber_furtherChars (entries : EntryTable) (rest : Rest) : EndsNumber (furtherChars entries rest) := by
  cases entries with
  | nil => exact .inr rfl
  | cons entry entries => exact .inl rfl

def members (done : List (String × Json)) (entries : EntryTable) : List (String × Json) :=
  entries.foldl (fun done entry => putMember done entry.1.toText (.integer entry.2)) done

theorem readFurther_cons (limit : Nat) (done : List (String × Json)) (entry : EntryPoint × Int) (entries : EntryTable)
    (rest : Rest) : readFurther limit done (furtherChars (entry :: entries) rest) =
      readMembers limit done (memberChars entry ++ furtherChars entries rest) := by
  have text : furtherChars (entry :: entries) rest =
      ',' :: '\n' :: ' ' :: ' ' :: ' ' :: ' ' :: (memberChars entry ++ furtherChars entries rest) := by
    simp only [furtherChars, List.flatMap_cons, toList_writeEntry, List.cons_append, List.append_assoc]
  have comma cs : skipBlanks (',' :: cs) = ',' :: cs := rfl
  have indented cs : skipBlanks ('\n' :: ' ' :: ' ' :: ' ' :: ' ' :: cs) = skipBlanks cs := rfl
  rw [text, readFurther, comma]
  simp only [indented, skipBlanks_memberChars]

theorem readFurther_entries (entries : EntryTable) {limit : Nat} (enough : entries.length < limit)
    (done : List (String × Json)) (rest : Rest) :
    ((∀ entry ∈ entries, Text.IsShort entry.2.natAbs) →
      readFurther limit done (furtherChars entries rest) = .ok (.object (members done entries), rest)) ∧
    ((∃ entry ∈ entries, ¬ Text.IsShort entry.2.natAbs) →
      ∃ e, readFurther limit done (furtherChars entries rest) = .error e) := by
  induction entries generalizing limit done with
  | nil => exact ⟨fun _ => rfl, by simp⟩
  | cons entry entries ih =>
    rw [List.length_cons] at enough
    obtain ⟨limit, rfl⟩ : ∃ l, limit = l + 2 := ⟨limit - 2, by omega⟩
    rw [readFurther_cons, readMembers_memberChars _ _ _ (endsNumber_furtherChars ..)]
    obtain ⟨short, long⟩ := ih (show entries.length < limit + 1 by omega)
      (putMember done entry.1.toText (.integer entry.2))
    constructor
    · intro all
      obtain ⟨here, others⟩ := List.forall_mem_cons.1 all
      rw [if_pos here, short others]
      rfl
    · rintro ⟨x, member, tooLong⟩
      by_cases here : Text.IsShort entry.2.natAbs
      · rw [if_pos here]
        refine long ⟨x, (List.mem_cons.1 member).resolve_left ?_, tooLong⟩
        rintro rfl
        exact tooLong here
      · rw [if_neg here]
        exact ⟨_, rfl⟩

theorem intercalate_comma (first : List Char) (others : List (List Char)) :
    [','].intercalate (first :: others) = first ++ others.flatMap (',' :: ·) := by
  induction others generalizing first with
  | nil => simp
  | cons next others ih => simp [List.intercalate_cons_cons, ih]

theorem toList_writeEntries (entry : EntryPoint × Int) (entries : EntryTable) (rest : Rest) :
    (writeEntries (entry :: entries)).toList ++ rest =
      '\x7b' :: '\n' :: ' ' :: ' ' :: ' ' :: ' ' :: (memberChars entry ++ furtherChars entries rest) := by
  have list : (",".intercalate ((entry :: entries).map writeEntry)).toList =
      (writeEntry entry).toList ++ entries.flatMap fun entry => ',' :: (writeEntry entry).toList := by
    rw [String.toList_intercalate, List.map_cons, List.map_cons]
    exact (intercalate_comma _ _).trans (by simp only [List.map_map, List.flatMap_map, Function.comp_apply])
  simp only [writeEntries, List.isEmpty_cons, Bool.false_eq_true, if_false, String.toList_append, list]
  simp [toList_writeEntry, furtherChars]

theorem length_le_furtherChars (entries : EntryTable) (rest : Rest) :
    entries.length ≤ (furtherChars entries rest).length := by
  induction entries with
  | nil => exact Nat.zero_le _
  | cons entry entries ih =>
    simp only [furtherChars, List.flatMap_cons, List.append_assoc, List.length_append, List.length_cons] at ih ⊢
    omega

theorem length_le_writeEntries (entries : EntryTable) : entries.length ≤ (writeEntries entries).toList.length := by
  cases entries with
  | nil => exact Nat.zero_le _
  | cons entry entries =>
    have text := congrArg List.length (toList_writeEntries entry entries [])
    have further := length_le_furtherChars entries []
    simp only [List.append_nil, List.length_cons, List.length_append] at text ⊢
    omega

theorem readValue_writeEntries (entries : EntryTable) {limit : Nat} (enough : entries.length < limit) (rest : Rest) :
    ((∀ entry ∈ entries, Text.IsShort entry.2.natAbs) →
      readValue (limit + 1) ((writeEntries entries).toList ++ rest) = .ok (.object (members [] entries), rest)) ∧
    ((∃ entry ∈ entries, ¬ Text.IsShort entry.2.natAbs) →
      ∃ e, readValue (limit + 1) ((writeEntries entries).toList ++ rest) = .error e) := by
  cases entries with
  | nil => exact ⟨fun _ => rfl, by simp⟩
  | cons entry entries =>
    have indented cs : skipBlanks ('\n' :: ' ' :: ' ' :: ' ' :: ' ' :: cs) = skipBlanks cs := rfl
    obtain ⟨body, first⟩ : ∃ body, memberChars entry ++ furtherChars entries rest = '"' :: body := by
      simp [memberChars, writeString]
    have opened : readValue (limit + 1) ((writeEntries (entry :: entries)).toList ++ rest) =
        readFurther limit [] (furtherChars (entry :: entries) rest) := by
      rw [readFurther_cons, toList_writeEntries, readValue, indented, skipBlanks_memberChars, first]
      rfl
    rw [opened]
    exact readFurther_entries _ enough [] rest

theorem skipBlanks_writeString (s : String) (rest : Rest) :
    skipBlanks ((writeString s).toList ++ rest) = (writeString s).toList ++ rest := by
  simp [writeString, skipBlanks, show Json.isBlank '"' = false from rfl]

theorem toList_toText (f : EntryFile) : f.toText.toList = '\x7b' :: '\n' :: ' ' :: ' ' ::
    ((writeString targetKey).toList ++ ':' :: ' ' :: ((writeString f.target.toText).toList ++
      ',' :: '\n' :: ' ' :: ' ' :: ((writeString entriesKey).toList ++ ':' :: ' ' ::
        ((writeEntries f.sortedEntries).toList ++ ['\n', '\x7d', '\n'])))) := by
  simp [toText]

theorem readValue_toText (f : EntryFile) : ∃ limit, f.entries.length < limit ∧
    readValue (f.toText.toList.length + 1) (skipBlanks f.toText.toList) =
      (readValue (limit + 1) ((writeEntries f.sortedEntries).toList ++ ['\n', '\x7d', '\n'])).bind fun (j, rest) =>
        readFurther (limit + 1) [(targetKey, .string f.target.toText), (entriesKey, j)] rest := by
  have count : f.sortedEntries.length = f.entries.length := (List.mergeSort_perm ..).length_eq
  have written := length_le_writeEntries f.sortedEntries
  obtain ⟨limit, size⟩ : ∃ limit, f.toText.toList.length = limit + 3 ∧ f.entries.length < limit := by
    refine ⟨f.toText.toList.length - 3, ?_⟩
    rw [toList_toText]
    simp only [List.length_cons, List.length_append]
    omega
  have brace cs : skipBlanks ('\x7b' :: cs) = '\x7b' :: cs := rfl
  have comma cs : skipBlanks (',' :: cs) = ',' :: cs := rfl
  have indented cs : skipBlanks ('\n' :: ' ' :: ' ' :: cs) = skipBlanks cs := rfl
  refine ⟨limit, size.2, ?_⟩
  have plain : skipBlanks ((writeEntries f.sortedEntries).toList ++ ['\n', '\x7d', '\n']) =
      (writeEntries f.sortedEntries).toList ++ ['\n', '\x7d', '\n'] := by
    cases f.sortedEntries with
    | nil => rfl
    | cons entry entries =>
      rw [toList_writeEntries]
      rfl
  have object cs : readValue (limit + 4) ('\x7b' :: '\n' :: ' ' :: ' ' :: ((writeString targetKey).toList ++ cs)) =
      readMembers (limit + 3) [] ((writeString targetKey).toList ++ cs) := by
    rw [readValue, indented, skipBlanks_writeString]
    rfl
  have further members cs : readFurther (limit + 2) members
      (',' :: '\n' :: ' ' :: ' ' :: ((writeString entriesKey).toList ++ cs)) =
        readMembers (limit + 2) members ((writeString entriesKey).toList ++ cs) := by
    rw [readFurther, comma]
    simp only [indented, skipBlanks_writeString]
  rw [size.1, toList_toText, brace, object, readMembers_member _ _ _ (skipBlanks_writeString ..),
    readValue_writeString, Except.bind]
  dsimp only
  rw [further, readMembers_member _ _ _ plain]
  rfl

theorem members_eq {done : List (String × Json)} {entries : EntryTable}
    (distinct : (done.map Prod.fst ++ entries.map (·.1.toText)).Nodup) :
    members done entries = done ++ entries.map fun entry => (entry.1.toText, .integer entry.2) := by
  induction entries generalizing done with
  | nil => simp [members]
  | cons entry entries ih =>
    have fresh : done.any (·.1 == entry.1.toText) = false := by
      rw [List.any_eq_false]
      intro m member same
      rw [List.nodup_append] at distinct
      exact distinct.2.2 m.1 (List.mem_map_of_mem member) entry.1.toText (by simp) (by simpa using same)
    have put : putMember done entry.1.toText (.integer entry.2) = done ++ [(entry.1.toText, .integer entry.2)] := by
      simp only [putMember, fresh, Bool.false_eq_true, if_false]
    rw [members, List.foldl_cons, put]
    exact (ih (by simpa using distinct)).trans (by simp)

theorem json_toText (f : EntryFile) (distinct : (f.entries.map (·.1.toText)).Nodup) :
    ((∀ entry ∈ f.entries, Text.IsShort entry.2.natAbs) → Json.parse f.toText = .ok (.object
      [(targetKey, .string f.target.toText),
        (entriesKey, .object (f.sortedEntries.map fun entry => (entry.1.toText, .integer entry.2)))])) ∧
    ((∃ entry ∈ f.entries, ¬ Text.IsShort entry.2.natAbs) → ∃ e, Json.parse f.toText = .error e) := by
  have perm : f.sortedEntries.Perm f.entries := List.mergeSort_perm ..
  obtain ⟨limit, enough, read⟩ := readValue_toText f
  rw [← perm.length_eq] at enough
  obtain ⟨short, long⟩ := readValue_writeEntries f.sortedEntries enough ['\n', '\x7d', '\n']
  have sorted : (([] : List (String × Json)).map Prod.fst ++ f.sortedEntries.map (·.1.toText)).Nodup :=
    (perm.map _).nodup_iff.2 distinct
  simp only [← perm.mem_iff]
  constructor
  · intro all
    rw [Json.parse, read, short all, members_eq sorted]
    rfl
  · intro some
    obtain ⟨e, failed⟩ := long some
    rw [Json.parse, read, failed]
    exact ⟨e, rfl⟩

end EntryFile

end EventScript
