import EventScript.Proofs.TokenTiles

namespace EventScript

def Gap.shift (distance : Nat) : Gap → Gap
  | .blockComment opened => .blockComment (opened + distance)
  | gap => gap

theorem Gap.shift_blank (distance : Nat) : Gap.blank.shift distance = .blank := rfl

def ScanError.relocate (f : Nat → Nat) : ScanError → ScanError
  | .lex e => .lex { e with place := f e.place }
  | .numeral e => .numeral e

theorem skipGap_shift (distance : Nat) (gap : Gap) (cs : List Char) (place : Nat) :
    skipGap (gap.shift distance) cs (place + distance) =
      ((skipGap gap cs place).map fun left => (left.1, left.2 + distance)).mapError (· + distance) := by
  fun_induction skipGap gap cs place with
  | case1 | case4 | case7 => rfl
  | case2 opened cs place ih =>
    rw [← ih, Nat.add_right_comm]
    rfl
  | case3 opened c cs place unclosed ih =>
    rw [← ih, Nat.add_right_comm, Gap.shift, skipGap.eq_3 _ _ _ _ unclosed]
  | case5 c cs place isEnd =>
    simp only [Gap.shift, skipGap, isEnd, if_true]
    rfl
  | case6 c cs place notEnd ih =>
    rw [← ih, Nat.add_right_comm]
    simp only [Gap.shift, skipGap, notEnd]
    rfl
  | case8 cs place ih =>
    rw [← ih, Nat.add_right_comm]
    rfl
  | case9 c cs place opens blank ih =>
    rw [← ih, Nat.add_right_comm, Gap.shift_blank, skipGap.eq_8 _ _ _ opens, if_pos blank]
  | case10 c cs place opens notBlank comment ih =>
    rw [← ih, Nat.add_right_comm, Gap.shift_blank, skipGap.eq_8 _ _ _ opens, if_neg notBlank, if_pos comment]
    rfl
  | case11 c cs place opens notBlank noComment =>
    rw [Gap.shift_blank, skipGap.eq_8 _ _ _ opens, if_neg notBlank, if_neg noComment]
    rfl

namespace TokenStream

def relocate (f : Nat → Nat) (s : TokenStream) : TokenStream :=
  ⟨s.tokens.map (Token.relocate f), s.fault.map (ScanError.relocate f)⟩

theorem scanFrom_shift (fuel : Nat) (cs : List Char) (place distance : Nat) :
    scanFrom fuel cs (place + distance) = (scanFrom fuel cs place).relocate (· + distance) := by
  induction fuel generalizing cs place with
  | zero => rfl
  | succ fuel ih =>
    have moved := skipGap_shift distance .blank cs place
    rw [Gap.shift_blank] at moved
    rw [scanFrom, scanFrom, moved]
    cases skipGap .blank cs place with
    | error opened => rfl
    | ok skipped =>
      obtain ⟨rest, start⟩ := skipped
      cases rest with
      | nil => rfl
      | cons c rest =>
        dsimp only [Except.map, Except.mapError]
        cases Lexeme.read c rest with
        | error fault =>
          cases fault with
          | char distance' cause => simp [relocate, ScanError.relocate, Nat.add_right_comm]
          | numeral e => rfl
        | ok token =>
          dsimp only
          rw [Nat.add_right_comm, ih]
          rfl

theorem scanFrom_fuel {fuel fuel' : Nat} {cs : List Char} (enough : cs.length < fuel) (enough' : cs.length < fuel')
    (place : Nat) : scanFrom fuel cs place = scanFrom fuel' cs place := by
  induction fuel generalizing fuel' cs place with
  | zero => cases enough
  | succ fuel ih =>
    cases fuel' with
    | zero => cases enough'
    | succ fuel' =>
      rw [scanFrom, scanFrom]
      cases skipped : skipGap .blank cs place with
      | error opened => rfl
      | ok left =>
        obtain ⟨rest, start⟩ := left
        obtain ⟨before, rfl, rfl⟩ := skipGap_eq_ok skipped
        cases rest with
        | nil => rfl
        | cons c rest =>
          dsimp only
          have answers := Lexeme.read_answers c rest
          generalize Lexeme.read c rest = reading at answers
          cases answers with
          | char | numeral => rfl
          | @ok lexeme size _ positive _ =>
            -- The token takes a character at least, so what is left needs less.
            have shorter : ((c :: rest).drop size).length < (before ++ c :: rest).length := by
              rw [List.length_drop, List.length_append, List.length_cons]
              omega
            dsimp only
            rw [@ih fuel' _ (by omega) (by omega)]

end TokenStream

namespace Text

theorem toList_quote (bytes : Bytes) : (quote bytes).toList = '"' :: (bytes.flatMap quoteByte ++ ['"']) := by
  rw [quote, String.toList_ofList, quoteChars, List.cons_append]

theorem newline_notMem_quoteByte (b : UInt8) : '\n' ∉ quoteByte b := by
  have table : ∀ n < 256, '\n' ∉ quoteByte (UInt8.ofNat n) := by decide +kernel
  have here := table b.toNat b.toNat_lt
  rwa [UInt8.ofNat_toNat] at here

theorem newline_notMem_quote (bytes : Bytes) : '\n' ∉ (quote bytes).toList := by
  rw [toList_quote, List.mem_cons, List.mem_append, List.mem_flatMap]
  intro inside
  rcases inside with first | ⟨b, -, inByte⟩ | last
  · simp at first
  · exact newline_notMem_quoteByte b inByte
  · simp at last

end Text

namespace TokenStream

/-- Bytes that are quoted before any text are scanned to one string token, whose value they are and
whose span is what was quoted. What follows is scanned as it would be alone. No literal holds a line
end. -/
theorem scan_quote_append (bytes : Bytes) (rest : String) :
    scan (Text.quote bytes ++ rest) = cons ⟨.string bytes, ⟨0, (Text.quote bytes).length⟩⟩
        ((scan rest).relocate (· + (Text.quote bytes).length)) ∧
      '\n' ∉ (Text.quote bytes).toList := by
  refine ⟨?_, Text.newline_notMem_quote bytes⟩
  have length : (Text.quote bytes).length = (bytes.flatMap Text.quoteByte).length + 2 := by
    rw [← String.length_toList, Text.toList_quote]
    simp
  have whole : (Text.quote bytes ++ rest).toList =
      '"' :: (bytes.flatMap Text.quoteByte ++ '"' :: rest.toList) := by
    rw [String.toList_append, Text.toList_quote]
    simp
  have left : ((Text.quote bytes ++ rest).toList).drop (Text.quote bytes).length = rest.toList := by
    rw [String.toList_append, ← String.length_toList, List.drop_left]
  have read : Lexeme.read '"' (bytes.flatMap Text.quoteByte ++ '"' :: rest.toList) =
      .ok (.string bytes, (Text.quote bytes).length) := by
    rw [Lexeme.read_string, length]
  have first : scan (Text.quote bytes ++ rest) = cons ⟨.string bytes, ⟨0, (Text.quote bytes).length⟩⟩
      (scanFrom (Text.quote bytes ++ rest).length rest.toList (0 + (Text.quote bytes).length)) := by
    rw [whole] at left
    rw [scan, whole, scanFrom, Scans.skipGap_token (by decide)]
    simp only [read, left, Nat.zero_add]
  have alone : scanFrom (Text.quote bytes ++ rest).length rest.toList 0 = scan rest := by
    apply scanFrom_fuel
    · rw [String.length_append, String.length_toList]
      omega
    · rw [String.length_toList]
      omega
  rw [first, scanFrom_shift, alone]

end TokenStream

end EventScript
