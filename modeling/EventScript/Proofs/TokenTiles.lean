import EventScript.Proofs.TokenContext

namespace EventScript

open Lexeme (Agrees SameHead)

namespace Span

/-- The characters under the span. -/
def slice (s : Span) (text : String) : String := String.ofList ((text.toList.drop s.start).take (s.stop - s.start))

def Holds (s : Span) (place : Nat) : Prop := s.start ≤ place ∧ place < s.stop

def relocate (f : Nat → Nat) (s : Span) : Span := ⟨f s.start, f s.stop⟩

theorem toList_slice {before middle after : List Char} {text : String}
    (split : text.toList = before ++ (middle ++ after)) {s : Span} (start : s.start = before.length)
    (stop : s.stop = before.length + middle.length) : (s.slice text).toList = middle := by
  rw [slice, String.toList_ofList, split, start, stop, List.drop_left, Nat.add_sub_cancel_left, List.take_left]

end Span

namespace Token

/-- The token at another place. -/
def relocate (f : Nat → Nat) (t : Token) : Token := ⟨t.lexeme, t.span.relocate f⟩

def ending (place : Nat) : Token := ⟨.endOfInput, ⟨place, place⟩⟩

end Token

/-- What may stand between tokens, before a character or the end of the text: a blank, a comment up to the end of its
line, or a comment up to the first mark that closes it. -/
inductive Separator (next : Option Char) : List Char → Prop
  | blank {c : Char} : isBlank c = true → Separator next [c]
  | lineComment {body : List Char} : '\n' ∉ body → (∀ c ∈ next, c = '\n') → Separator next (';' :: body)
  | blockComment {body : List Char} : ¬ ['*', '/'] <:+: body ++ ['*'] →
      Separator next ('/' :: '*' :: (body ++ ['*', '/']))

/-- Separators one after the other. -/
inductive IsGap (next : Option Char) : List Char → Prop
  | nil : IsGap next []
  | cons {piece gap : List Char} : Separator (gap.head?.or next) piece → IsGap next gap → IsGap next (piece ++ gap)

def Gap.Skips (next : Option Char) : Gap → List Char → Prop
  | .blank, skipped => IsGap next skipped
  | .lineComment, skipped => '\n' ∉ skipped ∧ ∀ c ∈ next, c = '\n'
  | .blockComment _, skipped => ∃ body gap, skipped = body ++ '*' :: '/' :: gap ∧
      ¬ ['*', '/'] <:+: body ++ ['*'] ∧ IsGap next gap

theorem skips_of_skipGap {gap : Gap} {cs after : List Char} {place place' : Nat}
    (skipped : skipGap gap cs place = .ok (after, place')) :
    ∃ before, cs = before ++ after ∧ place' = place + before.length ∧ gap.Skips after.head? before := by
  fun_induction skipGap gap cs place with
  | case1 => cases skipped
  | case2 _ cs place ih =>
    obtain ⟨before, rfl, rfl, isGap⟩ := ih skipped
    refine ⟨'*' :: '/' :: before, rfl, by simp only [List.length_cons]; omega, [], before, rfl, by decide, isGap⟩
  | case3 _ c cs place notClose ih =>
    obtain ⟨before, rfl, rfl, body, gap, rfl, notIn, isGap⟩ := ih skipped
    refine ⟨c :: (body ++ '*' :: '/' :: gap), rfl, by simp only [List.length_cons]; omega, c :: body, gap, rfl, ?_,
      isGap⟩
    -- The first character could only close the comment together with the one after it.
    rw [List.cons_append, List.infix_cons_iff, not_or]
    refine ⟨fun closes => ?_, notIn⟩
    obtain ⟨rfl, slash⟩ := List.cons_prefix_cons.1 closes
    cases body with
    | nil => exact absurd slash (by decide)
    | cons d body =>
      obtain ⟨rfl, -⟩ := List.cons_prefix_cons.1 slash
      exact notClose _ rfl rfl
  | case4 =>
    cases skipped
    exact ⟨[], rfl, rfl, by simp, by simp⟩
  | case5 c cs place isNewline =>
    cases skipped
    refine ⟨[], rfl, rfl, by simp, ?_⟩
    rintro d ⟨⟩
    exact eq_of_beq isNewline
  | case6 c cs place notNewline ih =>
    obtain ⟨before, rfl, rfl, noNewline, ends⟩ := ih skipped
    refine ⟨c :: before, rfl, by simp only [List.length_cons]; omega, ?_, ends⟩
    rw [List.mem_cons, not_or]
    exact ⟨fun same => notNewline (beq_iff_eq.2 same.symm), noNewline⟩
  | case7 =>
    cases skipped
    exact ⟨[], rfl, rfl, .nil⟩
  | case8 cs place ih =>
    obtain ⟨before, rfl, rfl, body, gap, rfl, notIn, isGap⟩ := ih skipped
    refine ⟨'/' :: '*' :: (body ++ '*' :: '/' :: gap), rfl, by simp only [List.length_cons]; omega, ?_⟩
    have comment : IsGap after.head? ('/' :: '*' :: (body ++ ['*', '/']) ++ gap) := .cons (.blockComment notIn) isGap
    simpa [Gap.Skips] using comment
  | case9 c cs place _ blank ih =>
    obtain ⟨before, rfl, rfl, isGap⟩ := ih skipped
    exact ⟨c :: before, rfl, by simp only [List.length_cons]; omega, .cons (.blank blank) isGap⟩
  | case10 c cs place _ _ semicolon ih =>
    obtain ⟨before, rfl, rfl, noNewline, ends⟩ := ih skipped
    obtain rfl := eq_of_beq semicolon
    refine ⟨';' :: before, rfl, by simp only [List.length_cons]; omega, ?_⟩
    have comment : IsGap after.head? (';' :: before ++ []) := .cons (.lineComment noNewline ends) .nil
    simpa [Gap.Skips] using comment
  | case11 =>
    cases skipped
    exact ⟨[], rfl, rfl, .nil⟩

theorem skipGap_lineComment {body after : List Char} (noNewline : '\n' ∉ body) (ends : ∀ c ∈ after.head?, c = '\n')
    (place : Nat) : skipGap .lineComment (body ++ after) place = .ok (after, place + body.length) := by
  induction body generalizing place with
  | nil =>
    cases after with
    | nil => rfl
    | cons c after =>
      obtain rfl := ends c rfl
      rfl
  | cons c body ih =>
    rw [List.mem_cons, not_or] at noNewline
    rw [List.cons_append, skipGap, if_neg (by simpa using Ne.symm noNewline.1), ih noNewline.2, List.length_cons,
      Nat.add_assoc, Nat.add_comm 1]

theorem skipGap_blockComment {body : List Char} (notIn : ¬ ['*', '/'] <:+: body ++ ['*']) (after : List Char)
    (opened place : Nat) : skipGap (.blockComment opened) (body ++ '*' :: '/' :: after) place =
      skipGap .blank after (place + body.length + 2) := by
  induction body generalizing place with
  | nil => rfl
  | cons c body ih =>
    rw [List.cons_append, List.infix_cons_iff, not_or] at notIn
    have notClose : ∀ cs, c = '*' → body ++ '*' :: '/' :: after = '/' :: cs → False := by
      rintro cs rfl next
      cases body with
      | nil => cases next
      | cons d body =>
        cases next
        exact notIn.1 (by simp)
    rw [List.cons_append, skipGap.eq_3 _ _ _ _ notClose, ih notIn.2, List.length_cons]
    congr 1
    omega

theorem IsGap.head_ne_newline {next : Option Char} {gap : List Char} (isGap : IsGap next gap) :
    gap.head? ≠ some '\n' := by
  intro newline
  cases isGap with
  | nil => cases newline
  | cons separator _ =>
    cases separator with
    | blank blank =>
      cases newline
      cases blank
    | lineComment => cases newline
    | blockComment => cases newline

theorem skipGap_of_isGap {before after : List Char} (isGap : IsGap after.head? before)
    (starts : ∀ c ∈ after.head?, startsGap c = false) (place : Nat) :
    skipGap .blank (before ++ after) place = .ok (after, place + before.length) := by
  induction isGap generalizing place with
  | nil =>
    cases after with
    | nil => rfl
    | cons c after => exact Scans.skipGap_token (starts c rfl) after place
  | @cons piece gap separator isGap ih =>
    rw [List.append_assoc, List.length_append]
    cases separator with
    | blank blank =>
      rw [List.singleton_append, Scans.skipGap_blank blank, ih]
      simp [Nat.add_assoc]
    | @lineComment body noNewline ends =>
      -- Nothing of the gap follows the comment, since a gap does not start with a newline.
      obtain rfl : gap = [] := by
        cases gap with
        | nil => rfl
        | cons c gap => exact absurd (congrArg some (ends c rfl)) isGap.head_ne_newline
      have opened : skipGap .blank (';' :: body ++ ([] ++ after)) place =
          skipGap .lineComment (body ++ after) (place + 1) := by
        rw [List.cons_append, List.nil_append, skipGap.eq_8 _ _ _ (by simp)]
        rfl
      rw [opened, skipGap_lineComment noNewline (by simpa using ends), List.length_cons, List.length_nil]
      congr 2
      omega
    | @blockComment body notIn =>
      have opened : skipGap .blank ('/' :: '*' :: (body ++ ['*', '/']) ++ (gap ++ after)) place =
          skipGap (.blockComment place) (body ++ '*' :: '/' :: (gap ++ after)) (place + 2) := by
        simp [skipGap]
      rw [opened, skipGap_blockComment notIn, ih]
      simp only [List.length_cons, List.length_append, List.length_nil]
      congr 2
      omega

theorem IsGap.exists_separator {next : Option Char} {gap : List Char} (isGap : IsGap next gap) {i : Nat}
    (inside : i < gap.length) : ∃ before piece after, gap = before ++ (piece ++ after) ∧ before.length ≤ i ∧
      i < before.length + piece.length ∧ Separator (after.head?.or next) piece := by
  induction isGap generalizing i with
  | nil => cases inside
  | @cons piece gap separator _ ih =>
    rw [List.length_append] at inside
    by_cases here : i < piece.length
    · exact ⟨[], piece, gap, rfl, Nat.zero_le i, by simpa using here, separator⟩
    · obtain ⟨before, piece', after, rfl, low, high, separator'⟩ := ih (i := i - piece.length) (by omega)
      refine ⟨piece ++ before, piece', after, by simp, ?_, ?_, separator'⟩
      · rw [List.length_append]
        omega
      · rw [List.length_append]
        omega

/-- The characters from `place` on are gaps and the tokens between them. -/
inductive Tiled : List Char → Nat → List Token → Prop
  | done {gap : List Char} {place : Nat} : IsGap none gap → Tiled gap place []
  | token {gap text rest : List Char} {c : Char} {place : Nat} {lexeme : Lexeme} {ts : List Token} :
      IsGap (some c) gap → Lexeme.read c (text ++ rest) = .ok (lexeme, text.length + 1) →
      Tiled rest (place + gap.length + (text.length + 1)) ts →
        Tiled (gap ++ c :: (text ++ rest)) place
          (⟨lexeme, ⟨place + gap.length, place + gap.length + (text.length + 1)⟩⟩ :: ts)

namespace Tiled

variable {cs : List Char} {place : Nat} {ts : List Token}

theorem of_scanFrom {fuel : Nat} (enough : cs.length < fuel)
    (complete : (TokenStream.scanFrom fuel cs place).fault = none) :
    ∃ ts, TokenStream.scanFrom fuel cs place = ⟨ts ++ [.ending (place + cs.length)], none⟩ ∧ Tiled cs place ts := by
  induction fuel generalizing cs place with
  | zero => cases enough
  | succ fuel ih =>
    rw [TokenStream.scanFrom] at complete ⊢
    split at complete
    · cases complete
    · rename_i start skipped
      obtain ⟨before, rfl, rfl, isGap⟩ := skips_of_skipGap skipped
      exact ⟨[], by simp [Token.ending], by simpa using done isGap⟩
    · rename_i c rest start skipped
      obtain ⟨before, rfl, rfl, isGap⟩ := skips_of_skipGap skipped
      split at complete
      · cases complete
      · cases complete
      · rename_i lexeme size read
        obtain ⟨text, rest, rfl, rfl, -⟩ := Lexeme.localFrom c rest lexeme size read
        have dropped : (c :: (text ++ rest)).drop (text.length + 1) = rest := by simp
        rw [dropped] at complete
        have shorter : rest.length < fuel := by
          simp only [List.length_append, List.length_cons] at enough
          omega
        obtain ⟨ts, scanned, tiled⟩ := ih shorter complete
        refine ⟨_ :: ts, ?_, token isGap read tiled⟩
        have ends : place + before.length + (text.length + 1) + rest.length =
            place + (before ++ c :: (text ++ rest)).length := by
          simp only [List.length_append, List.length_cons]
          omega
        rw [dropped, scanned, ends]
        rfl

theorem scanFrom_eq (tiled : Tiled cs place ts) {fuel : Nat} (enough : cs.length < fuel) :
    TokenStream.scanFrom fuel cs place = ⟨ts ++ [.ending (place + cs.length)], none⟩ := by
  induction tiled generalizing fuel with
  | @done gap place isGap =>
    cases fuel with
    | zero => cases enough
    | succ fuel =>
      have skipped := @skipGap_of_isGap gap [] isGap (by simp) place
      rw [List.append_nil] at skipped
      rw [TokenStream.scanFrom, skipped]
      rfl
  | @token gap text rest c place lexeme ts isGap read _ ih =>
    cases fuel with
    | zero => cases enough
    | succ fuel =>
      have starts : ∀ d ∈ (c :: (text ++ rest)).head?, startsGap d = false := by
        rintro d ⟨⟩
        exact Lexeme.startsGap_of_read read
      have dropped : (c :: (text ++ rest)).drop (text.length + 1) = rest := by simp
      have ends : place + gap.length + (text.length + 1) + rest.length =
          place + (gap ++ c :: (text ++ rest)).length := by
        simp only [List.length_append, List.length_cons]
        omega
      simp only [List.length_append, List.length_cons] at enough
      rw [TokenStream.scanFrom, @skipGap_of_isGap gap (c :: (text ++ rest)) isGap starts]
      simp only [read, dropped]
      rw [ih (by omega), ends]
      rfl

theorem proper (tiled : Tiled cs place ts) : ∀ t ∈ ts, t.lexeme ≠ .endOfInput ∧ place ≤ t.span.start ∧
    t.span.start < t.span.stop ∧ t.span.stop ≤ place + cs.length := by
  induction tiled with
  | done => simp
  | @token gap text rest c place lexeme ts _ read _ ih =>
    simp only [List.length_append, List.length_cons]
    refine List.forall_mem_cons.2 ⟨⟨?_, ?_⟩, fun t member => ?_⟩
    · have answers := Lexeme.read_answers c (text ++ rest)
      rw [read] at answers
      cases answers with
      | ok notEnd => exact notEnd
    · dsimp only
      omega
    · obtain ⟨notEnd, bounds⟩ := ih t member
      exact ⟨notEnd, by omega⟩

theorem ordered (tiled : Tiled cs place ts) : ts.Pairwise fun t u => t.span.stop ≤ u.span.start := by
  induction tiled with
  | done => exact .nil
  | token _ _ tiled ih => exact .cons (fun u member => (tiled.proper u member).2.1) ih

theorem exists_separator (tiled : Tiled cs place ts) {i : Nat} (low : place ≤ i) (high : i < place + cs.length)
    (outside : ∀ t ∈ ts, ¬ t.span.Holds i) : ∃ before piece after, cs = before ++ (piece ++ after) ∧
      place + before.length ≤ i ∧ i < place + before.length + piece.length ∧ Separator after.head? piece ∧
      ∀ t ∈ ts, t.span.stop ≤ place + before.length ∨ place + before.length + piece.length ≤ t.span.start := by
  induction tiled with
  | @done gap place isGap =>
    obtain ⟨before, piece, after, rfl, low, high, separator⟩ := isGap.exists_separator (i := i - place) (by omega)
    exact ⟨before, piece, after, rfl, by omega, by omega, by simpa using separator, by simp⟩
  | @token gap text rest c place lexeme ts isGap read tiled ih =>
    obtain ⟨notHere, outside⟩ := List.forall_mem_cons.1 outside
    simp only [List.length_append, List.length_cons] at high
    by_cases inGap : i < place + gap.length
    · obtain ⟨before, piece, after, rfl, low, high, separator⟩ := isGap.exists_separator (i := i - place) (by omega)
      refine ⟨before, piece, after ++ c :: (text ++ rest), by simp, by omega, by omega, ?_, ?_⟩
      · simpa [List.head?_append] using separator
      · intro t member
        have start : place + (before ++ (piece ++ after)).length ≤ t.span.start := by
          rcases List.mem_cons.1 member with rfl | member
          · exact le_rfl
          · have := (tiled.proper t member).2.1
            omega
        simp only [List.length_append] at start
        omega
    · have behind : place + gap.length + (text.length + 1) ≤ i := by
        simp only [Span.Holds] at notHere
        omega
      obtain ⟨before, piece, after, rfl, low, high, separator, apart⟩ := ih behind (by omega) outside
      refine ⟨gap ++ c :: (text ++ before), piece, after, by simp, ?_, ?_, separator, ?_⟩
      · simp only [List.length_append, List.length_cons]
        omega
      · simp only [List.length_append, List.length_cons]
        omega
      · simp only [List.length_append, List.length_cons]
        refine List.forall_mem_cons.2 ⟨.inl (by dsimp only; omega), fun t member => ?_⟩
        have := apart t member
        omega

theorem drop {before : List Token} {t : Token} (tiled : Tiled cs place (before ++ t :: ts)) :
    ∃ skipped rest, cs = skipped ++ rest ∧ t.span.start = place + skipped.length ∧
      Tiled rest t.span.start (t :: ts) := by
  induction before generalizing cs place with
  | nil =>
    cases tiled with
    | @token gap text rest c _ lexeme _ isGap read tiled =>
      exact ⟨gap, c :: (text ++ rest), rfl, rfl, @token [] _ _ _ _ _ _ .nil read tiled⟩
  | cons u before ih =>
    cases tiled with
    | @token gap text rest c _ lexeme _ isGap read tiled =>
      obtain ⟨skipped, rest, rfl, start, tiled⟩ := ih tiled
      refine ⟨gap ++ c :: (text ++ skipped), rest, by simp, ?_, tiled⟩
      rw [start]
      simp only [List.length_append, List.length_cons]
      omega

theorem agrees_of_read {gap text rest mid : List Char} {c : Char} {lexeme : Lexeme} (isGap : IsGap (some c) gap)
    (read : Lexeme.read c (text ++ rest) = .ok (lexeme, text.length + 1)) (same : SameHead rest mid) :
    Agrees (gap ++ c :: (text ++ rest)) (gap ++ c :: (text ++ mid)) where
  head := SameHead.append gap fun _ first => first
  suffix none := by
    cases isGap with
    | nil =>
      by_cases dot : c = '.'
      · subst dot
        exact (Lexeme.readSuffix_of_read read same).trans none
      · exact Lexeme.readSuffix_of_ne dot _
    | cons separator _ =>
      cases separator with
      | blank blank =>
        refine Lexeme.readSuffix_of_ne ?_ _
        rintro rfl
        cases blank
      | lineComment => exact Lexeme.readSuffix_of_ne (by decide) _
      | blockComment => exact Lexeme.readSuffix_of_ne (by decide) _

theorem take {used others : List Token} (tiled : Tiled cs place (used ++ others)) (nonempty : used ≠ []) :
    ∃ text rest, cs = text ++ rest ∧ Tiled text place used ∧ (Token.extent used).stop = place + text.length ∧
      Agrees cs text := by
  induction used generalizing cs place with
  | nil => exact absurd rfl nonempty
  | cons t used ih =>
    cases tiled with
    | @token gap text rest c _ lexeme _ isGap read tiled =>
      obtain ⟨mid, after, rfl, tiledMid, stop, agrees⟩ : ∃ mid after, rest = mid ++ after ∧
          Tiled mid (place + gap.length + (text.length + 1)) used ∧
          (Token.extent (⟨lexeme, ⟨place + gap.length, place + gap.length + (text.length + 1)⟩⟩ :: used)).stop =
            place + gap.length + (text.length + 1) + mid.length ∧ Agrees rest mid := by
        by_cases last : used = []
        · subst last
          exact ⟨[], rest, rfl, done .nil, rfl, Lexeme.agrees_nil rest⟩
        · obtain ⟨mid, after, split, tiledMid, stop, agrees⟩ := ih tiled last
          exact ⟨mid, after, split, tiledMid, by rw [Token.extent_cons last, stop], agrees⟩
      refine ⟨gap ++ c :: (text ++ mid), after, by simp, token isGap (Lexeme.read_of_agrees read agrees) tiledMid, ?_,
        agrees_of_read isGap read agrees.head⟩
      rw [stop]
      simp only [List.length_append, List.length_cons]
      omega

/-- Tokens do not depend on the place of their text. -/
theorem relocate {distance : Nat} (tiled : Tiled cs (place + distance) ts) :
    Tiled cs place (ts.map (Token.relocate (· - distance))) := by
  generalize moved : place + distance = start at tiled
  induction tiled generalizing place with
  | done isGap => exact done isGap
  | @token gap text rest c start lexeme ts isGap read tiled ih =>
    subst moved
    have later := @ih (place + gap.length + (text.length + 1)) (by omega)
    have here := token isGap read later
    have start : place + distance + gap.length - distance = place + gap.length := by omega
    have stop : place + distance + gap.length + (text.length + 1) - distance =
        place + gap.length + (text.length + 1) := by omega
    simpa only [List.map_cons, Token.relocate, Span.relocate, start, stop] using here

end Tiled

namespace TokenStream

theorem exists_tiled {text : String} (complete : (scan text).fault = none) :
    ∃ body, scan text = ⟨body ++ [.ending text.length], none⟩ ∧ Tiled text.toList 0 body := by
  have enough : text.toList.length < text.length + 1 := by
    rw [String.length_toList]
    exact Nat.lt_succ_self _
  obtain ⟨body, scanned, tiled⟩ := Tiled.of_scanFrom enough complete
  rw [Nat.zero_add, String.length_toList] at scanned
  exact ⟨body, scanned, tiled⟩

theorem scan_slice {text : String} {before used after : List Token}
    (tiled : Tiled text.toList 0 (before ++ (used ++ after))) (nonempty : used ≠ []) :
    scan ((Token.extent used).slice text) = ⟨used.map (Token.relocate (· - (Token.extent used).start)) ++
      [.ending ((Token.extent used).stop - (Token.extent used).start)], none⟩ := by
  cases used with
  | nil => exact absurd rfl nonempty
  | cons t used =>
    obtain ⟨skipped, rest, split, start, tiled⟩ := tiled.drop
    obtain ⟨middle, rest, rfl, tiled, stop, -⟩ := tiled.take nonempty
    have isStart : (Token.extent (t :: used)).start = t.span.start := by
      cases used <;> rfl
    rw [Nat.zero_add] at start
    have sliced := Span.toList_slice split (isStart.trans start) (stop.trans (by rw [start]))
    have moved : Tiled middle 0 ((t :: used).map (Token.relocate (· - t.span.start))) :=
      Tiled.relocate (by rwa [Nat.zero_add])
    have size : 0 + middle.length = (Token.extent (t :: used)).stop - (Token.extent (t :: used)).start := by
      rw [stop, isStart]
      omega
    rw [scan, sliced, ← String.length_toList, sliced, moved.scanFrom_eq (Nat.lt_succ_self _), size, isStart]

/-- The tokens are those of the whole text. Each stands for some characters that are scanned to the token alone; the
tokens stand in the order of the text; and all that is under none of them separates tokens. -/
structure Tiles (text : String) (body : List Token) : Prop where
  proper : ∀ t ∈ body, t.lexeme ≠ .endOfInput ∧ t.span.start < t.span.stop ∧ t.span.stop ≤ text.length
  ordered : body.Pairwise fun t u => t.span.stop ≤ u.span.start
  separated : ∀ place < text.length, (∀ t ∈ body, ¬ t.span.Holds place) →
    ∃ piece : Span, piece.Holds place ∧ Separator text.toList[piece.stop]? (piece.slice text).toList ∧
      ∀ t ∈ body, t.span.stop ≤ piece.start ∨ piece.stop ≤ t.span.start
  alone : ∀ t ∈ body, scan (t.span.slice text) =
    ⟨[⟨t.lexeme, ⟨0, t.span.stop - t.span.start⟩⟩, .ending (t.span.stop - t.span.start)], none⟩

/-- A text that is scanned to its end is tiled by its tokens, and the end of input stands last and once. -/
theorem tiles_of_scan {text : String} (complete : (scan text).fault = none) :
    ∃ body, scan text = ⟨body ++ [.ending text.length], none⟩ ∧ Tiles text body := by
  obtain ⟨body, scanned, tiled⟩ := exists_tiled complete
  have length : 0 + text.toList.length = text.length := by rw [Nat.zero_add, String.length_toList]
  refine ⟨body, scanned, ⟨fun t member => ?_, tiled.ordered, fun place inside outside => ?_, fun t member => ?_⟩⟩
  · have proper := tiled.proper t member
    exact ⟨proper.1, proper.2.2.1, proper.2.2.2.trans_eq length⟩
  · obtain ⟨before, piece, after, split, low, high, separator, apart⟩ :=
      tiled.exists_separator (Nat.zero_le place) (by omega) outside
    simp only [Nat.zero_add] at low high apart
    refine ⟨⟨before.length, before.length + piece.length⟩, ⟨low, high⟩, ?_, apart⟩
    have next : text.toList[before.length + piece.length]? = after.head? := by
      rw [split, ← List.append_assoc, ← List.length_append, List.getElem?_append_right le_rfl, Nat.sub_self,
        List.head?_eq_getElem?]
    rw [Span.toList_slice split rfl rfl, next]
    exact separator
  · obtain ⟨before, after, rfl⟩ := List.append_of_mem member
    have alone := @scan_slice text before [t] after tiled (by simp)
    simpa [Token.extent, Token.relocate, Span.relocate] using alone

/-- Tokens that touch, a dot that starts a width and one that starts a directive, and comments that hold what looks like
tokens. -/
def touchingText : String := "a:*b.w*c.wx;\"*/\n-0x1F.d/*;\"**/\"/*\\x22;\""

theorem tiles_of_scan_touching : (scan touchingText).fault = none ∧
    ∃ body, scan touchingText = ⟨body ++ [.ending touchingText.length], none⟩ ∧ Tiles touchingText body := by
  have complete : (scan touchingText).fault = none := by decide +kernel
  exact ⟨complete, tiles_of_scan complete⟩

end TokenStream

end EventScript
