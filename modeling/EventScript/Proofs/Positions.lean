import EventScript.Text.Span
import Mathlib.Data.List.TakeWhile

namespace EventScript

-- Sums start from the zero of the core library, whatever else is imported.
attribute [local instance (2000)] Zero.ofOfNat0

/-- The lines of a text, without the line ends between them. -/
def Text.lines (text : String) : List (List Char) := text.toList.splitOn '\n'

def lineStart (lines : List (List Char)) (k : Nat) : Nat := ((lines.take k).map List.length).sum + k

theorem lineStart_cons (line : List Char) (lines : List (List Char)) (k : Nat) :
    lineStart (line :: lines) (k + 1) = line.length + 1 + lineStart lines k := by
  simp only [lineStart, List.take_succ_cons, List.map_cons, List.sum_cons]
  omega

theorem lineStart_succ {lines : List (List Char)} {k : Nat} {line : List Char} (here : lines[k]? = some line) :
    lineStart lines (k + 1) = lineStart lines k + line.length + 1 := by
  simp only [lineStart, List.take_add_one, here, Option.toList_some, List.map_append, List.map_cons,
    List.map_nil, List.sum_append, List.sum_cons, List.sum_nil]
  omega

theorem lineStart_mono {lines : List (List Char)} {k m : Nat} (le : k ≤ m) : lineStart lines k ≤ lineStart lines m := by
  induction le with
  | refl => exact Nat.le_refl _
  | @step m _ ih =>
    apply Nat.le_trans ih
    simp only [lineStart, List.take_add_one, List.map_append, List.sum_append]
    omega

theorem lineStart_length (cs : List Char) :
    lineStart (cs.splitOn '\n') (cs.splitOn '\n').length = cs.length + 1 := by
  induction cs with
  | nil => rfl
  | cons c cs ih =>
    rw [List.splitOn_cons_eq_if_modifyHead]
    by_cases isEnd : c = '\n'
    · simp only [isEnd, BEq.rfl, if_true, List.length_cons, lineStart_cons, ih, List.length_nil]
      omega
    · simp only [beq_iff_eq, isEnd, if_false, List.length_cons]
      cases split : cs.splitOn '\n' with
      | nil => exact absurd split (List.splitOn_ne_nil _ _)
      | cons line lines =>
        rw [split, List.length_cons, lineStart_cons] at ih
        rw [List.modifyHead_cons, List.length_cons, lineStart_cons, List.length_cons]
        omega

namespace Position

variable {lines : List (List Char)} {p q : Position}

instance : LT Position := ⟨fun p q => p.line < q.line ∨ p.line = q.line ∧ p.column < q.column⟩

theorem lt_iff : p < q ↔ p.line < q.line ∨ p.line = q.line ∧ p.column < q.column := Iff.rfl

instance (p q : Position) : Decidable (p < q) :=
  inferInstanceAs (Decidable (p.line < q.line ∨ p.line = q.line ∧ p.column < q.column))

theorem lt_or_eq_or_gt (p q : Position) : p < q ∨ p = q ∨ q < p := by
  cases p
  cases q
  simp only [lt_iff, mk.injEq]
  omega

/-- The position is on one of the lines, or just behind its last character. -/
structure IsIn (lines : List (List Char)) (p : Position) : Prop where
  line_pos : 1 ≤ p.line
  column_pos : 1 ≤ p.column
  column_le : ∃ line, lines[p.line - 1]? = some line ∧ p.column ≤ line.length + 1

/-- The characters before the position: the lines before its own, their line ends, and what stands
before it on its line. -/
def offsetIn (lines : List (List Char)) (p : Position) : Nat :=
  ((lines.take (p.line - 1)).map List.length).sum + (p.line - 1) + (p.column - 1)

theorem offsetIn_eq (lines : List (List Char)) (p : Position) :
    p.offsetIn lines = lineStart lines (p.line - 1) + (p.column - 1) := rfl

theorem IsIn.offsetIn_lt (isIn : p.IsIn lines) : p.offsetIn lines < lineStart lines p.line := by
  obtain ⟨line, here, le⟩ := isIn.column_le
  have next := lineStart_succ here
  have := isIn.line_pos
  have := isIn.column_pos
  rw [Nat.sub_add_cancel isIn.line_pos] at next
  rw [offsetIn_eq]
  omega

theorem IsIn.offsetIn_le_length {cs : List Char} (isIn : p.IsIn (cs.splitOn '\n')) :
    p.offsetIn (cs.splitOn '\n') ≤ cs.length := by
  obtain ⟨line, here, -⟩ := isIn.column_le
  have inside := (List.getElem?_eq_some_iff.1 here).1
  have before := isIn.offsetIn_lt
  have last : lineStart (cs.splitOn '\n') p.line ≤ cs.length + 1 := by
    rw [← lineStart_length]
    apply lineStart_mono
    omega
  omega

theorem offsetIn_strictMono (first : p.IsIn lines) (lt : p < q) :
    p.offsetIn lines < q.offsetIn lines := by
  rcases lt_iff.1 lt with earlier | ⟨same, left⟩
  · have before := first.offsetIn_lt
    have start : lineStart lines p.line ≤ lineStart lines (q.line - 1) := lineStart_mono (by omega)
    rw [offsetIn_eq lines q]
    omega
  · have := first.column_pos
    rw [offsetIn_eq, offsetIn_eq, same]
    omega

theorem offsetIn_injective (first : p.IsIn lines) (second : q.IsIn lines)
    (same : p.offsetIn lines = q.offsetIn lines) : p = q := by
  rcases lt_or_eq_or_gt p q with lt | eq | gt
  · have := offsetIn_strictMono first lt
    omega
  · exact eq
  · have := offsetIn_strictMono second gt
    omega

def behind (before : List Char) : Position :=
  ⟨before.count '\n' + 1, (before.reverse.takeWhile (· != '\n')).length + 1⟩

theorem behind_newline (before : List Char) :
    behind ('\n' :: before) = ⟨(behind before).line + 1, (behind before).column⟩ := by
  simp only [behind, List.count_cons_self, List.reverse_cons, List.takeWhile_append]
  split <;> simp_all

theorem behind_cons {c : Char} (notEnd : c ≠ '\n') (before : List Char) :
    behind (c :: before) = ⟨(behind before).line,
      if (behind before).line = 1 then (behind before).column + 1 else (behind before).column⟩ := by
  have sameLine : (c :: before).count '\n' = before.count '\n' := List.count_cons_of_ne notEnd
  simp only [behind, sameLine, List.reverse_cons, List.takeWhile_append]
  by_cases first : before.count '\n' = 0
  · have whole : before.reverse.takeWhile (· != '\n') = before.reverse := by
      rw [List.takeWhile_eq_self_iff]
      intro d inside
      have absent := List.count_eq_zero.1 first
      have : d ≠ '\n' := fun same => absent (same ▸ List.mem_reverse.1 inside)
      simpa using this
    simp [whole, first, notEnd]
  · have shorter : (before.reverse.takeWhile (· != '\n')).length ≠ before.reverse.length := by
      intro full
      have whole := (List.takeWhile_prefix (· != '\n') (l := before.reverse)).eq_of_length full
      rw [List.takeWhile_eq_self_iff] at whole
      apply first
      rw [List.count_eq_zero]
      intro inside
      simpa using whole '\n' (List.mem_reverse.2 inside)
    simp only [shorter, first, if_false, Nat.reduceEqDiff]

theorem IsIn.newline (isIn : p.IsIn lines) : IsIn ([] :: lines) ⟨p.line + 1, p.column⟩ ∧
    offsetIn ([] :: lines) ⟨p.line + 1, p.column⟩ = p.offsetIn lines + 1 := by
  obtain ⟨linePos, columnPos, line, here, columnLe⟩ := isIn
  obtain ⟨k, number⟩ := Nat.exists_eq_add_of_le' linePos
  rw [number, Nat.add_sub_cancel] at here
  constructor
  · refine ⟨Nat.le_add_left .., columnPos, line, ?_, columnLe⟩
    rw [number, Nat.add_sub_cancel, List.getElem?_cons_succ]
    exact here
  · simp only [offsetIn_eq, number, Nat.add_sub_cancel, lineStart_cons, List.length_nil]
    omega

theorem IsIn.char {line : List Char} (isIn : p.IsIn (line :: lines)) (c : Char) :
    IsIn ((c :: line) :: lines) ⟨p.line, if p.line = 1 then p.column + 1 else p.column⟩ ∧
      offsetIn ((c :: line) :: lines) ⟨p.line, if p.line = 1 then p.column + 1 else p.column⟩ =
        p.offsetIn (line :: lines) + 1 := by
  obtain ⟨linePos, columnPos, line', here, columnLe⟩ := isIn
  obtain ⟨k, number⟩ := Nat.exists_eq_add_of_le' linePos
  simp only [offsetIn_eq, number, Nat.add_sub_cancel] at here ⊢
  cases k with
  | zero =>
    obtain rfl : line = line' := by simpa using here
    simp only [Nat.zero_add, if_true]
    constructor
    · exact ⟨Nat.le_refl 1, Nat.le_add_left .., c :: line, rfl, Nat.succ_le_succ columnLe⟩
    · simp only [lineStart, List.take_zero]
      omega
  | succ k =>
    simp only [Nat.add_eq_right, Nat.add_eq_zero_iff, Nat.succ_ne_self, and_false, if_false]
    constructor
    · exact ⟨Nat.le_add_left .., columnPos, line', here, columnLe⟩
    · rw [lineStart_cons, lineStart_cons, List.length_cons]
      omega

/-- The position behind the first characters of a text is one of the text, and their number is its
offset. -/
theorem behind_take (cs : List Char) {n : Nat} (inside : n ≤ cs.length) :
    (behind (cs.take n)).IsIn (cs.splitOn '\n') ∧ (behind (cs.take n)).offsetIn (cs.splitOn '\n') = n := by
  induction cs generalizing n with
  | nil =>
    obtain rfl : n = 0 := by simpa using inside
    exact ⟨⟨Nat.le_refl 1, Nat.le_refl 1, [], rfl, Nat.le_refl 1⟩, rfl⟩
  | cons c cs ih =>
    cases n with
    | zero =>
      obtain ⟨line, lines, split⟩ := List.exists_cons_of_ne_nil (List.splitOn_ne_nil '\n' (c :: cs))
      rw [split]
      exact ⟨⟨Nat.le_refl 1, Nat.le_refl 1, line, rfl, Nat.le_add_left ..⟩, rfl⟩
    | succ n =>
      obtain ⟨isIn, sum⟩ := ih (n := n) (by simpa using inside)
      rw [List.take_succ_cons, List.splitOn_cons_eq_if_modifyHead]
      by_cases isEnd : c = '\n'
      · rw [isEnd, behind_newline, if_pos BEq.rfl]
        exact ⟨isIn.newline.1, isIn.newline.2.trans (by rw [sum])⟩
      · rw [behind_cons isEnd, if_neg (by simpa using isEnd)]
        obtain ⟨line, lines, split⟩ := List.exists_cons_of_ne_nil (List.splitOn_ne_nil '\n' cs)
        rw [split] at isIn sum ⊢
        exact ⟨(isIn.char c).1, (isIn.char c).2.trans (by rw [sum])⟩

/-- The offset itself, or the end of a text of `size` characters that is nearer to it. -/
def clamp (size : Nat) (offset : Int) : Nat :=
  if offset < 0 then 0 else if size < offset then size else offset.toNat

theorem clamp_le (size : Nat) (offset : Int) : clamp size offset ≤ size := by
  unfold clamp
  split_ifs <;> omega

theorem clamp_of_inside {size : Nat} {offset : Int} (nonneg : 0 ≤ offset) (inside : offset ≤ size) :
    clamp size offset = offset := by
  unfold clamp
  split_ifs <;> omega

theorem ofOffset_eq (text : String) (offset : Int) :
    ofOffset text offset = behind (text.toList.take (clamp text.length offset)) := by
  have cut : text.toList.take offset.toNat = text.toList.take (clamp text.length offset) := by
    unfold clamp
    split_ifs with before after
    · rw [Int.toNat_of_nonpos (Int.le_of_lt before)]
    · rw [← String.length_toList, List.take_length, List.take_of_length_le]
      rw [String.length_toList]
      omega
    · rfl
  rw [← cut]
  rfl

/-- The position of an offset is one of the text, and the offset, moved into the text, is what stands
before it. Every position of the text is found so, and later offsets have later positions. -/
theorem ofOffset_inverse (text : String) :
    (∀ offset : Int, (ofOffset text offset).IsIn (Text.lines text) ∧
      (ofOffset text offset).offsetIn (Text.lines text) = clamp text.length offset) ∧
    (∀ p : Position, p.IsIn (Text.lines text) → ofOffset text (p.offsetIn (Text.lines text)) = p) ∧
    (∀ a b : Int, 0 ≤ a → a < b → b ≤ text.length → ofOffset text a < ofOffset text b) ∧
    ∀ a b : Int, 0 ≤ a → a ≤ text.length → 0 ≤ b → b ≤ text.length →
      ofOffset text a = ofOffset text b → a = b := by
  have found (offset : Int) : (ofOffset text offset).IsIn (Text.lines text) ∧
      (ofOffset text offset).offsetIn (Text.lines text) = clamp text.length offset := by
    rw [ofOffset_eq]
    apply behind_take
    rw [String.length_toList]
    exact clamp_le ..
  refine ⟨found, fun p isIn => ?_, fun a b nonneg lt inside => ?_, fun a b aNonneg aInside bNonneg bInside same => ?_⟩
  · apply offsetIn_injective (found _).1 isIn
    have inside := isIn.offsetIn_le_length
    rw [String.length_toList] at inside
    have := clamp_of_inside (Int.natCast_nonneg _) (Int.ofNat_le.2 inside)
    rw [(found _).2]
    exact Int.ofNat.inj this
  · have first := (found a).2
    have second := (found b).2
    have here := clamp_of_inside nonneg (show a ≤ text.length by omega)
    have there := clamp_of_inside (show 0 ≤ b by omega) inside
    rcases lt_or_eq_or_gt (ofOffset text a) (ofOffset text b) with before | same | after
    · exact before
    · rw [same] at first
      omega
    · have := offsetIn_strictMono (found b).1 after
      omega
  · have first := (found a).2
    have second := (found b).2
    rw [same] at first
    have here := clamp_of_inside aNonneg aInside
    have there := clamp_of_inside bNonneg bInside
    omega

/-- The line end of the first line, the start of the second, and an offset past the end. -/
theorem ofOffset_inverse_twoLines :
    ofOffset "ab\ncd" 4 = ⟨2, 2⟩ ∧ (ofOffset "ab\ncd" 9).offsetIn (Text.lines "ab\ncd") = 5 ∧
      IsIn (Text.lines "ab\ncd") ⟨1, 3⟩ ∧ ofOffset "ab\ncd" (offsetIn (Text.lines "ab\ncd") ⟨1, 3⟩) = ⟨1, 3⟩ ∧
      ofOffset "ab\ncd" 2 < ofOffset "ab\ncd" 3 := by
  have onFirst : IsIn (Text.lines "ab\ncd") ⟨1, 3⟩ := ⟨by decide, by decide, ['a', 'b'], by cbv, by decide⟩
  obtain ⟨found, back, mono, -⟩ := ofOffset_inverse "ab\ncd"
  exact ⟨by cbv, (found 9).2, onFirst, back _ onFirst, mono 2 3 (by decide) (by decide) (by decide)⟩

end Position

end EventScript
