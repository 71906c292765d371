import EventScript.Bytecode.Decode
import EventScript.Proofs.ByteOrder
import EventScript.Proofs.Outcome

namespace EventScript

namespace Cursor

/-- From `c` over the bytes `bs` to `c'`. -/
structure Advances (c : Cursor) (bs : Bytes) (c' : Cursor) : Prop where
  rest : c.rest = bs ++ c'.rest
  offset : c'.offset = c.offset + bs.length

theorem Advances.refl (c : Cursor) : c.Advances [] c := ⟨rfl, rfl⟩

theorem Advances.trans {c c' c'' : Cursor} {bs bs' : Bytes} (first : c.Advances bs c')
    (second : c'.Advances bs' c'') : c.Advances (bs ++ bs') c'' where
  rest := by rw [first.rest, second.rest, List.append_assoc]
  offset := by rw [second.offset, first.offset, List.length_append, Nat.add_assoc]

theorem Advances.length_le {c c' : Cursor} {bs : Bytes} (h : c.Advances bs c') :
    c'.rest.length ≤ c.rest.length := by
  rw [h.rest, List.length_append]
  omega

theorem Advances.length_succ {c c' : Cursor} {b : UInt8} (h : c.Advances [b] c') :
    c.rest.length = c'.rest.length + 1 := by
  rw [h.rest, List.singleton_append, List.length_cons]

theorem advances_nil {c c' : Cursor} : c.Advances [] c' ↔ c = c' := by
  constructor
  · rintro ⟨rest, offset⟩
    cases c
    cases c'
    simp_all
  · rintro rfl
    exact .refl c

theorem advances_append {c c'' : Cursor} {bs bs' : Bytes} :
    c.Advances (bs ++ bs') c'' ↔ ∃ c', c.Advances bs c' ∧ c'.Advances bs' c'' := by
  constructor
  · intro h
    refine ⟨⟨bs' ++ c''.rest, c.offset + bs.length⟩, ⟨?_, rfl⟩, ⟨rfl, ?_⟩⟩
    · rw [h.rest, List.append_assoc]
    · rw [h.offset, List.length_append, Nat.add_assoc]
  · rintro ⟨c', first, second⟩
    exact first.trans second

theorem advances_cons {c c'' : Cursor} {b : UInt8} {bs : Bytes} :
    c.Advances (b :: bs) c'' ↔ ∃ c', c.Advances [b] c' ∧ c'.Advances bs c'' :=
  List.singleton_append (x := b) (l := bs) ▸ advances_append

end Cursor

namespace Decoder

variable {α β : Type}

def Reads (d : Decoder α) (c : Cursor) (a : α) (c' : Cursor) : Prop := d.run c = .ok (a, c')

theorem reads_pure {a b : α} {c c' : Cursor} :
    (pure a : Decoder α).Reads c b c' ↔ a = b ∧ c = c' := by
  have run : (pure a : Decoder α).run c = .ok (a, c) := rfl
  simp [Reads, run]

theorem reads_bind {d : Decoder α} {f : α → Decoder β} {c c'' : Cursor} {b : β} :
    (d >>= f).Reads c b c'' ↔ ∃ a c', d.Reads c a c' ∧ (f a).Reads c' b c'' := by
  simp only [Reads, StateT.run_bind, bind_eq_ok, Prod.exists]

theorem reads_fail {cause : DecodeCause} {offset : Nat} {c c' : Cursor} {a : α} :
    (fail cause offset : Decoder α).Reads c a c' ↔ False := by
  simp only [iff_false]
  intro h
  cases h

theorem reads_get {c c' a : Cursor} : (get : Decoder Cursor).Reads c a c' ↔ c = a ∧ c = c' := by
  simp [Reads, get, getThe, MonadStateOf.get, StateT.get, StateT.run, Pure.pure, Except.pure]

theorem reads_offset {c c' : Cursor} {n : Nat} : offset.Reads c n c' ↔ c.offset = n ∧ c = c' := by
  simp only [offset, reads_bind, reads_get, reads_pure]
  constructor
  · rintro ⟨_, _, ⟨rfl, rfl⟩, rfl, rfl⟩
    exact ⟨rfl, rfl⟩
  · rintro ⟨rfl, rfl⟩
    exact ⟨_, _, ⟨rfl, rfl⟩, rfl, rfl⟩

theorem reads_skip {n : Nat} {c c' : Cursor} {u : Unit} :
    (skip n).Reads c u c' ↔ ⟨c.rest.drop n, c.offset + n⟩ = c' := by
  simp [Reads, skip, modify, modifyGet, MonadStateOf.modifyGet, StateT.modifyGet, StateT.run,
    Pure.pure, Except.pure]

theorem reads_byte {c c' : Cursor} {b : UInt8} : byte.Reads c b c' ↔ c.Advances [b] c' := by
  obtain ⟨rest, offset⟩ := c
  obtain ⟨rest', offset'⟩ := c'
  cases rest with
  | nil =>
    refine iff_of_false (fun h => ?_) fun h => ?_
    · cases h
    · simpa using h.rest
  | cons b' rest =>
    constructor
    · intro h
      cases h
      exact ⟨rfl, rfl⟩
    · rintro ⟨same, moved⟩
      simp only [List.cons_append, List.nil_append, List.cons.injEq] at same
      obtain ⟨rfl, rfl⟩ := same
      simp only [List.length_singleton] at moved
      subst moved
      rfl

theorem reads_take {n : Nat} {c c' : Cursor} {bs : Bytes} :
    (take n).Reads c bs c' ↔ bs.length = n ∧ c.Advances bs c' := by
  unfold take
  rw [reads_bind]
  simp only [reads_get]
  by_cases short : (c.rest.take n).length < n
  · refine iff_of_false ?_ ?_
    · rintro ⟨_, _, ⟨rfl, rfl⟩, h⟩
      simp only [short, if_true, reads_bind, reads_fail, false_and, exists_false] at h
    · rintro ⟨rfl, same, -⟩
      rw [same] at short
      simp at short
  · have full : (c.rest.take n).length = n := by
      have := List.length_take_le n c.rest
      omega
    constructor
    · rintro ⟨_, _, ⟨rfl, rfl⟩, h⟩
      simp only [short, if_false, reads_bind, reads_skip, reads_pure] at h
      obtain ⟨_, _, rfl, rfl, rfl⟩ := h
      exact ⟨full, (List.take_append_drop n _).symm, by rw [full]⟩
    · rintro ⟨rfl, same, moved⟩
      refine ⟨_, _, ⟨rfl, rfl⟩, ?_⟩
      simp only [short, if_false, reads_bind, reads_skip, reads_pure]
      refine ⟨(), _, rfl, ?_, ?_⟩
      · rw [same, List.take_left]
      · obtain ⟨rest', offset'⟩ := c'
        simp_all

theorem takeWhile_eq_iff {test : UInt8 → Bool} {bytes run : Bytes} :
    bytes.takeWhile test = run ↔ run.all test = true ∧
      ∃ rest : Bytes, bytes = run ++ rest ∧ rest.head?.all (fun b => !test b) = true := by
  constructor
  · rintro rfl
    refine ⟨List.all_takeWhile, _, List.takeWhile_append_dropWhile.symm, ?_⟩
    have stop := List.head?_dropWhile_not test bytes
    cases next : (bytes.dropWhile test).head? <;> simp_all
  · rintro ⟨all, rest, rfl, stop⟩
    rw [List.takeWhile_append_of_pos (List.all_eq_true.1 all)]
    cases rest with
    | nil => simp
    | cons b rest =>
      simp only [List.head?_cons, Option.all_some, Bool.not_eq_true'] at stop
      simp [stop]

theorem reads_takeWhile {test : UInt8 → Bool} {c c' : Cursor} {bs : Bytes} :
    (takeWhile test).Reads c bs c' ↔
      bs.all test = true ∧ c.Advances bs c' ∧ c'.rest.head?.all (fun b => !test b) = true := by
  unfold takeWhile
  simp only [reads_bind, reads_get, reads_skip, reads_pure]
  constructor
  · rintro ⟨_, _, ⟨rfl, rfl⟩, _, _, rfl, run, rfl⟩
    obtain ⟨all, rest, split, stop⟩ := takeWhile_eq_iff.1 run
    subst run
    have left : List.drop _ _ = rest := (congrArg (List.drop _) split).trans List.drop_left
    exact ⟨all, ⟨by rw [left]; exact split, rfl⟩, by rw [left]; exact stop⟩
  · rintro ⟨all, ⟨split, moved⟩, stop⟩
    have run := takeWhile_eq_iff.2 ⟨all, _, split, stop⟩
    refine ⟨_, _, ⟨rfl, rfl⟩, (), _, rfl, run, ?_⟩
    obtain ⟨rest', offset'⟩ := c'
    rw [run]
    simp_all

theorem reads_takeUntil {stop : UInt8} {c c' : Cursor} {bs : Bytes} :
    (takeUntil stop).Reads c bs c' ↔ stop ∉ bs ∧ c.Advances (bs ++ [stop]) c' := by
  have differs (run : Bytes) : run.all (· != stop) = true ↔ stop ∉ run := by
    simp only [List.all_eq_true, bne_iff_ne, ne_eq]
    exact ⟨fun h member => h _ member rfl, fun h b member same => h (same ▸ member)⟩
  unfold takeUntil
  simp only [reads_bind, reads_offset, reads_takeWhile, reads_get, differs]
  constructor
  · rintro ⟨_, _, ⟨rfl, rfl⟩, run, c₁, ⟨all, advance, next⟩, _, _, ⟨rfl, rfl⟩, h⟩
    cases left : c₁.rest with
    | nil => simp [left, reads_bind, reads_fail] at h
    | cons b rest =>
      simp only [left, List.head?_cons, Option.all_some, Bool.not_eq_true', bne_eq_false_iff_eq] at next
      simp only [left, List.isEmpty_cons, Bool.false_eq_true, if_false, reads_bind, reads_skip,
        reads_pure, List.drop_succ_cons, List.drop_zero] at h
      obtain ⟨_, _, rfl, rfl, rfl⟩ := h
      subst next
      exact ⟨all, advance.trans ⟨left, rfl⟩⟩
  · rintro ⟨all, advance⟩
    obtain ⟨c₁, first, second⟩ := Cursor.advances_append.1 advance
    refine ⟨_, _, ⟨rfl, rfl⟩, bs, c₁, ⟨all, first, ?_⟩, _, _, ⟨rfl, rfl⟩, ?_⟩
    · simp [second.rest]
    · simp only [second.rest, List.cons_append, List.nil_append, List.isEmpty_cons,
        Bool.false_eq_true, if_false, reads_bind, reads_skip, reads_pure]
      refine ⟨(), _, rfl, trivial, ?_⟩
      obtain ⟨rest', offset'⟩ := c'
      have moved := second.offset
      simp_all

theorem reads_constant {c c' : Cursor} {w : Width} {bs : Bytes} :
    constant.Reads c (w, bs) c' ↔ bs.length = w.bytes ∧ c.Advances (w.tag :: bs) c' := by
  unfold constant
  simp only [reads_bind, reads_offset, reads_byte]
  constructor
  · rintro ⟨_, _, ⟨rfl, rfl⟩, tag, c₁, first, h⟩
    cases width : Width.ofTag? tag with
    | none => simp [width, reads_fail] at h
    | some w' =>
      simp only [width, reads_bind, reads_take, reads_pure, Prod.mk.injEq] at h
      obtain ⟨_, _, ⟨full, second⟩, ⟨rfl, rfl⟩, rfl⟩ := h
      rw [Width.tag_of_ofTag? width] at first
      exact ⟨full, first.trans second⟩
  · rintro ⟨full, advance⟩
    obtain ⟨c₁, first, second⟩ := Cursor.advances_cons.1 advance
    refine ⟨_, _, ⟨rfl, rfl⟩, w.tag, c₁, first, ?_⟩
    simp only [Width.ofTag?_tag, reads_bind, reads_take, reads_pure]
    exact ⟨bs, c', ⟨full, second⟩, rfl, rfl⟩

theorem reads_signed {c c' : Cursor} {value : Int} {w : Width} :
    (do let (w, bytes) ← constant
        return (bytes.signed, w) : Decoder (Int × Width)).Reads c (value, w) c' ↔
      Bytes.InRange value w.bytes ∧ c.Advances (w.constant value) c' := by
  simp only [reads_bind, reads_pure, Prod.exists, reads_constant, Prod.mk.injEq]
  constructor
  · rintro ⟨w, bs, _, ⟨full, advance⟩, ⟨rfl, rfl⟩, rfl⟩
    refine ⟨full ▸ Bytes.signed_inRange bs, ?_⟩
    rwa [Width.constant, ← full, Bytes.pack_signed]
  · rintro ⟨inRange, advance⟩
    exact ⟨w, Bytes.pack value w.bytes, c', ⟨Bytes.length_pack .., advance⟩,
      ⟨Bytes.signed_pack inRange, rfl⟩, rfl⟩

theorem reads_literal {c c' : Cursor} {o : Operand} :
    literal.Reads c o c' ↔ ∃ (value : Int) (w : Width),
      o = .ofConstant value w ∧ Bytes.InRange value w.bytes ∧ c.Advances (w.constant value) c' := by
  have split : literal = (do
      let stored ← (do let (w, bytes) ← constant
                       return (bytes.signed, w) : Decoder (Int × Width))
      return .ofConstant stored.1 stored.2) := by
    simp [literal]
  rw [split, reads_bind]
  simp only [Prod.exists, reads_pure, reads_signed]
  constructor
  · rintro ⟨value, w, _, ⟨inRange, advance⟩, rfl, rfl⟩
    exact ⟨value, w, rfl, inRange, advance⟩
  · rintro ⟨value, w, rfl, inRange, advance⟩
    exact ⟨value, w, c', ⟨inRange, advance⟩, rfl, rfl⟩

theorem reads_pointer {size : Nat} {isCode isElse : Bool} {c c' : Cursor} {o : Operand} :
    (pointer size isCode isElse).Reads c o c' ↔ ∃ (target : Nat) (w : Width),
      o = .offset target (some w) isElse none ∧ target < 2 ^ w.bits ∧
      (isCode = true → target ≤ size) ∧ c.Advances (w.constant target) c' := by
  unfold pointer
  simp only [reads_bind, reads_offset, Prod.exists, reads_constant]
  constructor
  · rintro ⟨_, _, ⟨rfl, rfl⟩, w, bs, c₁, ⟨full, advance⟩, h⟩
    by_cases outside : (isCode && decide (size < bs.unsigned)) = true
    · simp only [outside, if_true, reads_bind, reads_fail, false_and, exists_false] at h
    · simp only [outside] at h
      obtain ⟨rfl, rfl⟩ := reads_pure.1 h
      refine ⟨bs.unsigned, w, rfl, ?_, ?_, ?_⟩
      · rw [Width.two_pow_bits, ← full]
        exact Bytes.unsigned_lt bs
      · intro code
        simpa [code] using outside
      · rwa [Width.constant, ← full, Bytes.pack_unsigned]
  · rintro ⟨target, w, rfl, fits, inside, advance⟩
    rw [Width.two_pow_bits] at fits
    refine ⟨_, _, ⟨rfl, rfl⟩, w, Bytes.pack target w.bytes, c', ⟨Bytes.length_pack .., advance⟩, ?_⟩
    rw [Bytes.unsigned_pack_of_lt fits]
    have accepted : ¬ (isCode && decide (size < target)) = true := by
      simpa using inside
    simp only [accepted]
    exact reads_pure.2 ⟨rfl, rfl⟩

end Decoder

end EventScript
