import EventScript.Proofs.Tiling

namespace EventScript

namespace Data

def valueBytes : Operand → Bytes
  | .text bytes _ => bytes ++ [0]
  | .int value _ _ => [UInt8.ofNat value.toNat]
  | _ => []

/-- The bytes of byte data. -/
def stored (d : Data) : Bytes := d.values.flatMap valueBytes

/-- Byte data of one string of printable bytes, or of a row of bytes. -/
inductive IsLine : Data → Prop
  | text (run : Bytes) (long : 2 ≤ run.length) (printable : ∀ b ∈ run, isPrintable b = true) :
    IsLine ⟨.byte, [.text run none], none⟩
  | row (values : List Int) (nonempty : 1 ≤ values.length) (short : values.length ≤ 16)
    (bytes : ∀ v ∈ values, 0 ≤ v ∧ v ≤ 255) : IsLine ⟨.byte, values.map (.int · none none), none⟩

theorem stored_ofText (run : Bytes) : (ofText run).stored = run ++ [0] := by
  simp [stored, ofText, valueBytes]

theorem stored_ofRow (row : Bytes) : (ofRow row).stored = row := by
  simp [stored, ofRow, valueBytes, List.flatMap_map]

theorem isLine_ofRow {row : Bytes} (nonempty : row ≠ []) (short : row.length ≤ rowLength) : (ofRow row).IsLine := by
  have values : ofRow row = ⟨.byte, (row.map fun b => (b.toNat : Int)).map (.int · none none), none⟩ := by
    rw [List.map_map]
    rfl
  rw [values]
  apply IsLine.row
  · rw [List.length_map]
    exact List.length_pos_iff.2 nonempty
  · rwa [List.length_map]
  · intro v member
    obtain ⟨b, -, rfl⟩ := List.mem_map.1 member
    have := b.toNat_lt
    omega

theorem isLine_ofText {bytes run : Bytes} (found : textAt? bytes = some run) : (ofText run).IsLine := by
  unfold textAt? at found
  simp only [Option.ite_none_right_eq_some, Option.some.injEq] at found
  obtain ⟨⟨long, -⟩, rfl⟩ := found
  exact .text _ long (List.all_eq_true.1 List.all_takeWhile)

theorem IsLine.emits {d : Data} (isLine : d.IsLine) (labels : LabelTable) : ∃ code, d.lower labels = .ok code ∧
    ∀ addresses stop address, code.emit addresses stop address = .ok d.stored := by
  cases isLine with
  | text run =>
    refine ⟨[.bytes (run ++ [0])], rfl, fun addresses stop address => ?_⟩
    apply ItemCode.emit_of_spells
    rw [ItemCode.spells_singleton]
    exact List.append_nil _
  | row values nonempty short bytes =>
    refine ⟨values.map fun v => .bytes [UInt8.ofNat v.toNat], ?_, fun addresses stop address => ?_⟩
    · apply mapM_eq_ok.2
      rw [List.forall₂_map_left_iff, List.forall₂_map_right_iff, List.forall₂_same]
      intro v member
      have ⟨nonneg, small⟩ := bytes v member
      have fits : Bytes.fits v 1 = true := by
        simp [Bytes.fits]
        omega
      have byte : v % 256 = v := Int.emod_eq_of_lt nonneg (by omega)
      simp [lowerValue, Width.bytes, fits, Bytes.pack, byte]
    · apply ItemCode.emit_of_spells
      refine ⟨values.map fun v => [UInt8.ofNat v.toNat], by simp, ?_⟩
      rw [stored, List.flatMap_def, List.map_map]
      rfl

/-- The bytes from `offset` on, cut into the parts that the items store. -/
inductive Cut : Nat → Bytes → List (Nat × Data) → Prop
  | nil (offset : Nat) : Cut offset [] []
  | cons {offset : Nat} {d : Data} {bytes : Bytes} {items : List (Nat × Data)} (isLine : d.IsLine)
    (rest : Cut (offset + d.stored.length) bytes items) : Cut offset (d.stored ++ bytes) ((offset, d) :: items)

namespace Cut

variable {offset : Nat} {bytes bytes' : Bytes} {items items' : List (Nat × Data)}

theorem append (first : Cut offset bytes items) (second : Cut (offset + bytes.length) bytes' items') :
    Cut offset (bytes ++ bytes') (items ++ items') := by
  induction first with
  | nil => exact second
  | cons isLine _ ih =>
    rw [List.append_assoc]
    apply Cut.cons isLine
    apply ih
    rwa [List.length_append, ← Nat.add_assoc] at second

theorem flatMap_stored (cut : Cut offset bytes items) : items.flatMap (·.2.stored) = bytes := by
  induction cut with
  | nil => rfl
  | cons _ _ ih => rw [List.flatMap_cons, ih]

theorem isLine (cut : Cut offset bytes items) : ∀ item ∈ items, item.2.IsLine := by
  induction cut with
  | nil => simp
  | cons isLine _ ih => exact List.forall_mem_cons.2 ⟨isLine, ih⟩

theorem offset_eq (cut : Cut offset bytes items) {k start : Nat} {d : Data} (here : items[k]? = some (start, d)) :
    start = offset + ((items.take k).flatMap (·.2.stored)).length := by
  induction cut generalizing k with
  | nil => simp at here
  | @cons offset first bytes items _ _ ih =>
    cases k with
    | zero =>
      simp only [List.getElem?_cons_zero, Option.some.injEq, Prod.mk.injEq] at here
      simp [here.1]
    | succ k =>
      rw [ih (by simpa using here), List.take_succ_cons, List.flatMap_cons, List.length_append, Nat.add_assoc]

end Cut

theorem cut_singleton {d : Data} (isLine : d.IsLine) (offset : Nat) : Cut offset d.stored [(offset, d)] := by
  have cut := Cut.cons isLine (.nil (offset + d.stored.length))
  rwa [List.append_nil] at cut

theorem cut_flush (offset : Nat) {row : Bytes} (short : row.length ≤ rowLength) :
    Cut (offset - row.length) row (flush offset row) := by
  unfold flush
  split
  · rename_i empty
    rw [List.isEmpty_iff.1 empty]
    exact .nil _
  · rename_i nonempty
    have cut := cut_singleton (isLine_ofRow (by simpa using nonempty) short) (offset - row.length)
    rwa [stored_ofRow] at cut

theorem cut_tileFrom {offset : Nat} {row bytes : Bytes} (before : row.length ≤ offset)
    (short : row.length < rowLength) : Cut (offset - row.length) (row ++ bytes) (tileFrom offset row bytes) := by
  fun_induction tileFrom offset row bytes with
  | case1 offset row =>
    rw [List.append_nil]
    exact cut_flush offset short.le
  | case2 offset row b rest run found ih =>
    obtain ⟨after, split⟩ := textAt?_eq_some found
    have dropped : rest.drop run.length = after := by
      have := congrArg (List.drop (run.length + 1)) split
      simpa using this
    rw [dropped] at ih ⊢
    apply (cut_flush offset short.le).append
    rw [Nat.sub_add_cancel before, split]
    have text := cut_singleton (isLine_ofText found) offset
    have next : Cut (offset + (ofText run).stored.length) after (tileFrom (offset + run.length + 1) [] after) := by
      rw [stored_ofText, List.length_append, List.length_singleton, ← Nat.add_assoc]
      exact ih (Nat.zero_le _) (by decide)
    have both := text.append next
    rwa [stored_ofText, List.append_assoc] at both
  | case3 offset row b rest _ full ih =>
    have row_le : (row ++ [b]).length ≤ rowLength := by
      rw [List.length_append, List.length_singleton, full]
    have flushed := cut_flush (offset + 1) row_le
    rw [List.length_append, List.length_singleton, Nat.add_sub_add_right] at flushed
    have next : Cut (offset - row.length + (row ++ [b]).length) rest (tileFrom (offset + 1) [] rest) := by
      rw [List.length_append, List.length_singleton, ← Nat.add_assoc, Nat.sub_add_cancel before]
      exact ih (Nat.zero_le _) (by decide)
    have both := flushed.append next
    rwa [List.append_assoc] at both
  | case4 offset row b rest _ notFull ih =>
    rw [List.length_append, List.length_singleton, Nat.add_sub_add_right, List.append_assoc] at ih
    apply ih
    · omega
    · omega

theorem cut_tile (offset : Nat) (bytes : Bytes) : Cut offset bytes (tile offset bytes) := by
  have cut := @cut_tileFrom offset [] bytes (Nat.zero_le _) (by decide)
  exact cut

end Data

/-- A stretch of the buffer is recovered without loss: the items start at its start and follow each
other, their bytes are those of the stretch in order, and the assembler stores them so. -/
theorem Recovery.tile_slice {r : Recovery} {lo hi : Nat} (le : lo ≤ hi) (inside : hi ≤ r.data.length) :
    (Data.tile lo (r.slice lo hi)).flatMap (·.2.stored) = r.slice lo hi ∧
      (lo < hi → ∃ d items, Data.tile lo (r.slice lo hi) = (lo, d) :: items) ∧
      (∀ k offset d, (Data.tile lo (r.slice lo hi))[k]? = some (offset, d) →
        offset = lo + (((Data.tile lo (r.slice lo hi)).take k).flatMap (·.2.stored)).length) ∧
      ∀ item ∈ Data.tile lo (r.slice lo hi), item.2.IsLine ∧ ∀ labels, ∃ code, item.2.lower labels = .ok code ∧
        ∀ addresses stop address, code.emit addresses stop address = .ok item.2.stored := by
  have cut := Data.cut_tile lo (r.slice lo hi)
  have length := length_slice le inside
  generalize Data.tile lo (r.slice lo hi) = items at cut
  refine ⟨cut.flatMap_stored, fun lt => ?_, fun k offset d here => cut.offset_eq here, fun item member => ?_⟩
  · generalize r.slice lo hi = bytes at cut length
    cases cut with
    | nil =>
      rw [List.length_nil] at length
      omega
    | cons => exact ⟨_, _, rfl⟩
  · exact ⟨cut.isLine item member, (cut.isLine item member).emits⟩

def twoStrings : Recovery := ⟨[1, 65, 66, 0, 67, 68, 0], [], []⟩

theorem Recovery.tile_slice_twoStrings :
    (1 ≤ 6 ∧ 6 ≤ twoStrings.data.length) ∧ (Data.tile 1 (twoStrings.slice 1 6)).map (·.1) = [1, 4] ∧
      (Data.tile 1 (twoStrings.slice 1 6)).flatMap (·.2.stored) = [65, 66, 0, 67, 68] := by
  exact ⟨by decide, by cbv, (tile_slice (by decide) (by decide)).1⟩

end EventScript
