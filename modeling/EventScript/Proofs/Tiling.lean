import EventScript.Proofs.Exploration

namespace EventScript

def Item.mapReferences (f : Operand → Operand) : Item → Item
  | .instruction i => .instruction { i with operands := Operand.mapLeavesAll f i.operands }
  | .data d => .data d

def Item.IsRaw (size : Nat) : Item → Prop
  | .instruction i => i.Readable size
  | .data d => ∀ v ∈ d.values, v.isReference = false

/-- The item is stored at `offset` as `bs`, wherever the blocks of its script are. -/
structure Item.Occupies (data : Bytes) (offset : Nat) (item : Item) (bs : Bytes) : Prop where
  isRaw : item.IsRaw data.length
  stored : ∃ code, item.lower {} = .ok code ∧
    ∀ addresses, code.emit addresses (offset + bs.length) offset = .ok bs
  inside : bs <+: data.drop offset

/-- The items cover the buffer from `start` to `stop`. -/
def Tiles (data : Bytes) : Nat → Nat → List (Nat × Item) → Prop
  | start, stop, [] => start = stop
  | start, stop, (offset, item) :: units => offset = start ∧ ∃ bs, item.Occupies data offset bs ∧
      Tiles data (offset + bs.length) stop units

theorem Tiles.append {data : Bytes} {start middle stop : Nat} {units units' : List (Nat × Item)}
    (first : Tiles data start middle units) (second : Tiles data middle stop units') :
    Tiles data start stop (units ++ units') := by
  induction units generalizing start with
  | nil =>
    obtain rfl : start = middle := first
    exact second
  | cons unit units ih =>
    obtain ⟨rfl, bs, occupies, rest⟩ := first
    exact ⟨rfl, bs, occupies, ih rest⟩

theorem Tiles.singleton {data : Bytes} {offset : Nat} {item : Item} {bs : Bytes}
    (occupies : item.Occupies data offset bs) :
    Tiles data offset (offset + bs.length) [(offset, item)] :=
  ⟨rfl, bs, occupies, rfl⟩

theorem Decoded.occupies {data : Bytes} {d : Decoded} (valid : d.Valid data) :
    ∃ bs, Item.Occupies data d.offset (.instruction d.instruction) bs ∧ d.offset + bs.length = d.stop := by
  obtain ⟨readable, code, bs, lowered, emitted, length, inside⟩ :=
    (Instruction.decode_eq_ok {} []).1 valid.decoded
  refine ⟨bs, ⟨readable, ⟨code, lowered, fun addresses => ?_⟩, inside⟩, by rw [length, stop]⟩
  obtain ⟨-, code', bs', lowered', emitted', length', inside'⟩ :=
    (Instruction.decode_eq_ok {} addresses).1 valid.decoded
  obtain rfl : code = code' := Except.ok.inj (lowered.symm.trans lowered')
  obtain rfl : bs = bs' :=
    List.IsPrefix.eq_of_length (List.prefix_of_prefix_length_le inside inside' (by omega)) (by omega)
  rw [length]
  exact emitted'

namespace Data

variable {data : Bytes}

theorem occupies_of_spells {d : Data} {offset : Nat} {bs : Bytes} {code : ItemCode}
    (noReference : ∀ v ∈ d.values, v.isReference = false) (lowered : d.lower {} = .ok code)
    (spells : code.Spells bs) (inside : bs <+: data.drop offset) :
    Item.Occupies data offset (.data d) bs :=
  ⟨noReference, ⟨code, lowered, fun _ => ItemCode.emit_of_spells spells⟩, inside⟩

theorem occupies_ofText {offset : Nat} {run : Bytes} (inside : run ++ [0] <+: data.drop offset) :
    Item.Occupies data offset (.data (ofText run)) (run ++ [0]) :=
  occupies_of_spells (by simp [ofText, Operand.isReference]) rfl (ItemCode.spells_singleton.2 rfl) inside

theorem occupies_ofRow {offset : Nat} {row : Bytes} (inside : row <+: data.drop offset) :
    Item.Occupies data offset (.data (ofRow row)) row := by
  have single (b : UInt8) : Bytes.pack b.toNat 1 = [b] := by simpa [Bytes.unsigned] using Bytes.pack_unsigned [b]
  have lowered : (ofRow row).lower {} = .ok (row.map fun b => .bytes [b]) := by
    refine mapM_eq_ok.2 (List.forall₂_map_left_iff.2 (List.forall₂_map_right_iff.2
      (List.forall₂_same.2 fun b _ => ?_)))
    have small := b.toNat_lt
    have fits : Bytes.fits b.toNat 1 = true := by
      simp [Bytes.fits]
      omega
    simp [lowerValue, ofRow, Width.bytes, fits, single]
  refine occupies_of_spells (by simp [ofRow, Operand.isReference]) lowered
    ⟨row.map fun b => [b], by simp, ?_⟩ inside
  rw [← List.flatMap_def, List.flatMap_singleton']

def units (ds : List (Nat × Data)) : List (Nat × Item) := ds.map fun (offset, d) => (offset, .data d)

theorem units_append (ds ds' : List (Nat × Data)) : units (ds ++ ds') = units ds ++ units ds' :=
  List.map_append

theorem tiles_flush {offset : Nat} {row : Bytes} (before : row.length ≤ offset)
    (inside : row <+: data.drop (offset - row.length)) :
    Tiles data (offset - row.length) offset (units (flush offset row)) := by
  unfold flush
  cases row with
  | nil => exact rfl
  | cons b row =>
    have tiled := Tiles.singleton (occupies_ofRow inside)
    rw [Nat.sub_add_cancel before] at tiled
    exact tiled

theorem textAt?_eq_some {bytes run : Bytes} (found : textAt? bytes = some run) :
    ∃ rest, bytes = run ++ 0 :: rest := by
  unfold textAt? at found
  simp only [Option.ite_none_right_eq_some, Option.some.injEq] at found
  obtain ⟨⟨-, stops⟩, rfl⟩ := found
  obtain ⟨after, split⟩ := List.takeWhile_prefix (p := isPrintable) (l := bytes)
  have dropped : bytes.drop (bytes.takeWhile isPrintable).length = after := by
    nth_rewrite 2 [← split]
    exact List.drop_left
  rw [dropped] at stops
  obtain ⟨rest, rfl⟩ := List.head?_eq_some_iff.1 stops
  exact ⟨rest, split.symm⟩

theorem prefix_drop {offset : Nat} {a b : Bytes} (inside : a ++ b <+: data.drop offset) :
    b <+: data.drop (offset + a.length) := by
  obtain ⟨rest, whole⟩ := inside
  rw [← List.drop_drop, ← whole, List.append_assoc, List.drop_left]
  exact ⟨rest, rfl⟩

theorem tiles_tileFrom {offset : Nat} {row bytes : Bytes} (before : row.length ≤ offset)
    (inside : row ++ bytes <+: data.drop (offset - row.length)) :
    Tiles data (offset - row.length) (offset + bytes.length) (units (tileFrom offset row bytes)) := by
  have first : row <+: data.drop (offset - row.length) := (List.prefix_append ..).trans inside
  have here : bytes <+: data.drop offset := by
    have := prefix_drop inside
    rwa [Nat.sub_add_cancel before] at this
  -- The row holds the bytes before the offset that no item has yet, so its start stays where it is.
  fun_induction tileFrom offset row bytes with
  | case1 offset row => exact tiles_flush before first
  | case2 offset row b rest run found ih =>
    obtain ⟨after, split⟩ := textAt?_eq_some found
    have dropped : rest.drop run.length = after := by
      have := congrArg (List.drop (run.length + 1)) split
      simpa using this
    have inText : run ++ [0] <+: data.drop offset := by
      refine List.IsPrefix.trans ⟨after, ?_⟩ here
      rw [split, List.append_assoc, List.singleton_append]
    have next : after <+: data.drop (offset + (run ++ [0]).length) := by
      refine prefix_drop ?_
      rw [List.append_assoc, List.singleton_append, ← split]
      exact here
    rw [dropped] at ih ⊢
    rw [List.length_append, List.length_singleton, ← Nat.add_assoc] at next
    have total : offset + (b :: rest).length = offset + run.length + 1 + after.length := by
      rw [split]
      simp
      omega
    rw [units_append, total]
    refine (tiles_flush before first).append ⟨rfl, _, occupies_ofText inText, ?_⟩
    rw [List.length_append, List.length_singleton, ← Nat.add_assoc]
    exact ih (Nat.zero_le _) next (List.nil_prefix) next
  | case3 offset row b rest _ full ih =>
    have rowInside : row ++ [b] <+: data.drop (offset - row.length) :=
      List.IsPrefix.trans ⟨rest, by simp⟩ inside
    have shifted : offset + 1 - (row ++ [b]).length = offset - row.length := by simp
    have next : rest <+: data.drop (offset + 1) := prefix_drop (a := [b]) here
    have flushed : Tiles data (offset + 1 - (row ++ [b]).length) (offset + 1)
        (units (flush (offset + 1) (row ++ [b]))) :=
      tiles_flush (by simpa using before) (by rwa [shifted])
    rw [shifted] at flushed
    rw [units_append, List.length_cons, Nat.add_comm rest.length, ← Nat.add_assoc]
    exact flushed.append (ih (Nat.zero_le _) next List.nil_prefix next)
  | case4 offset row b rest _ notFull ih =>
    have shifted : offset + 1 - (row ++ [b]).length = offset - row.length := by simp
    rw [shifted] at ih
    rw [List.length_cons, Nat.add_comm rest.length, ← Nat.add_assoc]
    exact ih (by simpa using before) (by simpa using inside)
      (List.IsPrefix.trans ⟨rest, by simp⟩ inside) (prefix_drop (a := [b]) here)

theorem tiles_tile {offset : Nat} {bytes : Bytes} (inside : bytes <+: data.drop offset) :
    Tiles data offset (offset + bytes.length) (units (tile offset bytes)) :=
  @tiles_tileFrom data offset [] bytes (Nat.zero_le _) inside

end Data

namespace Marks

theorem foldl_merge_isSome (kinds : List LabelKind) (best : Option LabelKind) :
    (kinds.foldl (fun best kind => some (best.elim kind (·.merge kind))) best).isSome =
      (best.isSome || !kinds.isEmpty) := by
  induction kinds generalizing best with
  | nil => simp
  | cons kind kinds ih =>
    rw [List.foldl_cons, ih]
    simp

theorem kindAt?_isSome {marks : Marks} {offset : Nat} :
    (marks.kindAt? offset).isSome = true ↔ ∃ kind, (kind, offset) ∈ marks := by
  unfold kindAt?
  rw [foldl_merge_isSome]
  simp only [Option.isSome_none, Bool.false_or, Bool.not_eq_true', List.isEmpty_eq_false_iff,
    ne_eq, List.map_eq_nil_iff, List.filter_eq_nil_iff, beq_iff_eq, Prod.forall, not_forall,
    Decidable.not_not]
  constructor
  · rintro ⟨kind, _, member, rfl⟩
    exact ⟨kind, member⟩
  · rintro ⟨kind, member⟩
    exact ⟨kind, offset, member, rfl⟩

end Marks

namespace Recovery

variable {r : Recovery} {marks : Marks}

theorem slice_prefix (start stop : Nat) : r.slice start stop <+: r.data.drop start :=
  List.take_prefix ..

theorem length_slice {start stop : Nat} (le : start ≤ stop) (inside : stop ≤ r.data.length) :
    start + (r.slice start stop).length = stop := by
  simp only [slice, List.length_take, List.length_drop]
  omega

theorem tiles_cuts {start stop : Nat} {starts : List Nat} (sorted : (start :: starts).Pairwise (· < ·))
    (below : ∀ o ∈ start :: starts, o < stop) (inside : stop ≤ r.data.length) :
    Tiles r.data start stop (((start :: starts).zip (starts ++ [stop])).flatMap fun (lo, hi) =>
      Data.units (Data.tile lo (r.slice lo hi))) := by
  induction starts generalizing start with
  | nil =>
    have le : start ≤ stop := Nat.le_of_lt (below start (by simp))
    have tiled := Data.tiles_tile (r.slice_prefix start stop)
    rw [length_slice le inside] at tiled
    simpa using tiled
  | cons next starts ih =>
    have lt : start < next := (List.pairwise_cons.1 sorted).1 next (by simp)
    have nextBelow := below next (by simp)
    have tiled := Data.tiles_tile (r.slice_prefix start next)
    rw [length_slice lt.le (by omega)] at tiled
    exact tiled.append (ih (List.pairwise_cons.1 sorted).2
      fun o member => below o (List.mem_cons_of_mem _ member))

theorem tiles_gap {start stop : Nat} (lt : start < stop) (inside : stop ≤ r.data.length)
    (marked : (marks.kindAt? start).isSome = true) :
    Tiles r.data start stop (r.units marks (.gap start stop)) := by
  obtain ⟨n, rfl⟩ := Nat.exists_eq_add_of_lt lt
  let isMarked (o : Nat) : Bool := (marks.kindAt? o).isSome
  have starts : (List.range' start (start + n + 1 - start)).filter isMarked =
      start :: (List.range' (start + 1) n).filter isMarked := by
    rw [show start + n + 1 - start = n + 1 by omega, List.range'_succ,
      List.filter_cons_of_pos (p := isMarked) marked]
  have cuts : marks.cuts start (start + n + 1) = (start :: (List.range' (start + 1) n).filter isMarked).zip
      ((List.range' (start + 1) n).filter isMarked ++ [start + n + 1]) := by
    unfold Marks.cuts
    rw [starts]
    rfl
  have sorted := (List.pairwise_lt_range' (s := start) (n := n + 1)).filter isMarked
  rw [List.range'_succ, List.filter_cons_of_pos (p := isMarked) marked] at sorted
  rw [units, cuts]
  refine tiles_cuts sorted (fun o member => ?_) inside
  rcases List.mem_cons.1 member with rfl | later
  · exact lt
  · have := List.mem_range'_1.1 (List.mem_filter.1 later).1
    omega

def rawUnits (r : Recovery) (marks : Marks) : Region → List (Nat × Item)
  | .code d => [(d.offset, .instruction d.instruction)]
  | .gap start stop => r.units marks (.gap start stop)

theorem units_eq_map (r : Recovery) (marks : Marks) (region : Region) :
    r.units marks region = (r.rawUnits marks region).map fun unit =>
      (unit.1, unit.2.mapReferences (r.nameTarget marks)) := by
  cases region with
  | code d => rfl
  | gap start stop =>
    simp only [rawUnits, units, List.map_flatMap, List.map_map]
    rfl

theorem tiles_regionsFrom {start : Nat} {code : List Decoded} (valid : ∀ d ∈ code, d.Valid r.data)
    (ordered : code.Pairwise fun d e => d.stop ≤ e.offset) (after : ∀ d ∈ code, start ≤ d.offset)
    (inside : start ≤ r.data.length)
    (marked : ∀ lo hi, .gap lo hi ∈ regionsFrom r.data.length start code →
      (marks.kindAt? lo).isSome = true) :
    Tiles r.data start r.data.length ((regionsFrom r.data.length start code).flatMap (r.rawUnits marks)) := by
  induction code generalizing start with
  | nil =>
    unfold regionsFrom at marked ⊢
    split
    · rename_i lt
      rw [if_pos lt] at marked
      simpa [rawUnits] using tiles_gap lt le_rfl (marked start r.data.length (by simp))
    · have same : start = r.data.length := by omega
      exact same
  | cons d code ih =>
    have here := valid d (by simp)
    obtain ⟨bs, occupies, stop⟩ := Decoded.occupies here
    have instruction := Tiles.singleton occupies
    rw [stop] at instruction
    have rest : Tiles r.data d.stop r.data.length
        ((regionsFrom r.data.length d.stop code).flatMap (r.rawUnits marks)) :=
      ih (fun e member => valid e (List.mem_cons_of_mem _ member))
        (List.pairwise_cons.1 ordered).2 (List.pairwise_cons.1 ordered).1 here.stop_le
        fun lo hi member => marked lo hi (by simp [regionsFrom, member])
    have le := after d (by simp)
    unfold regionsFrom at marked ⊢
    rw [List.flatMap_append, List.flatMap_cons]
    refine Tiles.append ?_ (instruction.append rest)
    split
    · rename_i lt
      rw [if_pos lt] at marked
      simpa [rawUnits] using tiles_gap lt here.inside.le (marked start d.offset (by simp))
    · have same : start = d.offset := by omega
      exact same

/-- The items of the recovery cover the buffer. -/
theorem Ordered.tiles (ordered : r.Ordered) :
    Tiles r.data 0 r.data.length (r.regions.flatMap (r.rawUnits r.marks)) := by
  refine tiles_regionsFrom ordered.each ordered.ordered (fun _ _ => Nat.zero_le _) (Nat.zero_le _)
    fun lo hi member => Marks.kindAt?_isSome.2 ⟨.data, ?_⟩
  simp only [marks, List.mem_append, List.mem_map, Prod.mk.injEq, true_and, exists_eq_right]
  exact .inr (.inr (List.mem_filterMap.2 ⟨.gap lo hi, member, rfl⟩))

end Recovery

end EventScript
