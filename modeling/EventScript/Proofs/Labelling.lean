import EventScript.Proofs.Reachability

namespace EventScript

theorem Data.lowerValue_size_pos {labels : LabelTable} {d : Data} {v : Operand} {piece : Piece}
    (lowered : d.lowerValue labels v = .ok piece) : 0 < piece.size := by
  have positive : 0 < d.width.bytes := by cases d.width <;> decide
  cases v with
  | text bytes span =>
    cases lowered
    simp [Piece.size]
  | int value width span =>
    simp only [lowerValue] at lowered
    split at lowered
    · cases lowered
      simpa [Piece.size, Bytes.length_pack] using positive
    · cases lowered
  | label name width isElse span =>
    simp only [lowerValue] at lowered
    split at lowered
    · cases lowered
      simp [Piece.size]
    · cases lowered
  | offset value width isElse span =>
    cases lowered
    simp [Piece.size, Bytes.length_pack]
  | _ => cases lowered

def Item.IsFilled : Item → Prop
  | .instruction _ => True
  | .data d => d.values ≠ []

theorem Item.IsFilled.size_pos {item : Item} (filled : item.IsFilled) {labels : LabelTable} {code : ItemCode}
    (lowered : item.lower labels = .ok code) : 0 < code.size := by
  cases item with
  | instruction i =>
    obtain ⟨c, -, -, body, -, rfl⟩ := Instruction.lower_eq_ok.1 lowered
    simp [ItemCode.size, Piece.size]
  | data d =>
    obtain ⟨v, vs, some⟩ := List.exists_cons_of_ne_nil filled
    have each := mapM_eq_ok.1 lowered
    rw [some, List.forall₂_cons_left_iff] at each
    obtain ⟨piece, pieces, first, -, rfl⟩ := each
    have positive := Data.lowerValue_size_pos first
    simp only [ItemCode.size, List.map_cons, List.sum_cons]
    omega

theorem Tiles.ascending {data : Bytes} {start stop : Nat} {units : List (Nat × Item)}
    (tiles : Tiles data start stop units) (filled : ∀ unit ∈ units, unit.2.IsFilled) :
    (units.map (·.1)).Pairwise (· < ·) ∧ start ≤ stop ∧ ∀ offset ∈ units.map (·.1), start ≤ offset ∧ offset < stop := by
  induction units generalizing start with
  | nil =>
    obtain rfl : start = stop := tiles
    exact ⟨.nil, le_rfl, by simp⟩
  | cons unit units ih =>
    obtain ⟨rfl, bs, ⟨-, ⟨code, lowered, emitted⟩, -⟩, rest⟩ := tiles
    obtain ⟨here, others⟩ := List.forall_mem_cons.1 filled
    have length := ItemCode.length_emit (emitted [])
    have positive := here.size_pos lowered
    obtain ⟨sorted, le, bounds⟩ := ih rest others
    rw [List.map_cons]
    refine ⟨List.pairwise_cons.2 ⟨fun offset member => ?_, sorted⟩, by omega,
      List.forall_mem_cons.2 ⟨by omega, fun offset member => ?_⟩⟩
    · have := bounds offset member
      omega
    · have := bounds offset member
      omega

theorem Tiles.head?_offsets {data : Bytes} {start stop : Nat} {units : List (Nat × Item)}
    (tiles : Tiles data start stop units) (nonempty : start < stop) : (units.map (·.1)).head? = some start := by
  cases units with
  | nil =>
    obtain rfl : start = stop := tiles
    omega
  | cons unit units =>
    obtain ⟨rfl, -⟩ := tiles
    rfl

namespace Data

def IsTile (d : Data) : Prop := (∃ run, d = ofText run) ∨ ∃ row, row ≠ [] ∧ d = ofRow row

theorem IsTile.values {d : Data} (isTile : d.IsTile) : d.values ≠ [] := by
  rcases isTile with ⟨run, rfl⟩ | ⟨row, nonempty, rfl⟩
  · simp [ofText]
  · simpa [ofRow] using nonempty

theorem isTile_flush {offset : Nat} {row : Bytes} : ∀ unit ∈ flush offset row, unit.2.IsTile := by
  intro unit member
  unfold flush at member
  split at member
  · simp at member
  · rename_i nonempty
    obtain rfl := List.mem_singleton.1 member
    exact .inr ⟨row, by simpa using nonempty, rfl⟩

theorem isTile_tileFrom {offset : Nat} {row bytes : Bytes} :
    ∀ unit ∈ tileFrom offset row bytes, unit.2.IsTile := by
  fun_induction tileFrom offset row bytes with
  | case1 offset row => exact isTile_flush
  | case2 offset row b rest run _ ih =>
    intro unit member
    rcases List.mem_append.1 member with flushed | later
    · exact isTile_flush unit flushed
    · rcases List.mem_cons.1 later with rfl | later
      · exact .inl ⟨run, rfl⟩
      · exact ih unit later
  | case3 offset row b rest _ _ ih =>
    intro unit member
    rcases List.mem_append.1 member with flushed | later
    · exact isTile_flush unit flushed
    · exact ih unit later
  | case4 offset row b rest _ _ ih => exact ih

end Data

theorem exists_mem_zip_drop {l : List Nat} {stop t : Nat} (sorted : l.Pairwise (· < ·)) (below : ∀ o ∈ l, o < stop)
    (member : t ∈ l) : ∃ hi, (t, hi) ∈ l.zip (l.drop 1 ++ [stop]) ∧ t < hi ∧ hi ≤ stop := by
  induction l with
  | nil => simp at member
  | cons a l ih =>
    obtain ⟨first, sorted⟩ := List.pairwise_cons.1 sorted
    obtain ⟨here, others⟩ := List.forall_mem_cons.1 below
    cases l with
    | nil =>
      obtain rfl := List.mem_singleton.1 member
      exact ⟨stop, by simp, here, le_rfl⟩
    | cons b l =>
      rcases List.mem_cons.1 member with rfl | later
      · exact ⟨b, by simp, first b List.mem_cons_self, (others b List.mem_cons_self).le⟩
      · obtain ⟨hi, inZip, bounds⟩ := ih sorted others later
        exact ⟨hi, List.mem_cons_of_mem _ inZip, bounds⟩

namespace Marks

variable {marks : Marks} {s : Script} {units : List (Nat × Item)} {offsets : List Nat}

theorem exists_nameAt? {kind : LabelKind} {offset : Nat} (member : (kind, offset) ∈ marks) :
    ∃ name, marks.nameAt? offset = some name := by
  obtain ⟨best, isBest⟩ := Option.isSome_iff_exists.1 (kindAt?_isSome.2 ⟨kind, member⟩)
  exact ⟨_, by rw [nameAt?, isBest]; rfl⟩

theorem Builds.get?_eq_none (builds : Builds marks units offsets s) {offset : Nat} (new : offset ∉ offsets)
    {name : String} (named : marks.nameAt? offset = some name) : s.labels.get? name = none := by
  by_contra declared
  obtain ⟨binding, found⟩ := Option.ne_none_iff_exists'.1 declared
  obtain ⟨n, offset', here, named', -⟩ := builds.get? found
  exact new (nameAt?_injective named named' ▸ List.mem_of_getElem? here)

theorem Builds.exists_foldlM (builds : Builds marks units (units.map (·.1)) s) {more : List (Nat × Item)}
    (distinct : ((units ++ more).map (·.1)).Nodup)
    (first : units = [] → ∀ unit ∈ more.head?, ∃ name, marks.nameAt? unit.1 = some name) :
    ∃ s', more.foldlM marks.addItem s = .ok s' := by
  induction more generalizing units s with
  | nil => exact ⟨s, rfl⟩
  | cons unit more ih =>
    obtain ⟨s₁, step⟩ : ∃ s₁, marks.addItem s unit = .ok s₁ := by
      cases named : marks.nameAt? unit.1 with
      | some name =>
        have new : unit.1 ∉ units.map (·.1) := by
          rw [List.map_append, List.nodup_append] at distinct
          exact fun before => distinct.2.2 _ before unit.1 (by simp) rfl
        exact ⟨_, addItem_eq_ok.2 (.inl ⟨name, named, builds.get?_eq_none new named, rfl⟩)⟩
      | none =>
        have nonempty : s.blocks ≠ [] := by
          intro empty
          have noUnits : units = [] := by
            have items := builds.items
            rw [Script.items, empty] at items
            exact List.map_eq_nil_iff.1 items.symm
          obtain ⟨name, named'⟩ := first noUnits unit rfl
          simp [named] at named'
        obtain ⟨front, last, split⟩ := (List.eq_nil_or_concat s.blocks).resolve_left nonempty
        rw [List.concat_eq_append] at split
        exact ⟨_, addItem_eq_ok.2 (.inr ⟨named, front, last, split, rfl⟩)⟩
    have single : [unit].foldlM marks.addItem s = .ok s₁ := by
      rw [List.foldlM_cons, step]
      rfl
    obtain ⟨s', rest⟩ := ih (builds.foldlM single).1 (by simpa using distinct) (by simp)
    exact ⟨s', by rw [List.foldlM_cons, step]; exact rest⟩

theorem foldlM_addEntry_resolved
    (declared : ∀ reference ∈ s.labels.references, ∃ binding, s.labels.get? reference.1 = some binding)
    (entries : List (EntryPoint × Nat)) : (do
      let s ← entries.foldlM marks.addEntry s
      s.labels.resolveAll
      return s : Except Error Script) = entries.foldlM marks.addEntry s := by
  cases entered : entries.foldlM marks.addEntry s with
  | error e => rfl
  | ok s' =>
    obtain ⟨more, rfl, -⟩ := foldlM_addEntry entered
    have resolved := mapError_eq_ok (f := Error.ofResolution) |>.2 (LabelTable.resolveAll_eq_ok.2 declared)
    exact bind_eq_ok.2 ⟨_, rfl, bind_eq_ok.2 ⟨(), resolved, rfl⟩⟩

end Marks

namespace Recovery

variable {r : Recovery} {marks : Marks}

theorem filled_rawUnits {region : Region} : ∀ unit ∈ r.rawUnits marks region, unit.2.IsFilled := by
  intro unit member
  cases region with
  | code d =>
    obtain rfl := List.mem_singleton.1 member
    exact True.intro
  | gap start stop =>
    simp only [rawUnits, units, List.mem_flatMap, List.mem_map] at member
    obtain ⟨_, -, tile, inTiles, rfl⟩ := member
    exact (Data.isTile_tileFrom tile inTiles).values

theorem Ordered.ascending (ordered : r.Ordered) : (r.scriptUnits.map (·.1)).Pairwise (· < ·) ∧
    ∀ offset ∈ r.scriptUnits.map (·.1), offset < r.data.length := by
  have filled : ∀ unit ∈ r.scriptRawUnits, unit.2.IsFilled := by
    intro unit member
    obtain ⟨region, -, inRegion⟩ := List.mem_flatMap.1 member
    exact filled_rawUnits unit inRegion
  obtain ⟨sorted, -, bounds⟩ := Tiles.ascending ordered.tiles filled
  rw [scriptUnits_offsets]
  exact ⟨sorted, fun offset member => (bounds offset member).2⟩

theorem mem_units_gap {start stop t : Nat} (inside : stop ≤ r.data.length) (low : start ≤ t) (high : t < stop)
    (marked : (marks.kindAt? t).isSome = true) : t ∈ (r.units marks (.gap start stop)).map (·.1) := by
  obtain ⟨hi, isCut, lt, le⟩ : ∃ hi, (t, hi) ∈ marks.cuts start stop ∧ t < hi ∧ hi ≤ stop := by
    refine exists_mem_zip_drop (List.Pairwise.filter _ List.pairwise_lt_range') (fun o member => ?_)
      (List.mem_filter.2 ⟨List.mem_range'_1.2 ⟨low, by omega⟩, marked⟩)
    have := List.mem_range'_1.1 (List.mem_filter.1 member).1
    omega
  have tiled := Data.tiles_tile (r.slice_prefix t hi)
  rw [length_slice lt.le (by omega)] at tiled
  obtain ⟨unit, inTile, same⟩ := List.mem_map.1 (List.mem_of_mem_head? (tiled.head?_offsets lt))
  exact List.mem_map.2 ⟨unit, List.mem_flatMap.2 ⟨(t, hi), isCut, inTile⟩, same⟩

theorem regionsFrom_cases {size start t : Nat} {code : List Decoded} (bounds : ∀ d ∈ code, d.offset ≤ size)
    (low : start ≤ t) (high : t < size) (outside : ∀ d ∈ code, ¬ (d.offset < t ∧ t < d.stop)) :
    (∃ d ∈ code, d.offset = t) ∨
      ∃ lo hi, .gap lo hi ∈ regionsFrom size start code ∧ lo ≤ t ∧ t < hi ∧ hi ≤ size := by
  induction code generalizing start with
  | nil =>
    refine .inr ⟨start, size, ?_, low, high, le_rfl⟩
    rw [regionsFrom, if_pos (by omega)]
    exact List.mem_singleton.2 rfl
  | cons d code ih =>
    obtain ⟨bound, bounds⟩ := List.forall_mem_cons.1 bounds
    obtain ⟨here, outside⟩ := List.forall_mem_cons.1 outside
    rcases Nat.lt_trichotomy t d.offset with before | same | after
    · refine .inr ⟨start, d.offset, ?_, low, before, bound⟩
      rw [regionsFrom, if_pos (by omega)]
      exact List.mem_cons_self
    · exact .inl ⟨d, List.mem_cons_self, same.symm⟩
    · have next : d.stop ≤ t := by omega
      rcases ih bounds next outside with ⟨e, member, same⟩ | ⟨lo, hi, member, between⟩
      · exact .inl ⟨e, List.mem_cons_of_mem _ member, same⟩
      · refine .inr ⟨lo, hi, ?_, between⟩
        rw [regionsFrom]
        exact List.mem_append_right _ (List.mem_cons_of_mem _ member)

theorem Ordered.mem_offsets (ordered : r.Ordered) {t : Nat} (notRaw : r.isRaw t = false)
    (marked : (r.marks.kindAt? t).isSome = true) : t ∈ r.scriptUnits.map (·.1) ++ [r.data.length] := by
  simp only [isRaw, isInside, Bool.or_eq_false_iff, decide_eq_false_iff_not, Nat.not_lt,
    List.any_eq_false, Bool.and_eq_true, decide_eq_true_eq, not_and] at notRaw
  rcases Nat.lt_or_eq_of_le notRaw.1 with before | atEnd
  · refine List.mem_append_left _ ?_
    have inRegion {region : Region} (member : region ∈ r.regions)
        (here : t ∈ (r.units r.marks region).map (·.1)) : t ∈ r.scriptUnits.map (·.1) := by
      obtain ⟨unit, inUnits, same⟩ := List.mem_map.1 here
      exact List.mem_map.2 ⟨unit, List.mem_flatMap.2 ⟨region, member, inUnits⟩, same⟩
    rcases regionsFrom_cases (fun d member => (ordered.each d member).inside.le) (Nat.zero_le t) before
      (fun d member inside => absurd inside.2 (Nat.not_lt.2 (notRaw.2 d member inside.1))) with
      ⟨d, member, rfl⟩ | ⟨lo, hi, member, low, high, inside⟩
    · exact inRegion (code_mem_regionsFrom member) (List.mem_singleton.2 rfl)
    · exact inRegion member (mem_units_gap inside low high marked)
  · exact List.mem_append_right _ (List.mem_singleton.2 atEnd)

theorem Ordered.nameAt?_zero (ordered : r.Ordered) (nonempty : 0 < r.data.length)
    (first : ∀ d ∈ r.code, d.offset = 0 → ∃ kind, (kind, 0) ∈ r.codeMarks) :
    ∃ name, r.marks.nameAt? 0 = some name := by
  rcases regionsFrom_cases (fun d member => (ordered.each d member).inside.le) le_rfl nonempty (by simp) with
    ⟨d, member, atStart⟩ | ⟨lo, hi, member, low, -⟩
  · obtain ⟨kind, isMark⟩ := first d member atStart
    exact Marks.exists_nameAt? (List.mem_append_left _ isMark)
  · obtain rfl : lo = 0 := Nat.le_zero.1 low
    have isGap : 0 ∈ r.gapStarts := List.mem_filterMap.2 ⟨.gap 0 hi, member, rfl⟩
    exact Marks.exists_nameAt? (List.mem_append_right _ (List.mem_map.2 ⟨0, List.mem_append_right _ isGap, rfl⟩))

theorem nameAt?_of_target {t : Nat} (member : t ∈ r.targets) (notRaw : r.isRaw t = false) :
    ∃ name, r.marks.nameAt? t = some name := by
  have asked : (.data, t) ∈ r.marks := List.mem_append_right _ (List.mem_map.2
    ⟨t, List.mem_append_left _ (List.mem_filter.2 ⟨member, by simp [notRaw]⟩), rfl⟩)
  exact Marks.exists_nameAt? asked

theorem Ordered.exists_blocks (ordered : r.Ordered)
    (first : ∀ d ∈ r.code, d.offset = 0 → ∃ kind, (kind, 0) ∈ r.codeMarks) (target : Target) : ∃ s,
      (do let s ← r.scriptUnits.foldlM r.marks.addItem ⟨target, [], [], {}⟩
          match r.marks.nameAt? r.data.length with
          | some name => s.addBlock name
          | none => pure s : Except Error Script) = .ok s ∧
        r.marks.Builds r.scriptUnits (r.scriptUnits.map (·.1) ++ [r.data.length]) s ∧ s.target = target ∧
          s.entries = [] ∧ s.labels.references = [] := by
  obtain ⟨sorted, below⟩ := ordered.ascending
  have distinct : (r.scriptUnits.map (·.1)).Nodup := sorted.imp Nat.ne_of_lt
  obtain ⟨s₁, folded⟩ : ∃ s₁, r.scriptUnits.foldlM r.marks.addItem ⟨target, [], [], {}⟩ = .ok s₁ := by
    refine (Marks.builds_nil target).exists_foldlM (by simpa using distinct) fun _ unit isFirst => ?_
    have tiles : Tiles r.data 0 r.data.length r.scriptRawUnits := ordered.tiles
    have nonempty : 0 < r.data.length :=
      Nat.zero_lt_of_lt (below unit.1 (List.mem_map_of_mem (List.mem_of_mem_head? isFirst)))
    have start := tiles.head?_offsets nonempty
    rw [← scriptUnits_offsets, List.head?_map, isFirst] at start
    rw [show unit.1 = 0 from Option.some.inj start]
    exact ordered.nameAt?_zero nonempty first
  obtain ⟨builds, sameTarget, noEntries, fresh⟩ := (Marks.builds_nil target).foldlM folded
  cases atEnd : r.marks.nameAt? r.data.length with
  | none => exact ⟨s₁, bind_eq_ok.2 ⟨s₁, folded, rfl⟩, builds.unnamed atEnd, sameTarget, noEntries, fresh⟩
  | some name =>
    have undeclared := builds.get?_eq_none (fun member => absurd (below _ member) (Nat.lt_irrefl _)) atEnd
    have closed := builds.open (by simp) atEnd undeclared []
    rw [List.append_nil] at closed
    exact ⟨_, bind_eq_ok.2 ⟨s₁, folded, mapError_eq_ok.2 (Script.addBlock_eq_ok.2 ⟨undeclared, rfl⟩)⟩, closed,
      sameTarget, noEntries, fresh⟩

/-- The script has all its blocks whatever its entry points are, so these alone decide whether it can
be built. -/
theorem Ordered.exists_script_eq (ordered : r.Ordered)
    (first : ∀ d ∈ r.code, d.offset = 0 → ∃ kind, (kind, 0) ∈ r.codeMarks) (target : Target) :
    ∃ s, s.target = target ∧ s.entries = [] ∧
      ∀ entries, r.script target entries = entries.foldlM r.marks.addEntry s := by
  obtain ⟨s, built, builds, sameTarget, noEntries, fresh⟩ := ordered.exists_blocks first target
  have named : (r.targets.filter fun t => !r.isRaw t).find? (fun t => (r.marks.nameAt? t).isNone) = none := by
    refine List.find?_eq_none.2 fun t inTargets => ?_
    obtain ⟨member, notRaw⟩ := List.mem_filter.1 inTargets
    obtain ⟨name, isName⟩ := nameAt?_of_target member (by simpa using notRaw)
    simp [isName]
  have declared : ∀ t ∈ r.targets.filter fun t => !r.isRaw t,
      ∃ binding, s.labels.get? ((r.marks.nameAt? t).getD "") = some binding := by
    intro t inTargets
    obtain ⟨member, notRaw⟩ := List.mem_filter.1 inTargets
    simp only [Bool.not_eq_true'] at notRaw
    obtain ⟨name, isName⟩ := nameAt?_of_target member notRaw
    have marked : (r.marks.kindAt? t).isSome = true := by
      obtain ⟨kind, isKind, -⟩ := Option.map_eq_some_iff.1 isName
      rw [isKind]
      rfl
    rw [isName]
    exact builds.declared (ordered.mem_offsets notRaw marked) isName
  refine ⟨(r.targets.filter fun t => !r.isRaw t).foldl
    (fun s t => s.addReference ((r.marks.nameAt? t).getD "")) s, ?_, ?_, fun entries => ?_⟩
  · rw [foldl_addReference]
    exact sameTarget
  · rw [foldl_addReference]
    exact noEntries
  · have split : r.script target entries = (do
        let s ← (do
          let s ← r.scriptUnits.foldlM r.marks.addItem ⟨target, [], [], {}⟩
          match r.marks.nameAt? r.data.length with
            | some name => s.addBlock name
            | none => pure s : Except Error Script)
        let s ← entries.foldlM r.marks.addEntry ((r.targets.filter fun t => !r.isRaw t).foldl
          (fun s t => s.addReference ((r.marks.nameAt? t).getD "")) s)
        s.labels.resolveAll
        return s) := by
      simp only [script, named, bind_assoc]
      cases r.marks.nameAt? r.data.length <;> rfl
    rw [split, built]
    refine Marks.foldlM_addEntry_resolved (fun reference member => ?_) entries
    rw [foldl_addReference] at member ⊢
    dsimp only at member
    rw [fresh, List.nil_append] at member
    obtain ⟨t, inTargets, rfl⟩ := List.mem_map.1 member
    exact declared t inTargets

variable {data : Bytes} {seeds : List Seed}

theorem mark_zero_of_ofSeeds (recovered : ofSeeds data seeds = .ok r) :
    ∀ d ∈ r.code, d.offset = 0 → ∃ kind, (kind, 0) ∈ r.codeMarks := by
  have marked {p : Nat} (reached : Reachable data seeds p) (atStart : p = 0) : ∃ kind, (kind, 0) ∈ r.codeMarks := by
    cases reached with
    | seed given =>
      obtain ⟨starts, found, checked, -, rfl⟩ := ofSeeds_eq_ok.1 recovered
      obtain ⟨mark, inStarts, same⟩ := List.mem_map.1 (List.mem_reverse.1 ((mem_stack checked).2 ⟨_, given⟩))
      exact ⟨mark.1, List.mem_append_left _ (atStart ▸ same ▸ inStarts)⟩
    | next _ _ decoded _ =>
      have positive := (Instruction.decode_bounds decoded).1
      omega
    | target reached inside decoded leads =>
      have member := (mem_code_iff recovered (d := ⟨_, _, _⟩)).2 ⟨⟨inside, decoded⟩, reached⟩
      exact ⟨_, List.mem_append_right _ (List.mem_flatMap.2 ⟨_, member, atStart ▸ leads⟩)⟩
  exact fun d member => marked (reachable_of_mem recovered member)

/-- From the seeds, all of the script but its entry points can be built. -/
theorem exists_script_of_ofSeeds (recovered : ofSeeds data seeds = .ok r) (target : Target) :
    ∃ s, s.target = target ∧ s.entries = [] ∧
      ∀ entries, r.script target entries = entries.foldlM r.marks.addEntry s :=
  (ofSeeds_ordered recovered).2.exists_script_eq (mark_zero_of_ofSeeds recovered) target

end Recovery

end EventScript
