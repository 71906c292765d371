import EventScript.Proofs.Labelling
import EventScript.Proofs.Resolution

namespace EventScript

namespace Decoded

variable {data : Bytes} {ds : List Decoded} {start stop : Nat}

theorem Contiguous.le (contiguous : Contiguous start stop ds) (each : ∀ d ∈ ds, d.Valid data) :
    ∀ d ∈ ds, start ≤ d.offset := by
  induction ds generalizing start with
  | nil => simp
  | cons d ds ih =>
    obtain ⟨rfl, rest⟩ := contiguous
    obtain ⟨valid, others⟩ := List.forall_mem_cons.1 each
    refine List.forall_mem_cons.2 ⟨le_rfl, fun e member => ?_⟩
    exact valid.lt_stop.le.trans (ih rest others e member)

theorem Contiguous.ordered (contiguous : Contiguous start stop ds) (each : ∀ d ∈ ds, d.Valid data) :
    ds.Pairwise fun d e => d.stop ≤ e.offset := by
  induction ds generalizing start with
  | nil => exact .nil
  | cons d ds ih =>
    obtain ⟨-, rest⟩ := contiguous
    obtain ⟨-, others⟩ := List.forall_mem_cons.1 each
    exact List.pairwise_cons.2 ⟨rest.le others, ih rest others⟩

theorem Contiguous.next (contiguous : Contiguous start stop ds) {k : Nat} {d : Decoded}
    (here : ds[k]? = some d) : (ds[k + 1]? = none ∧ d.stop = stop) ∨ ∃ e, ds[k + 1]? = some e ∧ e.offset = d.stop := by
  induction ds generalizing start k with
  | nil => simp at here
  | cons d' ds ih =>
    obtain ⟨-, rest⟩ := contiguous
    cases k with
    | succ k => exact ih rest here
    | zero =>
      cases here
      cases ds with
      | nil => exact .inl ⟨rfl, rest⟩
      | cons e ds => exact .inr ⟨e, rfl, rest.1⟩

end Decoded

theorem Decoded.Contiguous.sound {data : Bytes} {ds : List Decoded} {start stop : Nat}
    (contiguous : Contiguous start stop ds) (each : ∀ d ∈ ds, d.Valid data) : Explore.Sound data ds :=
  ⟨each, (contiguous.ordered each).imp .inl⟩

namespace Recovery

variable {data : Bytes} {ds : List Decoded} {seeds : List Seed} {marks : Marks}

/-- The buffer is code from end to end, and all of it can be reached from the marks. -/
structure Covered (data : Bytes) (marks : Marks) (ds : List Decoded) : Prop where
  each : ∀ d ∈ ds, d.Valid data
  contiguous : Decoded.Contiguous 0 data.length ds
  closed : ∀ d ∈ ds, ∀ t ∈ d.next, t < data.length → ∃ e ∈ ds, e.offset = t
  started : ∀ mark ∈ marks, mark.2 < data.length → ∃ e ∈ ds, e.offset = mark.2
  reached : ∀ P : Decoded → Prop, (∀ d ∈ ds, d.offset ∈ marks.map (·.2) → P d) →
    (∀ d ∈ ds, P d → ∀ e ∈ ds, e.offset ∈ d.next → P e) → ∀ d ∈ ds, P d

/-- Reading from the seeds finds all that can be reached from them. -/
theorem Covered.ofSeeds (covered : Covered data marks ds)
    (checked : seeds.mapM (Seed.check data.length) = .ok marks) :
    ofSeeds data seeds = .ok ⟨data, marks, ds⟩ := by
  obtain ⟨each, contiguous, closed, started, reached⟩ := covered
  have sound := contiguous.sound each
  have stacked : ∀ t ∈ (marks.map (·.2)).reverse, t < data.length → ∃ e ∈ ds, e.offset = t := by
    intro t inStack
    obtain ⟨mark, member, rfl⟩ := List.mem_map.1 (List.mem_reverse.1 inStack)
    exact started mark member
  have nothing : ∀ d ∈ ([] : List Decoded), d ∈ ds := by simp
  obtain ⟨found, explored, subset⟩ := Explore.exists_explore sound closed nothing stacked
  have all : ∀ d ∈ ds, d ∈ found := by
    refine reached (· ∈ found) (fun d member isStart => ?_) fun d _ inFound e member isNext => ?_
    · obtain ⟨e, inFound, same⟩ := Explore.explore_complete explored d.offset
        (List.mem_reverse.2 isStart) (each d member).inside
      exact sound.eq_of_offset (subset e inFound) member same ▸ inFound
    · rcases Explore.explore_closed explored d inFound with before | leads
      · exact absurd before List.not_mem_nil
      · obtain ⟨e', inFound', same⟩ := leads _ isNext (each e member).inside
        exact sound.eq_of_offset (subset e' inFound') member same ▸ inFound'
  have foundSound : Explore.Sound data found := Explore.explore_sound ⟨by simp, .nil⟩ explored
  have perm : found.Perm ds :=
    (List.perm_ext_iff_of_nodup foundSound.nodup sound.nodup).2 fun d => ⟨subset d, all d⟩
  refine ofSeeds_eq_ok.2 ⟨marks, found, checked, explored, ?_⟩
  congr 1
  refine (((List.mergeSort_perm ..).trans perm).eq_of_pairwise (fun d e inD inE before after => ?_)
    (ordered_mergeSort foundSound) (contiguous.ordered each)).symm
  have := (foundSound.each d ((List.mergeSort_perm ..).mem_iff.1 inD)).lt_stop
  have := (each e inE).lt_stop
  omega

end Recovery

namespace Recovery

variable {r : Recovery}

theorem regionsFrom_of_contiguous {size start : Nat} {ds : List Decoded}
    (contiguous : Decoded.Contiguous start size ds) : regionsFrom size start ds = ds.map .code := by
  induction ds generalizing start with
  | nil =>
    obtain rfl : start = size := contiguous
    simp [regionsFrom]
  | cons d ds ih =>
    obtain ⟨rfl, rest⟩ := contiguous
    simp [regionsFrom, ih rest]

theorem scriptRawUnits_of_contiguous (contiguous : Decoded.Contiguous 0 r.data.length r.code) :
    r.scriptRawUnits = r.code.map fun d => (d.offset, .instruction d.instruction) := by
  rw [scriptRawUnits, regions, regionsFrom_of_contiguous contiguous, List.flatMap_map]
  exact List.flatMap_pure_eq_map ..

theorem offsets_of_contiguous (contiguous : Decoded.Contiguous 0 r.data.length r.code) :
    r.scriptUnits.map (·.1) = r.code.map (·.offset) := by
  rw [scriptUnits_offsets, scriptRawUnits_of_contiguous contiguous, List.map_map]
  rfl

end Recovery

namespace Operand

/-- The number of references in the operands. -/
def referenceCount (os : List Operand) : Nat := (walkAll os).countP isReference

theorem referenceCount_cons (o : Operand) (os : List Operand) :
    referenceCount (o :: os) = o.walk.countP isReference + referenceCount os := by
  rw [referenceCount, walkAll, List.countP_append, referenceCount]

theorem referenceCount_map {f : Operand → Operand} {os : List Operand}
    (each : ∀ o ∈ os, (f o).walk.countP isReference = o.walk.countP isReference) :
    referenceCount (os.map f) = referenceCount os := by
  induction os with
  | nil => rfl
  | cons o os ih =>
    obtain ⟨here, others⟩ := List.forall_mem_cons.1 each
    rw [List.map_cons, referenceCount_cons, referenceCount_cons, here, ih others]

theorem countP_walk_leaf {o : Operand} (leaf : ∀ op args span, o ≠ .expr op args span) :
    o.walk.countP isReference = if o.isReference then 1 else 0 := by
  cases o <;> first | exact absurd rfl (leaf _ _ _) | rfl

theorem countP_walk_expr (op : String) (args : List Operand) (span : Option Span) :
    (expr op args span).walk.countP isReference = referenceCount args := by
  rw [walk, List.countP_cons_of_neg (by simp [isReference]), referenceCount]

theorem countP_walk_mapLeaves {change : Operand → Operand} (h : Relabels change) (o : Operand) :
    (o.mapLeaves change).walk.countP isReference = o.walk.countP isReference := by
  induction o using expr_induction with
  | leaf o notExpr =>
    rcases h.mapLeaves_cases o with ⟨isRef, mapped, still, -⟩ | ⟨op, args, span, rfl, -⟩ | ⟨-, mapped⟩
    · have notExpr' : ∀ op args span, change o ≠ .expr op args span := by
        intro op args span changed
        simp [changed, isReference] at still
      rw [mapped, countP_walk_leaf notExpr', countP_walk_leaf notExpr, isRef, still]
    · exact absurd rfl (notExpr op args span)
    · rw [mapped]
  | expr op args span ih =>
    rw [mapLeaves, mapLeavesAll_eq_map, countP_walk_expr, countP_walk_expr]
    exact referenceCount_map ih

theorem referenceCount_mapLeavesAll {change : Operand → Operand} (h : Relabels change) (os : List Operand) :
    referenceCount (mapLeavesAll change os) = referenceCount os := by
  rw [mapLeavesAll_eq_map]
  exact referenceCount_map fun o _ => countP_walk_mapLeaves h o

theorem countP_walk_canonical (o : Operand) :
    o.canonical.walk.countP isReference = o.walk.countP isReference := by
  induction o using expr_induction with
  | leaf o notExpr =>
    cases o <;> first | exact absurd rfl (notExpr _ _ _) | rfl
  | expr op args span ih =>
    rw [canonical, canonicalAll_eq_map, countP_walk_expr, countP_walk_expr]
    exact referenceCount_map ih

theorem length_targets_le (os : List Operand) : (targets os).length ≤ referenceCount os := by
  rw [targets, List.length_filterMap_eq_countP, referenceCount]
  refine List.countP_mono_left fun o _ => ?_
  cases o <;> simp [target?, isReference]

end Operand

namespace Code

theorem slack_le (c : Code) : c.slack ≤ 2 * c.pointers.length := by
  have bound : ∀ n ∈ c.pointers.map room, n ≤ 2 := by
    intro n member
    obtain ⟨p, -, rfl⟩ := List.mem_map.1 member
    unfold room
    split
    · omega
    · split <;> omega
  have sum := List.sum_le_card_nsmul _ _ bound
  rw [List.length_map, nsmul_eq_mul, Nat.cast_id] at sum
  exact Nat.mul_comm .. ▸ sum

theorem length_pointers_le {α : Type} {count : α → Nat} {xs : List α} {c : Code}
    (each : List.Forall₂ (fun x (code : ItemCode) => code.pointers.length ≤ count x) xs c.items) :
    c.pointers.length ≤ (xs.map count).sum := by
  unfold pointers
  generalize c.items = items at each
  induction each with
  | nil => rfl
  | cons head _ ih =>
    rw [List.flatMap_cons, List.length_append, List.map_cons, List.sum_cons]
    omega

end Code

theorem Operand.IsRead.isProper {o : Operand} (isRead : o.IsRead) : o.IsProper := by
  intro op args span inside
  obtain ⟨-, known⟩ := isRead _ inside
  obtain ⟨operator, found, proper⟩ := (Option.any_eq_true _ _).1 known
  obtain ⟨member, name⟩ := Operator.ofName?_eq_some.1 found
  exact ⟨operator, member, name, proper⟩

namespace Instruction

variable {size : Nat} {i : Instruction} {change : Operand → Operand}

theorem isProper_of_command {c : Command} (member : c ∈ Command.all) (name : c.name = i.opcode)
    (message : c.layout = .message → ∃ commands span, i.operands = [.message commands span])
    (operands : c.layout ≠ .message → ∀ o ∈ i.operands, o.IsProper) : i.IsProper where
  operands o isOperand := by
    by_cases kind : c.layout = .message
    · obtain ⟨commands, span, same⟩ := message kind
      rw [same, List.mem_singleton] at isOperand
      subst isOperand
      intro op args span inside
      simp [Operand.walk] at inside
    · exact operands kind o isOperand
  message c' member' name' kind' := by
    obtain rfl := Command.eq_of_name member' member (name'.trans name.symm)
    exact message kind'

theorem Readable.isProper (readable : i.Readable size) : i.IsProper := by
  obtain ⟨-, c, member, name, operands⟩ := readable
  refine isProper_of_command member name (fun kind => ?_) fun kind o isOperand => ?_
  · simp only [Command.Readable, kind] at operands
    obtain ⟨commands, same, -⟩ := operands
    exact ⟨commands, none, same⟩
  · obtain ⟨slots, rest, first, others, splits⟩ := (Command.readable_iff kind).1 operands
    exact Operand.IsRead.isProper (splits.isRead o isOperand)

theorem IsProper.mapLeaves (proper : i.IsProper) (h : Relabels change) :
    Instruction.IsProper { i with operands := Operand.mapLeavesAll change i.operands } where
  operands _ inMapped := by
    rw [Operand.mapLeavesAll_eq_map] at inMapped
    obtain ⟨o, isOperand, rfl⟩ := List.mem_map.1 inMapped
    exact h.isProper (proper.operands o isOperand)
  message c member name kind := by
    obtain ⟨commands, span, same⟩ := proper.message c member name kind
    refine ⟨commands, span, ?_⟩
    simp only [same, Operand.mapLeavesAll, Operand.mapLeaves, h.other (.message commands span) rfl]

theorem length_pointers_le {labels : LabelTable} (proper : i.IsProper) {code : ItemCode}
    (lowered : i.lower labels = .ok code) : code.pointers.length ≤ Operand.referenceCount i.operands := by
  have same := (lower_targets proper lowered).length_eq
  rw [ItemCode.targets, List.length_map] at same
  exact same ▸ Operand.length_targets_le i.operands

end Instruction

namespace Recovery

variable {r : Recovery} {s : Script} {target : Target} {entries : List (EntryPoint × Nat)} {limit : Nat}

theorem Ordered.exists_lower (ordered : r.Ordered) (scripts : r.Scripts target entries s) (pins : List Pin) :
    ∃ c, (s.loosen pins).lower = .ok c := by
  have tiles : Tiles r.data 0 r.data.length r.scriptRawUnits := ordered.tiles
  obtain ⟨codes, related, sums, -⟩ := tiles.exists_codes
  simp only [Nat.zero_add, ← scriptUnits_offsets] at sums
  have placed := scripts.placed sums
  have each : ∀ item ∈ (s.loosen pins).items, ∃ code, item.lower s.labels = .ok code := by
    intro item member
    rw [loosen_items placed.items] at member
    obtain ⟨unit, inUnits, rfl⟩ := List.mem_map.1 member
    obtain ⟨code, -, isRaw, raw⟩ := exists_right_of_mem related inUnits
    obtain ⟨code', lowered, -⟩ := (unit_agree placed pins inUnits isRaw).of_ok_left raw
    exact ⟨code', lowered⟩
  obtain ⟨c, lowered⟩ : ∃ c, (s.loosen pins).lowerBlocks = .ok c := by
    refine exists_mapM fun b inBlocks => exists_mapM fun item inBlock => ?_
    exact each item (List.mem_flatMap.2 ⟨b, inBlocks, inBlock⟩)
  refine ⟨c, Script.lower_of_bound lowered fun name binding found => ?_⟩
  have inside := Script.block_lt_of_bindings scripts.builds.bindings found
  rwa [Script.loosen, List.length_map]

theorem Ordered.exists_layout (ordered : r.Ordered) (contiguous : Decoded.Contiguous 0 r.data.length r.code)
    (scripts : r.Scripts target entries s) (pins : List Pin)
    (enough : 2 * (r.code.map fun d => Operand.referenceCount d.instruction.operands).sum < limit) :
    ∃ l, (s.loosen pins).layout limit = .ok l := by
  obtain ⟨c, lowered⟩ := ordered.exists_lower scripts pins
  have items := Script.lower_items lowered
  rw [Recovery.items_loosen, scripts.builds.items, scriptUnits_eq_map, scriptRawUnits_of_contiguous contiguous,
    List.map_map, List.map_map, List.map_map, List.forall₂_map_left_iff] at items
  have counts : List.Forall₂ (fun (d : Decoded) (code : ItemCode) =>
      code.pointers.length ≤ Operand.referenceCount d.instruction.operands) r.code c.items := by
    refine ((List.forall₂_and_left ..).2 ⟨fun d member => member, items⟩).imp ?_
    rintro d code ⟨member, done⟩
    have valid := (ordered.each d member).decoded
    have proper := ((Instruction.decode_eq_ok {} []).1 valid).1.isProper
    have named := proper.mapLeaves (r.relabels_nameTarget r.marks)
    refine (Instruction.length_pointers_le (named.mapLeaves (relabels_loosen pins)) done).trans_eq ?_
    rw [Operand.referenceCount_mapLeavesAll (relabels_loosen pins),
      Operand.referenceCount_mapLeavesAll (r.relabels_nameTarget r.marks)]
  have bounded : c.slack < limit := by
    have := c.slack_le
    have := Code.length_pointers_le counts
    omega
  obtain ⟨e, passes, settled⟩ := Code.exists_settle bounded
  exact ⟨_, Script.layout_eq_ok.2 ⟨c, e, passes, lowered, settled, rfl⟩⟩

end Recovery

theorem Script.exists_pinFrom {s : Script} {limit : Nat}
    (laid : ∀ pins, ∃ l, (s.loosen pins).layout limit = .ok l) (rounds : Nat) (pins : List Pin) :
    ∃ pins', s.pinFrom limit rounds pins = .ok pins' := by
  induction rounds generalizing pins with
  | zero => exact ⟨pins, rfl⟩
  | succ rounds ih =>
    obtain ⟨l, done⟩ := laid pins
    by_cases complete : (s.missingPins pins l).isEmpty = true
    · exact ⟨pins, bind_eq_ok.2 ⟨l, done, if_pos complete⟩⟩
    · obtain ⟨pins', rest⟩ := ih (pins ++ s.missingPins pins l)
      exact ⟨pins', bind_eq_ok.2 ⟨l, done, (if_neg complete).trans rest⟩⟩

namespace Recovery

variable {data : Bytes} {ds : List Decoded} {seeds : List Seed} {marks : Marks}

theorem Covered.mark_zero (covered : Covered data marks ds) :
    ∀ d ∈ ds, d.offset = 0 → ∃ kind, (kind, 0) ∈ (Recovery.mk data marks ds).codeMarks := by
  refine covered.reached (fun d => d.offset = 0 → ∃ kind, (kind, 0) ∈ (Recovery.mk data marks ds).codeMarks)
    (fun d _ isMark atStart => ?_) (fun e inE _ d _ isNext atStart => ?_)
  · obtain ⟨mark, inMarks, same⟩ := List.mem_map.1 isMark
    exact ⟨mark.1, List.mem_append_left _ (atStart ▸ same ▸ inMarks)⟩
  · have positive := (covered.each e inE).lt_stop
    rcases Decoded.mem_next.1 isNext with ⟨-, follows⟩ | ⟨kind, leads⟩
    · omega
    · exact ⟨kind, List.mem_append_right _ (List.mem_flatMap.2 ⟨e, inE, atStart ▸ leads⟩)⟩

/-- A buffer that is code from end to end can be disassembled. -/
theorem Covered.exists_disassemble (covered : Covered data marks ds)
    (checked : seeds.mapM (Seed.check data.length) = .ok marks) (unnamed : ∀ seed ∈ seeds, seed.1 = none)
    (target : Option Target) {limit : Nat}
    (enough : 2 * (ds.map fun d => Operand.referenceCount d.instruction.operands).sum < limit) :
    ∃ s, Script.disassemble data seeds target limit = .ok s := by
  have noEntries : Script.declaredEntries seeds = [] := by
    refine List.filterMap_eq_nil_iff.2 fun seed member => ?_
    simp [unnamed seed member]
  have ordered : Ordered ⟨data, marks, ds⟩ := ⟨covered.each, covered.contiguous.ordered covered.each⟩
  obtain ⟨s₀, -, -, built⟩ := ordered.exists_script_eq covered.mark_zero (target.getD (.ofSeeds seeds))
  have built : Recovery.script ⟨data, marks, ds⟩ (target.getD (.ofSeeds seeds)) (Script.declaredEntries seeds) =
      .ok s₀ := noEntries ▸ built []
  have scripts := script_eq_ok built
  obtain ⟨pins, pinned⟩ := Script.exists_pinFrom
    (fun pins => ordered.exists_layout covered.contiguous scripts pins enough) s₀.pinRounds []
  exact ⟨s₀.loosen pins, Script.disassemble_eq_ok.2 ⟨_, s₀, covered.ofSeeds checked, built,
    bind_eq_ok.2 ⟨pins, pinned, rfl⟩⟩⟩

end Recovery

end EventScript
