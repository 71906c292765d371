import EventScript.Proofs.Loosening

/-!
Pinning converges.

Every round but the last pins a reference that was free before, so there are no more of them than
references. When no pin is missing, the layout is the one in which each reference has the width that it
was read in, and items are where they were read. Where these widths are the least ones already, the
first layout has them and nothing is pinned.
-/

namespace EventScript

namespace Script

/-- The pins after so many rounds, each of which laid out the script and added what its layout missed. -/
inductive PinsTo (s : Script) (limit : Nat) : Nat → List Pin → Prop
  | start : PinsTo s limit 0 []
  | round {rounds : Nat} {pins : List Pin} {l : Layout} (reached : PinsTo s limit rounds pins)
    (laid : (s.loosen pins).layout limit = .ok l) (missing : s.missingPins pins l ≠ []) :
    PinsTo s limit (rounds + 1) (pins ++ s.missingPins pins l)

/-- The layout with these pins misses none, so that pinning returns. -/
structure Stable (s : Script) (limit : Nat) (pins : List Pin) (l : Layout) : Prop where
  laid : (s.loosen pins).layout limit = .ok l
  complete : s.missingPins pins l = []

variable {s : Script} {limit rounds m n : Nat} {pins pins' : List Pin} {l : Layout}

theorem limit_pos (laid : s.layout limit = .ok l) : 0 < limit := by
  apply Nat.pos_of_ne_zero
  intro zero
  obtain ⟨_, _, _, -, settled, -⟩ := layout_eq_ok.1 laid
  rw [zero] at settled
  cases settled

theorem pinFrom_of_stable (stable : s.Stable limit pins l) (rounds : Nat) :
    s.pinFrom limit (rounds + 1) pins = .ok pins := by
  apply bind_eq_ok.2
  exact ⟨l, stable.laid, if_pos (by simp [stable.complete])⟩

theorem pinFrom_of_missing (laid : (s.loosen pins).layout limit = .ok l) (missing : s.missingPins pins l ≠ [])
    (rounds : Nat) : s.pinFrom limit (rounds + 1) pins = s.pinFrom limit rounds (pins ++ s.missingPins pins l) := by
  rw [pinFrom, laid]
  exact if_neg (by simpa using missing)

namespace PinsTo

theorem pinFrom_eq (reached : s.PinsTo limit n pins) (more : Nat) :
    s.pinFrom limit (n + more) [] = s.pinFrom limit more pins := by
  induction reached generalizing more with
  | start => rw [Nat.zero_add]
  | round _ laid missing ih => rw [Nat.add_right_comm, Nat.add_assoc, ih, pinFrom_of_missing laid missing]

theorem unique (first : s.PinsTo limit n pins) (second : s.PinsTo limit n pins') : pins = pins' := by
  induction first generalizing pins' with
  | start =>
    cases second
    rfl
  | round _ laid _ ih =>
    cases second with
    | round reached laid' _ =>
      obtain rfl := ih reached
      cases laid.symm.trans laid'
      rfl

theorem exists_earlier (reached : s.PinsTo limit n pins) (le : m ≤ n) :
    ∃ pins', s.PinsTo limit m pins' ∧ pins' <+: pins := by
  induction reached with
  | start =>
    obtain rfl : m = 0 := by omega
    exact ⟨[], .start, List.prefix_rfl⟩
  | @round n pins l reached laid missing ih =>
    rcases Nat.lt_or_eq_of_le le with lt | rfl
    · obtain ⟨pins', earlier, before⟩ := ih (by omega)
      exact ⟨pins', earlier, before.trans (List.prefix_append ..)⟩
    · exact ⟨_, .round reached laid missing, List.prefix_rfl⟩

theorem forced (reached : s.PinsTo limit n pins) : ∀ pin ∈ pins, pin ∈ s.forcedReferences := by
  induction reached with
  | start => simp
  | round _ _ _ ih =>
    intro pin member
    rcases List.mem_append.1 member with before | added
    · exact ih pin before
    · exact (mem_missingPins.1 added).1

theorem le_of_stable (reached : s.PinsTo limit n pins) (stable : s.Stable limit pins l)
    (other : s.PinsTo limit m pins') : m ≤ n := by
  by_contra later
  obtain ⟨_, next, -⟩ := other.exists_earlier (show n + 1 ≤ m by omega)
  cases next with
  | round reached' laid missing =>
    obtain rfl := reached'.unique reached
    cases stable.laid.symm.trans laid
    exact missing stable.complete

theorem subset_of_le (first : s.PinsTo limit m pins) (second : s.PinsTo limit n pins') (le : m ≤ n) :
    pins <+: pins' := by
  obtain ⟨_, earlier, before⟩ := second.exists_earlier le
  exact earlier.unique first ▸ before

theorem pinFrom_eq_ok (reached : s.PinsTo limit n pins) (stable : s.Stable limit pins l) {bound : Nat}
    (more : n < bound) : s.pinFrom limit bound [] = .ok pins := by
  obtain ⟨rest, rfl⟩ := Nat.exists_eq_add_of_lt more
  rw [Nat.add_assoc, reached.pinFrom_eq, pinFrom_of_stable stable]

end PinsTo

theorem exists_stable_of_reached
    (laid : ∀ rounds pins, s.PinsTo limit rounds pins → ∃ l, (s.loosen pins).layout limit = .ok l)
    (reached : s.PinsTo limit n pins) : ∃ rounds pins' l, s.PinsTo limit rounds pins' ∧ s.Stable limit pins' l ∧
      rounds + (s.unpinned pins').length ≤ n + (s.unpinned pins).length := by
  generalize left : (s.unpinned pins).length = free
  induction free using Nat.strong_induction_on generalizing n pins with
  | _ free ih =>
    obtain ⟨l, done⟩ := laid n pins reached
    by_cases complete : s.missingPins pins l = []
    · exact ⟨n, pins, l, reached, ⟨done, complete⟩, by rw [left]⟩
    · have fewer := unpinned_append_lt complete
      obtain ⟨rounds, pins', l', reached', stable, bound⟩ :=
        ih _ (left ▸ fewer) (reached.round done complete) rfl
      exact ⟨rounds, pins', l', reached', stable, by omega⟩

theorem exists_stable
    (laid : ∀ rounds pins, s.PinsTo limit rounds pins → ∃ l, (s.loosen pins).layout limit = .ok l) :
    ∃ rounds pins l, s.PinsTo limit rounds pins ∧ s.Stable limit pins l ∧ rounds ≤ s.forcedReferences.length := by
  obtain ⟨rounds, pins, l, reached, stable, bound⟩ := exists_stable_of_reached laid .start
  have all : (s.unpinned []).length ≤ s.forcedReferences.length := List.length_filter_le ..
  exact ⟨rounds, pins, l, reached, stable, by omega⟩

end Script

theorem perm_flatMap_of_forall₂ {α β γ : Type} {f : α → List γ} {g : β → List γ} {xs : List α} {ys : List β}
    (related : List.Forall₂ (fun x y => (f x).Perm (g y)) xs ys) : (xs.flatMap f).Perm (ys.flatMap g) := by
  induction related with
  | nil => exact .nil
  | cons head _ ih => exact head.append ih

theorem Operand.target?_eq_none {o : Operand} (notRef : o.isReference = false) : o.target? = none := by
  cases o <;> first | rfl | cases notRef

theorem Pin.ofOperand?_eq (o : Operand) : Pin.ofOperand? o = o.target?.bind fun t => t.2.map (t.1, ·) := by
  cases o with
  | label name width isElse span => cases width <;> rfl
  | _ => rfl

namespace Recovery

/-- The label that a reference is given and the width that it is stored in. None that leads past the
buffer or into an instruction is given a label. -/
def reference? (r : Recovery) : Operand → Option Pin
  | .offset target (some width) _ _ =>
    if r.isRaw target.toNat then none else some ((r.marks.nameAt? target.toNat).getD "", width)
  | _ => none

def references (r : Recovery) : List Pin :=
  (Operand.walkAll (r.code.flatMap (·.instruction.operands))).filterMap r.reference?

theorem length_references_le (r : Recovery) : r.references.length ≤ r.targets.length := by
  rw [references, targets, List.length_filterMap_eq_countP, List.length_filterMap_eq_countP]
  apply List.countP_mono_left
  intro o _ named
  cases o <;> first | rfl | cases named

variable {r : Recovery} {s : Script} {target : Target} {entries : List (EntryPoint × Nat)} {i : Instruction}
  {size : Nat} {c : Code}

theorem nameTarget_target? (readable : i.Readable size) {leaf : Operand} (inside : leaf ∈ Operand.walkAll i.operands) :
    (r.nameTarget r.marks leaf).target? = (r.reference? leaf).map (Prod.map id some) := by
  by_cases isRef : leaf.isReference = true
  · obtain ⟨t, w, isElse, rfl, -⟩ := readable.reference inside isRef
    cases raw : r.isRaw t <;> simp [nameTarget, reference?, raw, Operand.target?]
  · cases leaf <;> first | rfl | exact absurd rfl isRef

theorem nameTargets_targets (readable : i.Readable size) : Operand.targets (r.nameTargets r.marks i).operands =
    ((Operand.walkAll i.operands).filterMap r.reference?).map (Prod.map id some) := by
  rw [nameTargets, Operand.targets, Operand.filterMap_walkAll_mapLeavesAll (r.relabels_nameTarget r.marks)
    fun _ => Operand.target?_eq_none, List.map_filterMap]
  exact List.filterMap_congr fun leaf inside => nameTarget_target? readable inside

theorem nameTargets_forcedReferences (readable : i.Readable size) :
    (Item.instruction (r.nameTargets r.marks i)).forcedReferences =
      (Operand.walkAll i.operands).filterMap r.reference? := by
  rw [Item.forcedReferences, nameTargets, Operand.filterMap_walkAll_mapLeavesAll (r.relabels_nameTarget r.marks)
    fun _ => Pin.ofOperand?_eq_none]
  apply List.filterMap_congr
  intro leaf inside
  rw [Function.comp_apply, Pin.ofOperand?_eq, nameTarget_target? readable inside]
  cases r.reference? leaf <;> rfl

theorem flatMap_regionsFrom {α : Type} {f : Region → List α} (gap : ∀ start stop, f (.gap start stop) = [])
    (size start : Nat) (ds : List Decoded) :
    (regionsFrom size start ds).flatMap f = ds.flatMap fun d => f (.code d) := by
  induction ds generalizing start with
  | nil =>
    unfold regionsFrom
    split <;> simp [gap]
  | cons d ds ih =>
    have before : (if start < d.offset then [Region.gap start d.offset] else []).flatMap f = [] := by
      split <;> simp [gap]
    rw [regionsFrom, List.flatMap_append, before, List.nil_append, List.flatMap_cons, List.flatMap_cons, ih]

theorem units_gap (r : Recovery) (marks : Marks) (start stop : Nat) :
    ∀ unit ∈ r.units marks (.gap start stop), ∃ d, unit.2 = .data d := by
  intro unit member
  simp only [units, List.mem_flatMap, List.mem_map] at member
  obtain ⟨_, -, tile, -, rfl⟩ := member
  exact ⟨tile.2, rfl⟩

namespace Ordered

theorem readable (ordered : r.Ordered) {d : Decoded} (member : d ∈ r.code) :
    d.instruction.Readable r.data.length :=
  ((Instruction.decode_eq_ok {} []).1 (ordered.each d member).decoded).1

theorem forcedReferences_eq (ordered : r.Ordered) (scripts : r.Scripts target entries s) :
    s.forcedReferences = r.references := by
  have gap (start stop : Nat) : (r.units r.marks (.gap start stop)).flatMap (fun unit => unit.2.forcedReferences) =
      [] := by
    apply List.flatMap_eq_nil_iff.2
    intro unit member
    obtain ⟨d, isData⟩ := r.units_gap r.marks start stop unit member
    rw [isData]
    rfl
  rw [Script.forcedReferences_eq, scripts.builds.items, List.flatMap_map, scriptUnits, List.flatMap_assoc, regions,
    flatMap_regionsFrom gap, references, Operand.walkAll_eq_flatMap, List.flatMap_assoc, List.filterMap_flatMap]
  apply List.flatMap_congr
  intro d member
  rw [units, List.flatMap_singleton, nameTargets_forcedReferences (ordered.readable member),
    Operand.walkAll_eq_flatMap]

theorem item_targets (ordered : r.Ordered) (scripts : r.Scripts target entries s) {item : Item} {code : ItemCode}
    (member : item ∈ s.items) (lowered : item.lower s.labels = .ok code) :
    code.targets.Perm (item.forcedReferences.map (Prod.map id some)) := by
  rw [scripts.builds.items] at member
  obtain ⟨unit, inUnits, rfl⟩ := List.mem_map.1 member
  obtain ⟨region, inRegions, inRegion⟩ := List.mem_flatMap.1 inUnits
  cases region with
  | code d =>
    obtain rfl := List.mem_singleton.1 inRegion
    have readable := ordered.readable (mem_of_code_mem_regionsFrom inRegions)
    rw [nameTargets_forcedReferences readable, ← nameTargets_targets readable]
    exact Instruction.lower_targets (readable.isProper.mapLeaves (r.relabels_nameTarget r.marks)) lowered
  | gap start stop =>
    obtain ⟨d, isData⟩ := r.units_gap r.marks start stop unit inRegion
    rw [isData] at lowered ⊢
    have none : code.pointers = [] := by
      apply List.filterMap_eq_nil_iff.2
      intro piece inCode
      cases piece with
      | pointer q => exact absurd inCode (d.lower_no_pointer lowered q)
      | _ => rfl
    rw [ItemCode.targets, none]
    exact .nil

theorem pointers_perm (ordered : r.Ordered) (scripts : r.Scripts target entries s) (lowered : s.lower = .ok c) :
    (c.pointers.map Pointer.target).Perm (r.references.map (Prod.map id some)) := by
  rw [← ordered.forcedReferences_eq scripts, Script.forcedReferences_eq, Code.pointers, List.map_flatMap,
    List.map_flatMap]
  apply (perm_flatMap_of_forall₂ _).symm
  have items := (List.forall₂_and_left ..).2 ⟨fun item member => member, Script.lower_items lowered⟩
  exact items.imp fun item code done => (ordered.item_targets scripts done.1 done.2).symm

theorem pointer_forced (ordered : r.Ordered) (scripts : r.Scripts target entries s) (lowered : s.lower = .ok c) :
    ∀ p ∈ c.pointers, p.forced = true ∧ (p.label, p.width) ∈ s.forcedReferences := by
  intro p inCode
  have isTarget := (ordered.pointers_perm scripts lowered).mem_iff.1 (List.mem_map_of_mem inCode)
  obtain ⟨pin, isReference, same⟩ := List.mem_map.1 isTarget
  rw [← ordered.forcedReferences_eq scripts] at isReference
  cases forced : p.forced <;> simp [Pointer.target, forced, Prod.ext_iff] at same
  exact ⟨rfl, (Prod.ext same.1 same.2 : pin = (p.label, p.width)) ▸ isReference⟩

theorem widths_perm (ordered : r.Ordered) (scripts : r.Scripts target entries s) (lowered : s.lower = .ok c) :
    (c.pointers.map fun p => (p.label, p.width)).Perm r.references := by
  have injective : Function.Injective (Prod.map id some : Pin → String × Option Width) :=
    Function.injective_id.prodMap (Option.some_injective _)
  rw [← List.map_perm_map_iff injective, List.map_map]
  have forced : c.pointers.map (Prod.map id some ∘ fun p => (p.label, p.width)) = c.pointers.map Pointer.target := by
    apply List.map_congr_left
    intro p inCode
    simp [Pointer.target, (ordered.pointer_forced scripts lowered p inCode).1]
  rw [forced]
  exact ordered.pointers_perm scripts lowered

end Ordered

end Recovery

theorem Code.consistent_of_emit {c : Code} {bs : Bytes} (emitted : c.emit = .ok bs) : c.Consistent := by
  intro q inCode _
  obtain ⟨block, inBlocks, item, inBlock, inItem⟩ := mem_pointers.1 inCode
  exact (target_of_emitItems (emit_eq_ok.1 emitted) (List.mem_flatten.2 ⟨block, inBlocks, inBlock⟩) inItem).2

theorem Layout.fixups_widths (c : Code) (passes : Nat) :
    (Layout.ofCode c passes).fixups.map (fun f => (f.label, f.width)) = c.pointers.map fun p => (p.label, p.width) :=
  map_eq_of_forall₂ (fixups_ofCode c passes).flip fun _ _ same => Prod.ext same.1 same.2

theorem Layout.widths_of_fixups {c d : Code} {m n : Nat}
    (same : (Layout.ofCode c m).fixups = (Layout.ofCode d n).fixups) :
    c.pointers.map (·.width) = d.pointers.map (·.width) := by
  have pairs := fixups_widths d n
  rw [← same, fixups_widths] at pairs
  simpa [Function.comp_def] using congrArg (List.map Prod.snd) pairs

namespace Recovery

variable {r : Recovery} {s : Script} {target : Target} {entries : List (EntryPoint × Nat)} {limit rounds : Nat}
  {c e : Code} {pins : List Pin} {l : Layout}

namespace Ordered

theorem layout_forced (ordered : r.Ordered) (scripts : r.Scripts target entries s) (lowered : s.lower = .ok c)
    (positive : 0 < limit) : s.layout limit = .ok (.ofCode c 1) := by
  have still : c.growing = [] := by
    apply List.filter_eq_nil_iff.2
    intro p inCode
    simp [Code.mustGrow, (ordered.pointer_forced scripts lowered p inCode).1]
  obtain ⟨limit, rfl⟩ := Nat.exists_eq_succ_of_ne_zero positive.ne'
  exact Script.layout_eq_ok.2 ⟨c, c, 1, lowered, Code.settle_eq_ok_succ.2 (.inl ⟨still, rfl, rfl⟩), rfl⟩

theorem layout_stable (ordered : r.Ordered) (scripts : r.Scripts target entries s) (lowered : s.lower = .ok c)
    (stable : s.Stable limit pins l) : l = { Layout.ofCode c 1 with passes := l.passes } := by
  obtain ⟨_, d, passes, loosened, settled, rfl⟩ := Script.layout_eq_ok.1 stable.laid
  obtain rfl := Script.lower_loosen lowered loosened
  have forced := ordered.pointer_forced scripts lowered
  exact (Script.alike_of_missingPins loosened forced settled stable.complete).ofCode_eq ..

theorem stable_of_least (ordered : r.Ordered) (scripts : r.Scripts target entries s) (lowered : s.lower = .ok c)
    (least : (c.mapPointers (Pointer.loosen [])).IsLeast e)
    (widths : e.pointers.map (·.width) = c.pointers.map (·.width))
    (laid : (s.loosen []).layout limit = .ok l) : s.Stable limit [] l := by
  obtain ⟨_, d, passes, loosened, settled, rfl⟩ := Script.layout_eq_ok.1 laid
  obtain rfl := Script.lower_loosen lowered loosened
  have same := (least.settle (Script.lower_narrow loosened) settled).trans widths
  have rewidth := (Code.settle_rewidth settled).pointers
  rw [Code.pointers_mapPointers, List.forall₂_map_left_iff] at rewidth
  rw [← List.forall₂_eq_eq_eq, List.forall₂_map_left_iff, List.forall₂_map_right_iff] at same
  have both := rewidth.mp (fun _ _ => And.intro) same.flip
  refine ⟨laid, List.eq_nil_iff_forall_not_mem.2 fun pin missing => ?_⟩
  obtain ⟨forced, -, binding, found, different⟩ := Script.mem_missingPins.1 missing
  rw [ordered.forcedReferences_eq scripts] at forced
  obtain ⟨p, inCode, rfl⟩ := List.mem_map.1 ((ordered.widths_perm scripts lowered).mem_iff.2 forced)
  obtain ⟨q, inSettled, related, width⟩ := exists_right_of_mem both inCode
  have isForced := (ordered.pointer_forced scripts lowered p inCode).1
  have freed : q.label = p.label ∧ q.forced = false := by
    simp only [Pointer.loosen, isForced] at related
    cases related <;> exact ⟨rfl, rfl⟩
  obtain ⟨binding', found', block⟩ := Script.settle_bound loosened settled inSettled
  have exact := Code.settle_exact (Script.lower_narrow loosened) settled inSettled freed.2
  rw [freed.1] at found'
  cases found.symm.trans found'
  rw [Code.target, block] at exact
  exact different (width.symm.trans exact)

theorem exists_least (ordered : r.Ordered) (scripts : r.Scripts target entries s) (stable : s.Stable limit [] l) :
    ∃ c e, (s.loosen []).lower = .ok c ∧ c.IsLeast e ∧ (Layout.ofCode e 0).fixups = l.fixups := by
  obtain ⟨c, d, passes, lowered, settled, rfl, emitted, -⟩ := ordered.reassembles scripts stable.laid stable.complete
  refine ⟨c, d, lowered, ⟨(Code.settle_rewidth settled).any, Code.consistent_of_emit emitted, fun e => ?_⟩, rfl⟩
  exact Code.settle_le (Script.lower_narrow lowered) settled

theorem pins_eq_nil_iff (ordered : r.Ordered) (scripts : r.Scripts target entries s) (lowered : s.lower = .ok c)
    {first : Layout} (laid : (s.loosen []).layout limit = .ok first) (reached : s.PinsTo limit rounds pins)
    (stable : s.Stable limit pins l) : pins = [] ↔
      ∃ c e, (s.loosen []).lower = .ok c ∧ c.IsLeast e ∧ (Layout.ofCode e 0).fixups = l.fixups := by
  constructor
  · intro none
    rw [none] at stable
    exact ordered.exists_least scripts stable
  · rintro ⟨_, e, loosened, least, fixups⟩
    obtain rfl := Script.lower_loosen lowered loosened
    rw [ordered.layout_stable scripts lowered stable] at fixups
    have complete := ordered.stable_of_least scripts lowered least (Layout.widths_of_fixups fixups) laid
    obtain rfl : rounds = 0 := Nat.le_zero.1 (Script.PinsTo.start.le_of_stable complete reached)
    exact reached.unique .start

end Ordered

end Recovery

namespace Script

variable {data : Bytes} {seeds : List Seed} {target : Option Target} {r : Recovery} {s : Script} {limit rounds : Nat}
  {pins : List Pin} {l : Layout}

/-- How pinning ends for the script `s` of the recovery `r`: after some rounds with some pins, for which
the script is laid out as `l`. -/
structure PinsStably (r : Recovery) (s : Script) (limit rounds : Nat) (pins : List Pin) (l : Layout) : Prop where
  reached : s.PinsTo limit rounds pins
  stable : s.Stable limit pins l
  early : rounds < s.pinRounds ∧ s.pinRounds ≤ r.targets.length + 1
  returned : ∀ bound, rounds < bound → s.pinFrom limit bound [] = .ok pins
  minimized : s.minimizePins limit = .ok (s.loosen pins)
  widths : (l.fixups.map fun f => (f.label, f.width)).Perm r.references ∧
    ∃ forced, s.layout limit = .ok forced ∧ l = { forced with passes := l.passes }
  offsets : l.itemAddresses = r.scriptUnits.map (·.1)
  grows : ∀ m n before after, s.PinsTo limit m before → s.PinsTo limit n after → m ≤ n → before <+: after
  pinned : ∀ n chosen, s.PinsTo limit n chosen → (∀ pin ∈ chosen, pin ∈ r.references) ∧
    (s.loosen chosen).forcedReferences = r.references.filter (chosen.contains ·)
  free : pins = [] ↔ ∃ c e, (s.loosen []).lower = .ok c ∧ c.IsLeast e ∧ (Layout.ofCode e 0).fixups = l.fixups

/-- Pinning the script that a buffer holds ends with a stable layout if its layouts succeed. -/
theorem pinning_converges (recovered : Recovery.ofSeeds data seeds = .ok r) (built : recover r seeds target = .ok s)
    (laid : ∀ rounds pins, s.PinsTo limit rounds pins → ∃ l, (s.loosen pins).layout limit = .ok l) :
    ∃ rounds pins l, PinsStably r s limit rounds pins l := by
  obtain ⟨-, ordered⟩ := Recovery.ofSeeds_ordered recovered
  have scripts := Recovery.script_eq_ok built
  have references := ordered.forcedReferences_eq scripts
  obtain ⟨rounds, pins, l, reached, stable, bound⟩ := exists_stable laid
  obtain ⟨c, lowered⟩ := ordered.exists_lower scripts s.forcedReferences
  rw [loosen_forcedReferences] at lowered
  have forced := ordered.layout_forced scripts lowered (limit_pos stable.laid)
  have same := ordered.layout_stable scripts lowered stable
  have early : rounds < s.pinRounds := Nat.lt_succ_of_le bound
  refine ⟨rounds, pins, l, reached, stable, ⟨early, ?_⟩, fun _ => reached.pinFrom_eq_ok stable, ?_,
    ⟨?_, _, forced, same⟩, ?_, fun _ _ _ _ => PinsTo.subset_of_le, ?_, ?_⟩
  · have := r.length_references_le
    rw [pinRounds, references]
    omega
  · exact bind_eq_ok.2 ⟨pins, reached.pinFrom_eq_ok stable early, rfl⟩
  · rw [same, Layout.fixups_widths]
    exact ordered.widths_perm scripts lowered
  · obtain ⟨_, d, _, -, -, rfl, -, offsets, -⟩ := ordered.reassembles scripts stable.laid stable.complete
    exact offsets
  · intro n chosen reached'
    rw [← references]
    exact ⟨reached'.forced, s.forcedReferences_loosen chosen⟩
  · obtain ⟨first, free⟩ := laid 0 [] .start
    exact ordered.pins_eq_nil_iff scripts lowered free reached stable

theorem pinning_converges_wideJump : ∃ r s,
    Recovery.ofSeeds wideJump [(some (.event .prologue), 0), (none, 4)] = .ok r ∧
    recover r [(some (.event .prologue), 0), (none, 4)] none = .ok s ∧
    ∃ rounds l, PinsStably r s 64 rounds [("loc_7", .word)] l := by
  let r : Recovery := ⟨wideJump, [(.event, 0), (.event, 4)],
    [⟨0, 4, ⟨"goto", [.offset 7 (some .word) false none], none⟩⟩,
      ⟨4, 3, ⟨"run", [.offset 0 (some .byte) false none], none⟩⟩, ⟨7, 1, ⟨"return", [], none⟩⟩]⟩
  have recovered : Recovery.ofSeeds wideJump [(some (.event .prologue), 0), (none, 4)] = .ok r :=
    Recovery.ofSeeds_eq_ok.2 ⟨_, _, rfl, explore_wideJump, by simp [r, List.mergeSort, Seed.kind]⟩
  have run : ((recover r [(some (.event .prologue), 0), (none, 4)] none).bind
      fun s => s.pinFrom 64 s.pinRounds []).toOption = some [("loc_7", .word)] := by
    decide +kernel
  cases built : recover r [(some (.event .prologue), 0), (none, 4)] none with
  | error =>
    rw [built] at run
    cases run
  | ok s =>
    obtain ⟨-, ordered⟩ := Recovery.ofSeeds_ordered recovered
    have laid (pins : List Pin) : ∃ l, (s.loosen pins).layout 64 = .ok l :=
      ordered.exists_layout ⟨rfl, rfl, rfl, rfl⟩ (Recovery.script_eq_ok built) pins (by decide)
    obtain ⟨rounds, pins, l, stably⟩ := pinning_converges recovered built fun _ pins _ => laid pins
    have ends := stably.returned _ stably.early.1
    rw [built, Except.bind, ends] at run
    cases run
    exact ⟨r, s, recovered, built, rounds, l, stably⟩

end Script

end EventScript
