import EventScript.Proofs.Building
import EventScript.Proofs.Pinning
import EventScript.Recovery.Disassemble

/-!
A recovered script assembles to the buffer that it was recovered from.

The items of the recovery, before their references are named, have a code of their own in which every
address is already bytes. The code of the script differs from it in its pointers only. Where no pin
is missing each pointer has the width of the address that it stands for, so the two codes have the
same sizes, hence the same addresses, hence the same bytes.
-/

namespace EventScript

/-- The code of items that cover a stretch of the buffer: sizes add up to offsets, and the bytes are
those of the buffer. -/
theorem Tiles.exists_codes {data : Bytes} {start stop : Nat} {units : List (Nat × Item)}
    (tiles : Tiles data start stop units) : ∃ codes : List ItemCode,
      List.Forall₂ (fun unit code => unit.2.IsRaw data.length ∧ unit.2.lower {} = .ok code) units codes ∧
      (∀ n offset, (units.map (·.1) ++ [stop])[n]? = some offset →
        start + ((codes.take n).map ItemCode.size).sum = offset) ∧
      ∀ addresses, ∃ bs, Code.emitItems addresses start codes = .ok bs ∧ bs <+: data.drop start ∧
        start + bs.length = stop := by
  induction units generalizing start with
  | nil =>
    obtain rfl : start = stop := tiles
    refine ⟨[], .nil, fun n offset found => ?_, fun addresses => ⟨[], rfl, List.nil_prefix, rfl⟩⟩
    obtain ⟨_, here⟩ := List.getElem?_eq_some_iff.1 found
    simpa using here
  | cons unit units ih =>
    obtain ⟨rfl, b, ⟨isRaw, ⟨code, lowered, emitted⟩, inside⟩, rest⟩ := tiles
    obtain ⟨codes, related, sums, emits⟩ := ih rest
    have size : code.size = b.length := (ItemCode.length_emit (emitted [])).symm
    refine ⟨code :: codes, .cons ⟨isRaw, lowered⟩ related, fun n offset found => ?_, fun addresses => ?_⟩
    · cases n with
      | zero => simpa using found
      | succ n =>
        have := sums n offset (by simpa using found)
        simp only [List.take_succ_cons, List.map_cons, List.sum_cons, size]
        omega
    · obtain ⟨bs, emittedRest, insideRest, stop⟩ := emits addresses
      refine ⟨b ++ bs, ?_, ?_, by rw [List.length_append]; omega⟩
      · simp only [Code.emitItems, size, emitted addresses, emittedRest]
        rfl
      · obtain ⟨after, whole⟩ := inside
        rw [← List.drop_drop, ← whole, List.drop_left] at insideRest
        obtain ⟨after', rfl⟩ := insideRest
        exact ⟨after', by rw [← whole, List.append_assoc]⟩

namespace Code

theorem getElem?_addressesFrom {start k : Nat} {sizes : List Nat} (inside : k < sizes.length) :
    (addressesFrom start sizes)[k]? = some (start + (sizes.take k).sum) := by
  induction sizes generalizing start k with
  | nil => simp at inside
  | cons size sizes ih =>
    cases k with
    | zero => simp [addressesFrom]
    | succ k =>
      rw [addressesFrom, List.getElem?_cons_succ, ih (by simpa using inside)]
      simp [Nat.add_assoc]

theorem getElem?_blockAddresses {c : Code} {k : Nat} (inside : k < c.length) :
    c.blockAddresses[k]? = some ((c.take k).flatten.map ItemCode.size).sum := by
  have sums : ((c.map fun block => (block.map ItemCode.size).sum).take k).sum =
      ((c.take k).flatten.map ItemCode.size).sum := by
    rw [List.map_flatten, List.sum_flatten, List.map_map, ← List.map_take]
    rfl
  rw [blockAddresses, getElem?_addressesFrom (by simpa [blockSizes] using inside), Nat.zero_add, blockSizes, sums]

end Code

/-- The pointer stands for an address that is stored in a certain width: equal pieces, or a pointer to
a block that starts there. -/
inductive Piece.Resolves (starts : Nat → Nat) (stored : Pointer → Width → Prop) : Piece → Piece → Prop
  | same (piece : Piece) (notPointer : ∀ q, piece ≠ .pointer q) : Resolves starts stored piece piece
  | pointer (q : Pointer) (w : Width) (fits : starts q.block < 2 ^ w.bits) (related : stored q w) :
    Resolves starts stored (.bytes (w.constant (starts q.block))) (.pointer q)

namespace Piece.Resolves

variable {starts : Nat → Nat} {a b : Piece} {stored stored' : Pointer → Width → Prop}

theorem mono (h : Resolves starts stored a b) (weaker : ∀ q w, stored q w → stored' q w) :
    Resolves starts stored' a b := by
  cases h with
  | same _ notPointer => exact .same _ notPointer
  | pointer q w fits related => exact .pointer q w fits (weaker q w related)

theorem exists_stored {q : Pointer} (h : Resolves starts stored a (.pointer q)) : ∃ w, stored q w := by
  cases h with
  | same _ notPointer => exact absurd rfl (notPointer q)
  | pointer _ w _ related => exact ⟨w, related⟩

theorem size_eq (h : Resolves starts (fun q w => q.width = w) a b) : a.size = b.size := by
  cases h with
  | same => rfl
  | pointer q w fits width => simp [size, width]

theorem emit_eq (h : Resolves starts (fun q w => q.width = w) a b) {addresses : List Nat}
    (placed : ∀ q, b = .pointer q → addresses[q.block]? = some (starts q.block)) (address stop : Nat) :
    a.emit addresses address stop = b.emit addresses address stop := by
  cases h with
  | same => rfl
  | pointer q w fits width =>
    have address := blockAddress_eq_ok.2 (placed q rfl)
    simp only [emit, address, width, bind, Except.bind, fits, if_true]
    rfl

end Piece.Resolves

namespace Instruction

theorem Readable.reference {size : Nat} {i : Instruction} (readable : i.Readable size) {leaf : Operand}
    (inside : leaf ∈ Operand.walkAll i.operands) (isRef : leaf.isReference = true) :
    ∃ (t : Nat) (w : Width) (isElse : Bool), leaf = .offset t (some w) isElse none ∧ t < 2 ^ w.bits := by
  obtain ⟨-, c, -, -, operands⟩ := readable
  rw [Operand.walkAll_eq_flatMap, List.mem_flatMap] at inside
  obtain ⟨o, isOperand, inOperand⟩ := inside
  have plain : leaf.Plain := by
    by_cases kind : c.layout = .message
    · simp only [Command.Readable, kind] at operands
      obtain ⟨commands, same, -⟩ := operands
      rw [same, List.mem_singleton] at isOperand
      subst isOperand
      obtain rfl : leaf = _ := List.mem_singleton.1 inOperand
      simp [Operand.isReference] at isRef
    · obtain ⟨slots, rest, first, others, splits⟩ := (Command.readable_iff kind).1 operands
      exact splits.isRead o isOperand leaf inOperand
  cases leaf <;> simp only [Operand.isReference, Bool.false_eq_true] at isRef
  case label => exact plain.elim
  case offset value width isElse span =>
    obtain ⟨rfl, w, rfl, nonneg, fits⟩ := plain
    obtain ⟨t, rfl⟩ := Int.eq_ofNat_of_zero_le nonneg
    exact ⟨t, w, isElse, rfl, by exact_mod_cast fits⟩

end Instruction

namespace Item

theorem mapReferences_mapReferences {f : Operand → Operand} (h : Relabels f) (g : Operand → Operand)
    (item : Item) : (item.mapReferences f).mapReferences g = item.mapReferences (g ∘ f) := by
  cases item with
  | data d => rfl
  | instruction i =>
    simp only [mapReferences, Operand.mapLeavesAll_eq_map, List.map_map]
    congr 2
    exact List.map_congr_left fun o _ => h.mapLeaves_mapLeaves g o

theorem loosen_eq_mapReferences (pins : List Pin) (item : Item) :
    item.loosen pins = item.mapReferences (Pin.loosen pins) := by
  cases item <;> rfl

theorem lower_data_congr {d : Data} (noReference : ∀ v ∈ d.values, v.isReference = false)
    (labels labels' : LabelTable) : d.lower labels = d.lower labels' := by
  refine mapM_congr fun v member => ?_
  have plain := noReference v member
  cases v <;> first | rfl | cases plain

theorem lower_agree {size : Nat} {item : Item} (isRaw : item.IsRaw size) {labels : LabelTable}
    {rel : Piece → Piece → Prop} {change : Operand → Operand} (keeps : Relabels change)
    (fixed : ∀ piece, (∀ q, piece ≠ .pointer q) → rel piece piece)
    (pointers : ∀ i, item = .instruction i → ∀ leaf ∈ Operand.walkAll i.operands,
      Placement.PointersAgree {} labels rel change leaf) :
    Agree (List.Forall₂ rel) (item.lower {}) ((item.mapReferences change).lower labels) := by
  cases item with
  | instruction i => exact Instruction.lower_agree keeps fixed (pointers i rfl)
  | data d =>
    simp only [mapReferences, Item.lower]
    rw [lower_data_congr isRaw labels {}]
    cases lowered : d.lower {} with
    | error e => exact True.intro
    | ok code =>
      refine List.forall₂_same.2 fun piece member => fixed piece fun q isPointer => ?_
      exact d.lower_no_pointer lowered q (isPointer ▸ member)

end Item

namespace Recovery

variable {r : Recovery} {s : Script} {marks : Marks} {pins : List Pin}

theorem relabels_nameTarget (r : Recovery) (marks : Marks) : Relabels (r.nameTarget marks) where
  other o notRef := by cases o <;> first | rfl | cases notRef
  reference o isRef := by
    cases o <;> simp only [Operand.isReference, Bool.false_eq_true] at isRef
    case label => exact ⟨rfl, rfl⟩
    case offset value width isElse span =>
      simp only [nameTarget]
      split <;> exact ⟨rfl, rfl⟩

theorem relabels_loosen (pins : List Pin) : Relabels (Pin.loosen pins) where
  other o notRef := by cases o <;> first | rfl | cases notRef
  reference o isRef := by cases o <;> first | exact ⟨rfl, rfl⟩ | cases isRef

def recoverReference (r : Recovery) (pins : List Pin) : Operand → Operand :=
  Pin.loosen pins ∘ r.nameTarget r.marks

theorem relabels_recoverReference (r : Recovery) (pins : List Pin) :
    Relabels (r.recoverReference pins) :=
  (r.relabels_nameTarget r.marks).comp (relabels_loosen pins)

theorem code_mem_regionsFrom {size start : Nat} {code : List Decoded} {d : Decoded} (member : d ∈ code) :
    .code d ∈ regionsFrom size start code := by
  induction code generalizing start with
  | nil => simp at member
  | cons e code ih =>
    rw [regionsFrom, List.mem_append, List.mem_cons]
    rcases List.mem_cons.1 member with rfl | later
    · exact .inr (.inl rfl)
    · exact .inr (.inr (ih later))

theorem mem_of_code_mem_regionsFrom {size start : Nat} {code : List Decoded} {d : Decoded}
    (member : .code d ∈ regionsFrom size start code) : d ∈ code := by
  induction code generalizing start with
  | nil =>
    unfold regionsFrom at member
    split at member <;> simp at member
  | cons e code ih =>
    rw [regionsFrom, List.mem_append, List.mem_cons] at member
    rcases member with inGap | here | later
    · split at inGap <;> simp at inGap
    · cases here
      exact List.mem_cons_self
    · exact List.mem_cons_of_mem _ (ih later)

/-- The script that holds the items of the recovery, and where its blocks start. -/
structure Placed (r : Recovery) (s : Script) (starts : Nat → Nat) : Prop where
  items : s.items = r.scriptUnits.map (·.2)
  declared : ∀ t ∈ r.targets, r.isRaw t = false → ∃ name binding,
    r.marks.nameAt? t = some name ∧ s.labels.get? name = some binding ∧ starts binding.block = t

/-- A reference is pinned if its width is forced, and then has that width. -/
structure Pinned (s : Script) (pins : List Pin) (q : Pointer) (w : Width) : Prop where
  pinned : q.forced = pins.contains (q.label, w)
  width : q.forced = true → q.width = w
  forced : (q.label, w) ∈ s.forcedReferences

theorem forcedReferences_of_leaf {starts : Nat → Nat} (placed : r.Placed s starts) {d : Decoded}
    (member : d ∈ r.code) {leaf : Operand} (isRef : leaf.isReference = true)
    (inside : leaf ∈ Operand.walkAll d.instruction.operands) {pin : Pin}
    (isPin : Pin.ofOperand? (r.nameTarget r.marks leaf) = some pin) : pin ∈ s.forcedReferences := by
  unfold Script.forcedReferences
  rw [List.mem_flatMap]
  refine ⟨.instruction (r.nameTargets r.marks d.instruction), ?_, ?_⟩
  · rw [placed.items, List.mem_map]
    exact ⟨(d.offset, _), List.mem_flatMap.2 ⟨.code d, code_mem_regionsFrom member, List.mem_singleton.2 rfl⟩,
      rfl⟩
  · refine List.mem_filterMap.2 ⟨_, ?_, isPin⟩
    simp only [nameTargets, Operand.mapLeavesAll_eq_map]
    rw [Operand.walkAll_eq_flatMap, List.mem_flatMap] at inside ⊢
    obtain ⟨o, isOperand, inOperand⟩ := inside
    exact ⟨_, List.mem_map_of_mem isOperand, Relabels.mem_walk_mapLeaves isRef inOperand⟩

theorem mem_targets {d : Decoded} (member : d ∈ r.code) {t : Nat} {width : Option Width} {isElse : Bool}
    {span : Option Span} (inside : .offset t width isElse span ∈ Operand.walkAll d.instruction.operands) :
    t ∈ r.targets := by
  refine List.mem_filterMap.2 ⟨.offset t width isElse span, ?_, rfl⟩
  rw [Operand.walkAll_eq_flatMap, List.mem_flatMap] at inside ⊢
  obtain ⟨o, isOperand, inOperand⟩ := inside
  exact ⟨o, List.mem_flatMap.2 ⟨d, member, isOperand⟩, inOperand⟩

theorem pointersAgree {starts : Nat → Nat} (placed : r.Placed s starts) {size : Nat} {d : Decoded}
    (member : d ∈ r.code) (readable : d.instruction.Readable size) {leaf : Operand}
    (inside : leaf ∈ Operand.walkAll d.instruction.operands) :
    Placement.PointersAgree {} s.labels (Piece.Resolves starts (Pinned s pins))
      (r.recoverReference pins) leaf := by
  intro isRef site span
  obtain ⟨t, w, isElse, rfl, fits⟩ := readable.reference inside isRef
  have stored : Placement.lowerPointer ⟨{}, site, span⟩ (.offset t (some w) isElse none) =
      .ok [.bytes (w.constant t)] :=
    Placement.lowerPointer_offset.2 ⟨⟨Int.natCast_nonneg _, by exact_mod_cast fits⟩, rfl⟩
  have isTarget : t ∈ r.targets := mem_targets member inside
  rw [stored]
  cases raw : r.isRaw t with
  | true =>
    have kept : Placement.lowerPointer ⟨s.labels, site, span⟩
        (r.recoverReference pins (.offset t (some w) isElse none)) = .ok [.bytes (w.constant t)] := by
      have width : (if w = Width.ofAddress t then none else some w).getD (Width.ofAddress t) = w := by
        split <;> simp_all
      have bound : (t : Int) < 2 ^ w.bits := by exact_mod_cast fits
      simp [recoverReference, nameTarget, raw, Pin.loosen, Placement.lowerPointer, width, bound]
    rw [kept]
    exact .cons (.same _ (by intro q h; cases h)) .nil
  | false =>
    obtain ⟨name, binding, named, found, start⟩ := placed.declared t isTarget raw
    have renamed : r.nameTarget r.marks (.offset t (some w) isElse none) = .label name (some w) isElse none := by
      simp [nameTarget, raw, named]
    have forced : (name, w) ∈ s.forcedReferences :=
      forcedReferences_of_leaf placed member isRef inside (by rw [renamed]; rfl)
    simp only [recoverReference, Function.comp_apply, renamed, Pin.loosen, Placement.lowerPointer, found]
    have resolves (q : Pointer) (block : q.block = binding.block) (related : Pinned s pins q w) :
        Piece.Resolves starts (Pinned s pins) (.bytes (w.constant t)) (.pointer q) := by
      rw [← start, ← block]
      exact .pointer q w (by rw [block, start]; exact fits) related
    refine List.Forall₂.cons (resolves _ rfl ⟨?_, ?_, forced⟩) .nil
    · cases contained : pins.contains (name, w) <;> simp_all [Option.filter]
    · intro pinned
      cases contained : pins.contains (name, w) <;> simp_all [Option.filter]

theorem rawUnit_cases {region : Region} (inRegions : region ∈ r.regions) {unit : Nat × Item}
    (inUnits : unit ∈ r.rawUnits r.marks region) {i : Instruction} (isInstruction : unit.2 = .instruction i) :
    ∃ d ∈ r.code, d.instruction = i := by
  cases region with
  | code d =>
    obtain rfl := List.mem_singleton.1 inUnits
    cases isInstruction
    exact ⟨d, mem_of_code_mem_regionsFrom inRegions, rfl⟩
  | gap start stop =>
    simp only [rawUnits, units, List.mem_flatMap, List.mem_map] at inUnits
    obtain ⟨_, -, _, -, rfl⟩ := inUnits
    cases isInstruction

def scriptRawUnits (r : Recovery) : List (Nat × Item) := r.regions.flatMap (r.rawUnits r.marks)

theorem scriptUnits_eq_map (r : Recovery) : r.scriptUnits = r.scriptRawUnits.map fun unit =>
    (unit.1, unit.2.mapReferences (r.nameTarget r.marks)) := by
  rw [scriptUnits, scriptRawUnits, List.map_flatMap]
  exact congrArg (r.regions.flatMap ·) (funext (r.units_eq_map r.marks))

theorem scriptUnits_offsets (r : Recovery) : r.scriptUnits.map (·.1) = r.scriptRawUnits.map (·.1) := by
  rw [scriptUnits_eq_map, List.map_map]
  rfl

theorem items_loosen (s : Script) (pins : List Pin) :
    (s.loosen pins).items = s.items.map (Item.loosen pins) := by
  simp [Script.items, Script.loosen, List.flatMap_map, List.map_flatMap]

theorem loosen_items (items : s.items = r.scriptUnits.map (·.2)) (pins : List Pin) :
    (s.loosen pins).items = r.scriptRawUnits.map fun unit =>
      unit.2.mapReferences (r.recoverReference pins) := by
  rw [items_loosen, items, scriptUnits_eq_map, List.map_map, List.map_map]
  refine List.map_congr_left fun unit _ => ?_
  simp only [Function.comp_apply, Item.loosen_eq_mapReferences]
  exact Item.mapReferences_mapReferences (r.relabels_nameTarget r.marks) _ _

end Recovery

theorem Code.Rewidth.resolves {rel : Width → Width → Prop} {c d : Code} (rewidth : c.Rewidth rel d)
    {starts : Nat → Nat} {stored : Pointer → Width → Prop} {codes : List ItemCode}
    (free : ∀ q width w, q.forced = false → stored q w → stored { q with width := width } w)
    (exact : ∀ q ∈ d.pointers, ∀ w, stored q w → q.width = w)
    (resolves : List.Forall₂ (List.Forall₂ (Piece.Resolves starts stored)) codes c.items) :
    List.Forall₂ (List.Forall₂ (Piece.Resolves starts fun q w => q.width = w)) codes d.items := by
  have inside : ∀ item ∈ d.items, ∀ piece ∈ item, ∀ q, piece = .pointer q → q ∈ d.pointers := by
    intro item inItems piece inItem q isPointer
    exact List.mem_flatMap.2 ⟨item, inItems, List.mem_filterMap.2 ⟨piece, inItem, by rw [isPointer]⟩⟩
  refine forall₂_comp resolves (forall₂_and_right.2 ⟨List.rel_flatten rewidth, inside⟩) ?_
  rintro code item - item' related ⟨widths, inside⟩
  refine forall₂_comp related (forall₂_and_right.2 ⟨widths, inside⟩) ?_
  rintro a b - b' resolved ⟨widened, isPointer⟩
  cases resolved with
  | same piece notPointer =>
    cases widened with
    | same => exact .same _ notPointer
    | pointer p => exact absurd rfl (notPointer p)
  | pointer q w fits related =>
    cases widened with
    | same => exact .pointer q w fits (exact q (isPointer q rfl) w related)
    | pointer _ width isFree _ =>
      exact .pointer { q with width := width } w fits
        (exact _ (isPointer _ rfl) w (free q width w isFree related))

theorem Script.lower_blocks {s : Script} {c : Code} (lowered : s.lower = .ok c) :
    List.Forall₂ (fun b items => List.Forall₂ (fun item code => item.lower s.labels = .ok code) b.items items)
      s.blocks c :=
  (mapM_eq_ok.1 (lower_eq_ok.1 lowered).1).imp fun _ _ => mapM_eq_ok.1

theorem Script.lower_items {s : Script} {c : Code} (lowered : s.lower = .ok c) :
    List.Forall₂ (fun item code => item.lower s.labels = .ok code) s.items c.items :=
  List.rel_flatten (List.forall₂_map_left_iff.2 (Script.lower_blocks lowered))

def Script.blockStart (s : Script) (codes : List ItemCode) (k : Nat) : Nat :=
  ((codes.take ((s.blocks.take k).flatMap (·.items)).length).map ItemCode.size).sum

namespace Recovery

variable {r : Recovery} {s : Script} {pins : List Pin} {codes : List ItemCode}

theorem blockStart_eq (builds : r.marks.Builds r.scriptUnits (r.scriptUnits.map (·.1) ++ [r.data.length]) s)
    (sums : ∀ n offset, (r.scriptUnits.map (·.1) ++ [r.data.length])[n]? = some offset →
      ((codes.take n).map ItemCode.size).sum = offset)
    {t : Nat} {name : String} {binding : Binding} (named : r.marks.nameAt? t = some name)
    (found : s.labels.get? name = some binding) :
    s.blockStart codes binding.block = t ∧ binding.block < s.blocks.length := by
  obtain ⟨n, offset, here, named', items, bound⟩ := builds.get? found
  have inside := (List.getElem?_eq_some_iff.1 here).1
  rw [List.length_append, List.length_map, List.length_singleton] at inside
  have length : ((s.blocks.take binding.block).flatMap (·.items)).length = n := by
    rw [items, List.length_map, List.length_take]
    omega
  rw [Script.blockStart, length, sums n offset here]
  exact ⟨Marks.nameAt?_injective named' named, bound⟩

theorem unit_agree {starts : Nat → Nat} (placed : r.Placed s starts) (pins : List Pin) {unit : Nat × Item}
    (inUnits : unit ∈ r.scriptRawUnits) (isRaw : unit.2.IsRaw r.data.length) :
    Agree (List.Forall₂ (Piece.Resolves starts (Pinned s pins))) (unit.2.lower {})
      ((unit.2.mapReferences (r.recoverReference pins)).lower s.labels) := by
  obtain ⟨region, inRegions, inRegion⟩ := List.mem_flatMap.1 inUnits
  refine Item.lower_agree isRaw (relabels_recoverReference r pins) .same fun i isInstruction leaf inside => ?_
  obtain ⟨d, member, rfl⟩ := rawUnit_cases inRegions inRegion isInstruction
  rw [isInstruction] at isRaw
  exact pointersAgree placed member isRaw inside

/-- The blocks of the script start where its labels say. -/
theorem Scripts.placed {target : Target} {entries : List (EntryPoint × Nat)} (scripts : r.Scripts target entries s)
    (sums : ∀ n offset, (r.scriptUnits.map (·.1) ++ [r.data.length])[n]? = some offset →
      ((codes.take n).map ItemCode.size).sum = offset) : r.Placed s (s.blockStart codes) := by
  refine ⟨scripts.builds.items, fun t member notRaw => ?_⟩
  obtain ⟨name, binding, named, found⟩ := scripts.targets t member notRaw
  exact ⟨name, binding, named, found, (blockStart_eq scripts.builds sums named found).1⟩

theorem lower_resolves {starts : Nat → Nat} (placed : r.Placed s starts)
    (related : List.Forall₂ (fun (unit : Nat × Item) code =>
      unit.2.IsRaw r.data.length ∧ unit.2.lower {} = .ok code) r.scriptRawUnits codes)
    {c : Code} (lowered : (s.loosen pins).lower = .ok c) :
    List.Forall₂ (List.Forall₂ (Piece.Resolves starts (Pinned s pins))) codes c.items := by
  have items := Script.lower_items lowered
  rw [loosen_items placed.items, List.forall₂_map_left_iff] at items
  refine forall₂_comp related.flip items ?_
  rintro code unit inUnits code' ⟨isRaw, raw⟩ named
  obtain ⟨_, lowered', resolves⟩ := (unit_agree placed pins inUnits isRaw).of_ok_left raw
  cases named.symm.trans lowered'
  exact resolves

theorem settle_resolves {starts : Nat → Nat} {c d : Code} {limit passes : Nat}
    (lowered : (s.loosen pins).lower = .ok c) (settled : c.settle limit = .ok (d, passes))
    (complete : s.missingPins pins (.ofCode d passes) = [])
    (resolves : List.Forall₂ (List.Forall₂ (Piece.Resolves starts (Pinned s pins))) codes c.items) :
    List.Forall₂ (List.Forall₂ (Piece.Resolves starts fun q w => q.width = w)) codes d.items := by
  refine (Code.settle_rewidth settled).resolves (fun q width w free pinned => ?_) (fun q inCode w pinned => ?_)
    resolves
  · exact ⟨pinned.pinned, fun forced => by simp [free] at forced, pinned.forced⟩
  · cases free : q.forced with
    | true => exact pinned.width free
    | false =>
      obtain ⟨binding, found, block⟩ := Script.settle_bound lowered settled inCode
      have unpinned : (q.label, w) ∉ pins := by
        have := pinned.pinned
        simp_all
      by_contra different
      have missing : (q.label, w) ∈ s.missingPins pins (.ofCode d passes) := by
        refine Script.mem_missingPins.2 ⟨pinned.forced, unpinned, binding, found, fun same => different ?_⟩
        rw [Code.settle_exact (Script.lower_narrow lowered) settled inCode free, Code.target, block]
        exact same.symm
      simp [complete] at missing

end Recovery

section Placement

variable {starts : Nat → Nat} {code item : ItemCode} {codes items : List ItemCode}
  {addresses : List Nat}

theorem size_of_resolves
    (resolves : List.Forall₂ (Piece.Resolves starts fun q w => q.width = w) code item) :
    code.size = item.size := by
  have sizes : code.map Piece.size = item.map Piece.size :=
    List.forall₂_eq_eq_eq ▸ List.rel_map (fun _ _ h => h.size_eq) resolves
  rw [ItemCode.size, ItemCode.size, sizes]

theorem emit_of_resolves
    (resolves : List.Forall₂ (Piece.Resolves starts fun q w => q.width = w) code item)
    (placed : ∀ q, .pointer q ∈ item → addresses[q.block]? = some (starts q.block)) (stop address : Nat) :
    code.emit addresses stop address = item.emit addresses stop address := by
  induction resolves generalizing address with
  | nil => rfl
  | cons head _ ih =>
    rw [ItemCode.emit, ItemCode.emit, head.size_eq,
      head.emit_eq (fun q isPointer => placed q (isPointer ▸ List.mem_cons_self)),
      ih fun q member => placed q (List.mem_cons_of_mem _ member)]

theorem sizes_of_resolves
    (resolves : List.Forall₂ (List.Forall₂ (Piece.Resolves starts fun q w => q.width = w)) codes items) :
    codes.map ItemCode.size = items.map ItemCode.size :=
  List.forall₂_eq_eq_eq ▸ List.rel_map (fun _ _ h => size_of_resolves h) resolves

theorem emitItems_of_resolves
    (resolves : List.Forall₂ (List.Forall₂ (Piece.Resolves starts fun q w => q.width = w)) codes items)
    (placed : ∀ item ∈ items, ∀ q, .pointer q ∈ item → addresses[q.block]? = some (starts q.block))
    (address : Nat) : Code.emitItems addresses address codes = Code.emitItems addresses address items := by
  induction resolves generalizing address with
  | nil => rfl
  | cons head _ ih =>
    rw [Code.emitItems, Code.emitItems, size_of_resolves head,
      emit_of_resolves head (placed _ List.mem_cons_self),
      ih fun item member => placed item (List.mem_cons_of_mem _ member)]

end Placement

theorem Script.settle_lengths {s : Script} {c d : Code} {limit passes : Nat} (lowered : s.lower = .ok c)
    (settled : c.settle limit = .ok (d, passes)) :
    List.Forall₂ (fun (b : Block) items => b.items.length = items.length) s.blocks d :=
  forall₂_comp (Script.lower_blocks lowered) (Code.settle_rewidth settled)
    fun _ _ _ _ items widths => items.length_eq.trans widths.length_eq

theorem Script.length_blockAddresses {s : Script} {c d : Code} {limit passes : Nat} (lowered : s.lower = .ok c)
    (settled : c.settle limit = .ok (d, passes)) : d.blockAddresses.length = s.blocks.length := by
  rw [Code.length_blockAddresses, (settle_lengths lowered settled).length_eq]

theorem length_flatMap_items {blocks : List Block} {d : Code}
    (lengths : List.Forall₂ (fun (b : Block) items => b.items.length = items.length) blocks d) :
    (blocks.flatMap (·.items)).length = d.flatten.length := by
  induction lengths with
  | nil => rfl
  | cons head _ ih => rw [List.flatMap_cons, List.flatten_cons, List.length_append, List.length_append, head, ih]

theorem Script.blockAddresses_eq {s : Script} {d : Code} {codes : List ItemCode}
    (lengths : List.Forall₂ (fun (b : Block) items => b.items.length = items.length) s.blocks d)
    (sizes : codes.map ItemCode.size = d.items.map ItemCode.size) {k : Nat} (inside : k < s.blocks.length) :
    d.blockAddresses[k]? = some (s.blockStart codes k) := by
  have before : (d.take k).flatten = d.items.take ((s.blocks.take k).flatMap (·.items)).length := by
    rw [length_flatMap_items (List.forall₂_take k lengths), ← List.prefix_iff_eq_take]
    exact ⟨(d.drop k).flatten, by rw [← List.flatten_append, List.take_append_drop, Code.items]⟩
  rw [Code.getElem?_blockAddresses (lengths.length_eq ▸ inside), before, Script.blockStart, List.map_take,
    List.map_take, sizes]

namespace Recovery

variable {r : Recovery} {s : Script} {pins : List Pin} {target : Target}
  {entries : List (EntryPoint × Nat)}

/-- The recovered script is laid out as the buffer is: items and labels are where they were read, and
the bytes are those of the buffer. -/
theorem Ordered.reassembles (ordered : r.Ordered) (scripts : r.Scripts target entries s)
    {limit : Nat} {l : Layout} (laid : (s.loosen pins).layout limit = .ok l)
    (complete : s.missingPins pins l = []) : ∃ c d passes, (s.loosen pins).lower = .ok c ∧
      c.settle limit = .ok (d, passes) ∧ l = .ofCode d passes ∧ d.emit = .ok r.data ∧
        d.itemAddresses = r.scriptUnits.map (·.1) ∧
          ∀ t name binding, r.marks.nameAt? t = some name → s.labels.get? name = some binding →
            d.blockAddresses[binding.block]? = some t := by
  obtain ⟨c, d, passes, lowered, settled, rfl⟩ := Script.layout_eq_ok.1 laid
  have tiles : Tiles r.data 0 r.data.length r.scriptRawUnits := ordered.tiles
  obtain ⟨codes, related, sums, emits⟩ := tiles.exists_codes
  have offsets := r.scriptUnits_offsets
  simp only [Nat.zero_add, ← offsets] at sums
  -- The units have the addresses that the labels are to get, and settling gives the widths these ask for.
  have placed := scripts.placed sums
  have resolves := settle_resolves lowered settled complete (lower_resolves placed related lowered)
  have sizes := sizes_of_resolves resolves
  have lengths : List.Forall₂ (fun (b : Block) items => b.items.length = items.length) s.blocks d := by
    have := Script.settle_lengths lowered settled
    simpa [Script.loosen, List.forall₂_map_left_iff] using this
  refine ⟨c, d, passes, lowered, settled, rfl, Code.emit_eq_ok.2 ?_, ?_, fun t name binding named found => ?_⟩
  · obtain ⟨bs, emitted, inside, length⟩ := emits d.blockAddresses
    obtain rfl : bs = r.data := inside.eq_of_length (by simpa using length)
    rw [← emitted]
    refine (emitItems_of_resolves resolves (fun item inItems q inItem => ?_) 0).symm
    have inCode : q ∈ d.pointers :=
      List.mem_flatMap.2 ⟨item, inItems, List.mem_filterMap.2 ⟨_, inItem, rfl⟩⟩
    obtain ⟨binding, found, block⟩ := Script.settle_bound lowered settled inCode
    obtain ⟨_, _, -, -, -, bound⟩ := scripts.builds.get? found
    rw [block]
    exact Script.blockAddresses_eq lengths sizes bound
  · have count : (d.items.map ItemCode.size).length = (r.scriptUnits.map (·.1)).length := by
      rw [← sizes, offsets, List.length_map, List.length_map, related.length_eq]
    refine List.ext_getElem? fun n => ?_
    rcases Nat.lt_or_ge n (d.items.map ItemCode.size).length with inside | outside
    · have here := List.getElem?_eq_getElem (count ▸ inside)
      have sum := sums n _ ((List.getElem?_append_left (count ▸ inside)).trans here)
      rw [Code.itemAddresses, Code.getElem?_addressesFrom inside, Nat.zero_add, ← sizes, ← List.map_take,
        sum, here]
    · have length : d.itemAddresses.length = (d.items.map ItemCode.size).length :=
        Code.length_addressesFrom ..
      rw [List.getElem?_eq_none (by omega), List.getElem?_eq_none (by omega)]
  · obtain ⟨start, bound⟩ := blockStart_eq scripts.builds sums named found
    rw [Script.blockAddresses_eq lengths sizes bound, start]

end Recovery

namespace Recovery

variable {r : Recovery} {data : Bytes} {seeds : List Seed}

theorem check_eq_ok {size : Nat} {seed : Seed} {mark : LabelKind × Nat} :
    Seed.check size seed = .ok mark ↔ (0 ≤ seed.2 ∧ seed.2 ≤ size) ∧ mark = (seed.kind, seed.2.toNat) := by
  unfold Seed.check
  split
  · rename_i inside
    rw [Except.ok.injEq, and_iff_right inside, eq_comm]
  · rename_i outside
    exact iff_of_false (fun h => by cases h) fun h => outside h.1

/-- A seed is the offset of an item or the end of the buffer. -/
theorem seed_offset (recovered : ofSeeds data seeds = .ok r) {seed : Seed} (member : seed ∈ seeds) :
    0 ≤ seed.2 ∧ seed.2.toNat ∈ r.scriptUnits.map (·.1) ++ [r.data.length] := by
  obtain ⟨starts, found, checked, explored, rfl⟩ := ofSeeds_eq_ok.1 recovered
  obtain ⟨mark, inStarts, isMark⟩ := exists_right_of_mem (mapM_eq_ok.1 checked) member
  obtain ⟨⟨nonneg, inside⟩, rfl⟩ := check_eq_ok.1 isMark
  refine ⟨nonneg, ?_⟩
  rcases Nat.lt_or_ge seed.2.toNat data.length with before | atEnd
  · obtain ⟨d, inFound, same⟩ := Explore.explore_complete explored seed.2.toNat
      (List.mem_reverse.2 (List.mem_map.2 ⟨_, inStarts, rfl⟩)) before
    refine List.mem_append_left _ (List.mem_map.2 ⟨(d.offset, _), List.mem_flatMap.2 ⟨.code d, ?_,
      List.mem_singleton.2 rfl⟩, same⟩)
    exact code_mem_regionsFrom ((List.mergeSort_perm ..).mem_iff.2 inFound)
  · refine List.mem_append_right _ (List.mem_singleton.2 ?_)
    dsimp only
    omega

end Recovery

namespace Script

variable {data : Bytes} {seeds : List Seed} {target : Option Target} {limit : Nat} {s : Script}

theorem disassemble_eq_ok : disassemble data seeds target limit = .ok s ↔ ∃ r s₀,
    Recovery.ofSeeds data seeds = .ok r ∧
      r.script (target.getD (.ofSeeds seeds))
        (seeds.filterMap fun (entry, offset) => entry.map (·, offset.toNat)) = .ok s₀ ∧
        s₀.minimizePins limit = .ok s := by
  unfold disassemble recover
  rw [bind_eq_ok]
  refine exists_congr fun r => ?_
  have lifted : (liftM (Recovery.ofSeeds data seeds) : Except Error Recovery) =
      (Recovery.ofSeeds data seeds).mapError .decode := rfl
  rw [lifted, mapError_eq_ok, bind_eq_ok]
  exact ⟨fun ⟨recovered, s₀, rest⟩ => ⟨s₀, recovered, rest⟩, fun ⟨s₀, recovered, rest⟩ => ⟨recovered, s₀, rest⟩⟩

def declaredEntries (seeds : List Seed) : List (EntryPoint × Nat) :=
  seeds.filterMap fun (entry, offset) => entry.map (·, offset.toNat)

theorem mem_declaredEntries {entry : EntryPoint} {address : Nat} :
    (entry, address) ∈ declaredEntries seeds ↔
      ∃ offset, (some entry, offset) ∈ seeds ∧ offset.toNat = address := by
  simp only [declaredEntries, List.mem_filterMap, Option.map_eq_some_iff, Prod.exists, Prod.mk.injEq]
  constructor
  · rintro ⟨_, offset, member, _, rfl, rfl, rfl⟩
    exact ⟨offset, member, rfl⟩
  · rintro ⟨offset, member, rfl⟩
    exact ⟨_, offset, member, entry, rfl, rfl, rfl⟩

/-- The recovered script and its layout: items and labels are where they were read. -/
theorem disassemble_layout (disassembled : disassemble data seeds target limit = .ok s) :
    ∃ r s₀ pins c d passes, Recovery.ofSeeds data seeds = .ok r ∧
      r.Scripts (target.getD (.ofSeeds seeds)) (declaredEntries seeds) s₀ ∧ s = s₀.loosen pins ∧
      s.lower = .ok c ∧ c.settle limit = .ok (d, passes) ∧ d.emit = .ok data ∧
      d.itemAddresses = r.scriptUnits.map (·.1) ∧
      ∀ t name binding, r.marks.nameAt? t = some name → s₀.labels.get? name = some binding →
        d.blockAddresses[binding.block]? = some t := by
  obtain ⟨r, s₀, recovered, built, minimized⟩ := disassemble_eq_ok.1 disassembled
  obtain ⟨rfl, ordered⟩ := Recovery.ofSeeds_ordered recovered
  obtain ⟨pins, l, rfl, laid, complete⟩ := minimizePins_eq_ok minimized
  have scripts := Recovery.script_eq_ok built
  obtain ⟨c, d, passes, lowered, settled, -, emitted, items, labels⟩ :=
    ordered.reassembles scripts laid complete
  exact ⟨r, s₀, pins, c, d, passes, recovered, scripts, rfl, lowered, settled, emitted, items, labels⟩

theorem entryAddresses_eq_ok {l : Layout} {table : List (EntryPoint × Nat)} : s.entryAddresses l = .ok table ↔
    List.Forall₂ (fun e e' => e'.1 = e.1 ∧ l.addressOf s e.2 = .ok e'.2) s.entryPoints table := by
  have stepped {e : EntryPoint × String} {e' : EntryPoint × Nat} :
      (do return (e.1, ← l.addressOf s e.2) : Except Error (EntryPoint × Nat)) = .ok e' ↔
        e'.1 = e.1 ∧ l.addressOf s e.2 = .ok e'.2 := by
    simp only [bind_eq_ok, pure_eq_ok]
    constructor
    · rintro ⟨address, placed, rfl⟩
      exact ⟨rfl, placed⟩
    · rintro ⟨same, placed⟩
      exact ⟨e'.2, placed, by rw [← same]⟩
  exact mapM_eq_ok.trans
    ⟨fun related => related.imp fun _ _ => stepped.1, fun related => related.imp fun _ _ => stepped.2⟩

theorem keys_entryAddresses {l : Layout} {table : List (EntryPoint × Nat)} (placed : s.entryAddresses l = .ok table) :
    (table.map Prod.fst).Perm (s.entries.map Prod.fst) := by
  have keys : table.map Prod.fst = s.entryPoints.map Prod.fst :=
    List.forall₂_eq_eq_eq ▸ List.rel_map (fun _ _ h => h.1) (entryAddresses_eq_ok.1 placed).flip
  rw [keys]
  exact (List.mergeSort_perm ..).map Prod.fst

theorem entryAddresses_of_placed {l : Layout} {entries : List (EntryPoint × Nat)}
    (each : ∀ e ∈ s.entries, ∃ address, (e.1, address) ∈ entries ∧ l.addressOf s e.2 = .ok address)
    (all : ∀ e ∈ entries, ∃ label, (e.1, label) ∈ s.entries ∧ l.addressOf s label = .ok e.2)
    (distinct : (s.entries.map Prod.fst).Nodup) : ∃ table, s.entryAddresses l = .ok table ∧
      (table.map Prod.fst).Nodup ∧ ∀ e, e ∈ table ↔ e ∈ entries := by
  have perm := List.mergeSort_perm s.entries fun a b => a.1.tableLe b.1
  obtain ⟨table, mapped⟩ : ∃ table, s.entryAddresses l = .ok table := by
    refine exists_mapM fun e member => ?_
    obtain ⟨address, -, placed⟩ := each e (perm.mem_iff.1 member)
    exact ⟨(e.1, address), map_eq_ok.2 ⟨address, placed, rfl⟩⟩
  have related := entryAddresses_eq_ok.1 mapped
  refine ⟨table, mapped, (keys_entryAddresses mapped).nodup_iff.2 distinct,
    fun e => ⟨fun member => ?_, fun member => ?_⟩⟩
  · obtain ⟨entry, inPoints, same, placed⟩ := exists_left_of_mem related member
    obtain ⟨address, declared, placed'⟩ := each entry (perm.mem_iff.1 inPoints)
    cases placed.symm.trans placed'
    rwa [← same] at declared
  · obtain ⟨label, inEntries, placed⟩ := all e member
    obtain ⟨e', inTable, same, placed'⟩ := exists_right_of_mem related (perm.mem_iff.2 inEntries)
    obtain rfl : e' = e := Prod.ext same (Except.ok.inj (placed'.symm.trans placed))
    exact inTable

/-- What was disassembled assembles to the same bytes, with an entry table of exactly the entry points
that were declared, each at the offset that was given for it. -/
theorem assemble_disassemble (disassembled : disassemble data seeds target limit = .ok s) :
    ∃ a, s.assemble limit = .ok a ∧ a.bytes = data ∧ (a.entries.map Prod.fst).Nodup ∧
      (∀ entry offset, (some entry, offset) ∈ seeds ↔
        ∃ address : Nat, (entry, address) ∈ a.entries ∧ (address : Int) = offset) ∧
      s.verify data limit = .ok () := by
  obtain ⟨r, s₀, pins, c, d, passes, recovered, scripts, rfl, lowered, settled, emitted, -, labels⟩ :=
    disassemble_layout disassembled
  have placed {offset : Nat} {name : String} (inUnits : offset ∈ r.scriptUnits.map (·.1) ++ [r.data.length])
      (named : r.marks.nameAt? offset = some name) :
      (Layout.ofCode d passes).addressOf (s₀.loosen pins) name = .ok offset := by
    obtain ⟨binding, found⟩ := scripts.builds.declared inUnits named
    have found' : (s₀.loosen pins).labels.get? name = some binding := found
    rw [Layout.addressOf_eq found', blockAddress_eq_ok]
    exact labels offset name binding named found
  have declaredOffset {e : EntryPoint × Nat} (member : e ∈ declaredEntries seeds) :
      e.2 ∈ r.scriptUnits.map (·.1) ++ [r.data.length] := by
    obtain ⟨offset, inSeeds, same⟩ := mem_declaredEntries.1 member
    exact same ▸ (Recovery.seed_offset recovered inSeeds).2
  obtain ⟨table, mapped, distinct, exactly⟩ : ∃ table, (s₀.loosen pins).entryAddresses (.ofCode d passes) =
      .ok table ∧ (table.map Prod.fst).Nodup ∧ ∀ e, e ∈ table ↔ e ∈ declaredEntries seeds := by
    refine entryAddresses_of_placed (fun e member => ?_) (fun e member => ?_) scripts.distinct
    · obtain ⟨e', declared, same, named⟩ := exists_left_of_mem scripts.entries member
      exact ⟨e'.2, same ▸ declared, placed (declaredOffset declared) named⟩
    · obtain ⟨e', inEntries, same, named⟩ := exists_right_of_mem scripts.entries member
      exact ⟨e'.2, same ▸ inEntries, placed (declaredOffset member) named⟩
  have assembled : (s₀.loosen pins).assemble limit = .ok ⟨data, table, .ofCode d passes⟩ := by
    simp only [assemble, lowered, settled, emitted, mapped, Bind.bind, Except.bind, Pure.pure, Except.pure]
  refine ⟨_, assembled, rfl, distinct, fun entry offset => ?_, ?_⟩
  · simp only [exactly, mem_declaredEntries]
    constructor
    · intro member
      have nonneg : 0 ≤ offset := (Recovery.seed_offset recovered member).1
      exact ⟨offset.toNat, ⟨offset, member, rfl⟩, Int.toNat_of_nonneg nonneg⟩
    · rintro ⟨_, ⟨offset', member, rfl⟩, rfl⟩
      have nonneg : 0 ≤ offset' := (Recovery.seed_offset recovered member).1
      rwa [Int.toNat_of_nonneg nonneg]
  · simp only [verify, assembled, Bind.bind, Except.bind, ne_eq, not_true_eq_false, if_false]
    rfl

/-- A `goto` that stores its address in two bytes where one would do, over a `run` that goes back to
it. -/
def wideJump : Bytes := [3, 23, 7, 0, 12, 33, 0, 2]

theorem explore_wideJump : Explore.explore wideJump [4, 0] [] =
    .ok [⟨0, 4, ⟨"goto", [.offset 7 (some .word) false none], none⟩⟩, ⟨7, 1, ⟨"return", [], none⟩⟩,
      ⟨4, 3, ⟨"run", [.offset 0 (some .byte) false none], none⟩⟩] := by
  rw [Explore.explore_visit (by decide) rfl rfl]
  change Explore.explore wideJump [7, 0, 0] _ = _
  rw [Explore.explore_visit (by decide) rfl rfl]
  change Explore.explore wideJump [0, 0] _ = _
  rw [Explore.explore_visit (by decide) rfl rfl]
  change Explore.explore wideJump [7, 0] _ = _
  rw [Explore.explore_skip fun _ => rfl, Explore.explore_skip fun _ => rfl, Explore.explore]
  rfl

theorem assemble_disassemble_wideJump :
    ∃ s, disassemble wideJump [(some (.event .prologue), 0), (none, 4)] none 64 = .ok s ∧
      ∃ a, s.assemble 64 = .ok a ∧ a.bytes = wideJump ∧ (a.entries.map Prod.fst).Nodup ∧
      (∀ entry offset, (some entry, offset) ∈ [(some (.event .prologue), 0), (none, 4)] ↔
        ∃ address : Nat, (entry, address) ∈ a.entries ∧ (address : Int) = offset) ∧
      s.verify wideJump 64 = .ok () := by
  have recovered : Recovery.ofSeeds wideJump [(some (.event .prologue), 0), (none, 4)] =
      .ok ⟨wideJump, [(.event, 0), (.event, 4)],
        [⟨0, 4, ⟨"goto", [.offset 7 (some .word) false none], none⟩⟩,
          ⟨4, 3, ⟨"run", [.offset 0 (some .byte) false none], none⟩⟩, ⟨7, 1, ⟨"return", [], none⟩⟩]⟩ :=
    Recovery.ofSeeds_eq_ok.2 ⟨_, _, rfl, explore_wideJump, by simp [List.mergeSort, Seed.kind]⟩
  have succeeds : (disassemble wideJump [(some (.event .prologue), 0), (none, 4)] none 64).isOk = true := by
    rw [disassemble, recovered]
    decide +kernel
  cases disassembled : disassemble wideJump [(some (.event .prologue), 0), (none, 4)] none 64 with
  | error =>
    rw [disassembled] at succeeds
    cases succeeds
  | ok s => exact ⟨s, rfl, assemble_disassemble disassembled⟩

end Script

end EventScript
