import EventScript.Proofs.Rediscovery

namespace EventScript

theorem mapIdx_congr {α β γ : Type} {r : α → β → Prop} {xs : List α} {ys : List β} (related : List.Forall₂ r xs ys)
    {f : Nat → α → γ} {g : Nat → β → γ} (same : ∀ k x y, r x y → f k x = g k y) : xs.mapIdx f = ys.mapIdx g := by
  have mapped := map_mapIdx_of_forall₂ related fun k x y h => congrArg id (same k x y h)
  rwa [List.map_id, List.map_id] at mapped

namespace Operand

theorem walk_leaf {o : Operand} (notExpr : ∀ op args span, o ≠ .expr op args span) : o.walk = [o] := by
  cases o <;> first | exact absurd rfl (notExpr _ _ _) | rfl

theorem mapLeaves_leaf {o : Operand} (notExpr : ∀ op args span, o ≠ .expr op args span) (change : Operand → Operand) :
    o.mapLeaves change = change o := by
  cases o <;> first | exact absurd rfl (notExpr _ _ _) | rfl

theorem ne_expr_of_isReference {o : Operand} (isRef : o.isReference = true) (op : String) (args : List Operand)
    (span : Option Span) : o ≠ .expr op args span := by
  intro same
  rw [same] at isRef
  cases isRef

section Changed

variable {α : Type} {change : Operand → Operand} {f : Operand → Option α}

theorem filterMap_walk_mapLeaves (h : Relabels change) (only : ∀ o, o.isReference = false → f o = none)
    (o : Operand) : (o.mapLeaves change).walk.filterMap f = o.walk.filterMap (f ∘ change) := by
  induction o using expr_induction with
  | leaf o notExpr =>
    have leaf : (change o).walk = [change o] := by
      apply walk_leaf
      by_cases isRef : o.isReference = true
      · exact ne_expr_of_isReference (h.reference o isRef).1
      · rwa [h.other o (by simpa using isRef)]
    rw [mapLeaves_leaf notExpr, leaf, walk_leaf notExpr]
    rfl
  | expr op args span ih =>
    have here : (f ∘ change) (.expr op args span) = none := by
      rw [Function.comp_apply, h.other _ rfl]
      exact only _ rfl
    rw [mapLeaves, walk, walk, List.filterMap_cons_none (only _ rfl), List.filterMap_cons_none here,
      mapLeavesAll_eq_map, walkAll_eq_flatMap, walkAll_eq_flatMap, List.filterMap_flatMap, List.filterMap_flatMap,
      List.flatMap_map]
    exact List.flatMap_congr ih

theorem filterMap_walkAll_mapLeavesAll (h : Relabels change) (only : ∀ o, o.isReference = false → f o = none)
    (os : List Operand) : (walkAll (mapLeavesAll change os)).filterMap f = (walkAll os).filterMap (f ∘ change) := by
  induction os with
  | nil => rfl
  | cons o os ih =>
    rw [mapLeavesAll, walkAll, walkAll, List.filterMap_append, List.filterMap_append,
      filterMap_walk_mapLeaves h only, ih]

theorem mapLeaves_eq_self {o : Operand} (same : ∀ leaf ∈ o.walk, change leaf = leaf) : o.mapLeaves change = o := by
  induction o using expr_induction with
  | leaf o notExpr =>
    rw [mapLeaves_leaf notExpr]
    exact same o (mem_walk_self o)
  | expr op args span ih =>
    rw [mapLeaves, mapLeavesAll_eq_map]
    congr 1
    refine (List.map_congr_left fun a isArg => ?_).trans (List.map_id args)
    exact ih a isArg fun leaf inArg => same leaf (mem_walk_of_arg isArg inArg)

theorem mapLeavesAll_eq_self {os : List Operand} (same : ∀ leaf ∈ walkAll os, change leaf = leaf) :
    mapLeavesAll change os = os := by
  rw [walkAll_eq_flatMap] at same
  rw [mapLeavesAll_eq_map]
  refine (List.map_congr_left fun o isOperand => ?_).trans (List.map_id os)
  exact mapLeaves_eq_self fun leaf inside => same leaf (List.mem_flatMap.2 ⟨o, isOperand, inside⟩)

end Changed

end Operand

def Piece.mapPointer (f : Pointer → Pointer) : Piece → Piece
  | .pointer p => .pointer (f p)
  | piece => piece

theorem Code.mapPointers_eq (f : Pointer → Pointer) (c : Code) :
    c.mapPointers f = c.map (·.map (·.map (Piece.mapPointer f))) := rfl

theorem Piece.mapPointer_of_notPointer (f : Pointer → Pointer) {piece : Piece} (notPointer : ∀ q, piece ≠ .pointer q) :
    piece.mapPointer f = piece := by
  cases piece <;> first | exact absurd rfl (notPointer _) | rfl

/-- The pointer of a reference that is freed unless it is pinned. -/
def Pointer.loosen (pins : List Pin) (p : Pointer) : Pointer :=
  if p.forced && !pins.contains (p.label, p.width) then { p with width := .byte, forced := false } else p

theorem Pin.pointersAgree_loosen (labels : LabelTable) (pins : List Pin) (o : Operand) :
    Placement.PointersAgree labels labels (fun a b => b = a.mapPointer (Pointer.loosen pins)) (Pin.loosen pins) o := by
  intro isRef site span
  cases o <;> simp only [Operand.isReference, Bool.false_eq_true] at isRef
  case offset value width isElse offsetSpan =>
    simp only [Pin.loosen, Placement.lowerPointer]
    split
    · exact .cons rfl .nil
    · exact True.intro
  case label name width isElse labelSpan =>
    simp only [Pin.loosen, Placement.lowerPointer]
    cases labels.get? name with
    | none => exact True.intro
    | some binding =>
      refine List.Forall₂.cons ?_ .nil
      cases width with
      | none => rfl
      | some w =>
        by_cases pinned : (name, w) ∈ pins <;> simp [Piece.mapPointer, Pointer.loosen, pinned, Option.filter]

theorem Item.lower_loosen {labels : LabelTable} {item : Item} {code : ItemCode} (lowered : item.lower labels = .ok code)
    (pins : List Pin) : (item.loosen pins).lower labels = .ok (code.map (Piece.mapPointer (Pointer.loosen pins))) := by
  cases item with
  | instruction i =>
    have fixed (piece : Piece) (notPointer : ∀ q, piece ≠ .pointer q) :
        piece = piece.mapPointer (Pointer.loosen pins) := (Piece.mapPointer_of_notPointer _ notPointer).symm
    have agree := Instruction.lower_agree (Recovery.relabels_loosen pins) fixed
      fun leaf (_ : leaf ∈ Operand.walkAll i.operands) => Pin.pointersAgree_loosen labels pins leaf
    obtain ⟨code', lowered', related⟩ := agree.of_ok_left lowered
    have same : code.map (Piece.mapPointer (Pointer.loosen pins)) = code' := by
      rw [← List.forall₂_eq_eq_eq, List.forall₂_map_left_iff]
      exact related.imp fun _ _ => Eq.symm
    rw [same]
    exact lowered'
  | data d =>
    have same : code.map (Piece.mapPointer (Pointer.loosen pins)) = code := by
      refine (List.map_congr_left fun piece member => ?_).trans (List.map_id code)
      apply Piece.mapPointer_of_notPointer
      intro q isPointer
      exact d.lower_no_pointer lowered q (isPointer ▸ member)
    rw [same]
    exact lowered

namespace Script

variable {s : Script} {c : Code} {pins : List Pin}

theorem lower_loosen {c' : Code} (lowered : s.lower = .ok c) (loosened : (s.loosen pins).lower = .ok c') :
    c' = c.mapPointers (Pointer.loosen pins) := by
  have blocks : (s.loosen pins).lowerBlocks = .ok (c.mapPointers (Pointer.loosen pins)) := by
    rw [Code.mapPointers_eq]
    apply mapM_eq_ok.2
    rw [loosen, List.forall₂_map_left_iff, List.forall₂_map_right_iff]
    refine (lower_blocks lowered).imp fun b items blockLowered => mapM_eq_ok.2 ?_
    rw [List.forall₂_map_left_iff, List.forall₂_map_right_iff]
    exact blockLowered.imp fun item code itemLowered => Item.lower_loosen itemLowered pins
  exact Except.ok.inj ((lower_eq_ok.1 loosened).1.symm.trans blocks)

end Script

def Item.forcedReferences : Item → List Pin
  | .instruction i => (Operand.walkAll i.operands).filterMap Pin.ofOperand?
  | .data _ => []

theorem Pin.ofOperand?_eq_none {o : Operand} (notRef : o.isReference = false) : Pin.ofOperand? o = none := by
  cases o <;> first | rfl | cases notRef

namespace Script

variable {s : Script} {pins : List Pin}

theorem forcedReferences_eq (s : Script) : s.forcedReferences = s.items.flatMap Item.forcedReferences := rfl

theorem forcedReferences_loosen (s : Script) (pins : List Pin) :
    (s.loosen pins).forcedReferences = s.forcedReferences.filter (pins.contains ·) := by
  rw [forcedReferences_eq, forcedReferences_eq, Recovery.items_loosen, List.flatMap_map, List.filter_flatMap]
  refine List.flatMap_congr fun item _ => ?_
  cases item with
  | data d => rfl
  | instruction i =>
    rw [Item.loosen, Item.forcedReferences, Item.forcedReferences,
      Operand.filterMap_walkAll_mapLeavesAll (Recovery.relabels_loosen pins) fun _ => Pin.ofOperand?_eq_none,
      List.filter_filterMap]
    refine List.filterMap_congr fun leaf _ => ?_
    cases leaf with
    | label name width isElse span =>
      cases width with
      | none => rfl
      | some w => by_cases pinned : (name, w) ∈ pins <;> simp [Pin.loosen, Pin.ofOperand?, pinned, Option.filter]
    | _ => rfl

theorem loosen_forcedReferences (s : Script) : s.loosen s.forcedReferences = s := by
  have item (item : Item) (inItems : item ∈ s.items) : item.loosen s.forcedReferences = item := by
    cases item with
    | data d => rfl
    | instruction i =>
      rw [Item.loosen, Operand.mapLeavesAll_eq_self]
      intro leaf inside
      cases leaf with
      | label name width isElse span =>
        cases width with
        | none => rfl
        | some w =>
          have forced : (name, w) ∈ s.forcedReferences := List.mem_flatMap.2
            ⟨.instruction i, inItems, List.mem_filterMap.2 ⟨_, inside, rfl⟩⟩
          simp [Pin.loosen, forced, Option.filter]
      | _ => rfl
  have blocks : s.blocks.map (fun b => { b with items := b.items.map (Item.loosen s.forcedReferences) }) =
      s.blocks := by
    refine (List.map_congr_left fun b inBlocks => ?_).trans (List.map_id s.blocks)
    have items : b.items.map (Item.loosen s.forcedReferences) = b.items := by
      refine (List.map_congr_left fun i inBlock => ?_).trans (List.map_id b.items)
      exact item i (List.mem_flatMap.2 ⟨b, inBlocks, inBlock⟩)
    rw [items]
    rfl
  rw [loosen, blocks]

end Script

/-- Equal, but for what is forced. -/
inductive Piece.Alike : Piece → Piece → Prop
  | same (piece : Piece) : Alike piece piece
  | pointer (p : Pointer) (forced : Bool) : Alike (.pointer p) (.pointer { p with forced })

namespace Piece.Alike

variable {a b : Piece}

theorem size_eq (alike : a.Alike b) : a.size = b.size := by
  cases alike <;> rfl

end Piece.Alike

namespace ItemCode

variable {a b : ItemCode}

theorem size_of_alike (alike : List.Forall₂ Piece.Alike a b) : a.size = b.size := by
  rw [size, size, map_eq_of_forall₂ alike fun _ _ h => h.size_eq]

theorem pointers_of_alike {α : Type} {f : Pointer → α} (unforced : ∀ p forced, f { p with forced } = f p)
    (alike : List.Forall₂ Piece.Alike a b) : a.pointers.map f = b.pointers.map f := by
  induction alike with
  | nil => rfl
  | @cons piece _ _ _ head _ ih =>
    cases head with
    | same => cases piece <;> simp_all [pointers]
    | pointer p forced => exact congrArg₂ List.cons (unforced p forced).symm ih

end ItemCode

namespace Code

variable {c d : Code}

/-- Code with the same pieces in the same widths; what is forced may differ. -/
def Alike (c d : Code) : Prop := List.Forall₂ (List.Forall₂ (List.Forall₂ Piece.Alike)) c d

theorem Alike.ofCode_eq (alike : c.Alike d) (n m : Nat) :
    Layout.ofCode d m = { Layout.ofCode c n with passes := m } := by
  have items : List.Forall₂ (List.Forall₂ Piece.Alike) c.items d.items := List.rel_flatten alike
  have sizes {block block' : List ItemCode} (related : List.Forall₂ (List.Forall₂ Piece.Alike) block block') :
      block.map ItemCode.size = block'.map ItemCode.size :=
    map_eq_of_forall₂ related fun _ _ => ItemCode.size_of_alike
  have blockSizes : c.blockSizes = d.blockSizes :=
    map_eq_of_forall₂ alike fun _ _ related => congrArg List.sum (sizes related)
  have fixups : (Layout.ofCode c n).fixups = (Layout.ofCode d m).fixups :=
    congrArg List.flatten (mapIdx_congr items fun k _ _ related => ItemCode.pointers_of_alike (fun _ _ => rfl) related)
  have laid (e : Code) (k : Nat) : Layout.ofCode e k =
      ⟨(e.items.map ItemCode.size).sum, k, addressesFrom 0 e.blockSizes, addressesFrom 0 (e.items.map ItemCode.size),
        (Layout.ofCode e k).fixups⟩ := rfl
  rw [laid c, laid d, sizes items, blockSizes, fixups]

theorem forall₂_pieces {rel rel' : Piece → Piece → Prop}
    (related : List.Forall₂ (List.Forall₂ (List.Forall₂ rel)) c d)
    (next : ∀ a b, rel a b → (∀ p, a = .pointer p → p ∈ c.pointers) → (∀ q, b = .pointer q → q ∈ d.pointers) →
      rel' a b) : List.Forall₂ (List.Forall₂ (List.Forall₂ rel')) c d := by
  have attach {α : Type} {r : α → α → Prop} {xs ys : List α} (h : List.Forall₂ r xs ys) :
      List.Forall₂ (fun x y => (x ∈ xs ∧ r x y) ∧ y ∈ ys) xs ys :=
    forall₂_and_right.2 ⟨(List.forall₂_and_left ..).2 ⟨fun _ member => member, h⟩, fun _ member => member⟩
  refine (attach related).imp fun block block' hb => (attach hb.1.2).imp fun item item' hi =>
    (attach hi.1.2).imp fun a b hp => next a b hp.1.2 ?_ ?_
  · intro p isPointer
    exact mem_pointers.2 ⟨block, hb.1.1, item, hi.1.1, isPointer ▸ hp.1.1⟩
  · intro q isPointer
    exact mem_pointers.2 ⟨block', hb.2, item', hi.2, isPointer ▸ hp.2⟩

end Code

namespace Script

variable {s : Script} {c d : Code} {pins : List Pin} {limit passes : Nat}

theorem width_of_missingPins (loosened : (s.loosen pins).lower = .ok (c.mapPointers (Pointer.loosen pins)))
    (settled : (c.mapPointers (Pointer.loosen pins)).settle limit = .ok (d, passes))
    (complete : s.missingPins pins (.ofCode d passes) = []) {p q : Pointer}
    (forced : (p.label, p.width) ∈ s.forcedReferences) (free : (p.label, p.width) ∉ pins) (inSettled : q ∈ d.pointers)
    (label : q.label = p.label) (unforced : q.forced = false) : q.width = p.width := by
  obtain ⟨binding, found, block⟩ := settle_bound loosened settled inSettled
  have exact := Code.settle_exact (lower_narrow loosened) settled inSettled unforced
  by_contra different
  have missing : (p.label, p.width) ∈ s.missingPins pins (.ofCode d passes) := by
    refine mem_missingPins.2 ⟨forced, free, binding, label ▸ found, fun same => different ?_⟩
    rw [exact, Code.target, block]
    exact same.symm
  simp [complete] at missing

theorem alike_of_missingPins (loosened : (s.loosen pins).lower = .ok (c.mapPointers (Pointer.loosen pins)))
    (forced : ∀ p ∈ c.pointers, p.forced = true ∧ (p.label, p.width) ∈ s.forcedReferences)
    (settled : (c.mapPointers (Pointer.loosen pins)).settle limit = .ok (d, passes))
    (complete : s.missingPins pins (.ofCode d passes) = []) : c.Alike d := by
  have rewidth := Code.settle_rewidth settled
  rw [Code.Rewidth, Code.mapPointers_eq, List.forall₂_map_left_iff] at rewidth
  have related : List.Forall₂ (List.Forall₂ (List.Forall₂ fun a b =>
      Piece.Rewidth (· ≤ ·) (a.mapPointer (Pointer.loosen pins)) b)) c d := by
    refine rewidth.imp fun block block' items => ?_
    rw [List.forall₂_map_left_iff] at items
    refine items.imp fun item item' pieces => ?_
    rwa [List.forall₂_map_left_iff] at pieces
  refine Code.forall₂_pieces related fun a b widened inLowered inSettled => ?_
  cases a with
  | pointer p =>
    obtain ⟨isForced, isReference⟩ := forced p (inLowered p rfl)
    by_cases pinned : (p.label, p.width) ∈ pins
    · have kept : p.loosen pins = p := by simp [Pointer.loosen, pinned]
      rw [Piece.mapPointer, kept] at widened
      cases widened with
      | same => exact .same _
      | pointer _ _ free => simp [isForced] at free
    · have freed : p.loosen pins = { p with width := .byte, forced := false } := by
        simp [Pointer.loosen, isForced, pinned]
      rw [Piece.mapPointer, freed] at widened
      obtain ⟨w, rfl⟩ : ∃ w, b = .pointer { p with width := w, forced := false } := by
        cases widened <;> exact ⟨_, rfl⟩
      obtain rfl : w = p.width :=
        width_of_missingPins loosened settled complete isReference pinned (inSettled _ rfl) rfl rfl
      exact .pointer p false
  | _ =>
    cases widened
    exact .same _

end Script

theorem Width.lt_ofAddress {a : Nat} {w : Width} (fits : a < 2 ^ w.bits) : a < 2 ^ (ofAddress a).bits := by
  have long : a < 2 ^ Width.long.bits := by
    cases w <;> simp only [bits, bytes, Nat.reduceMul, Nat.reducePow] at fits ⊢ <;> omega
  simp only [bits, bytes, Nat.reduceMul, Nat.reducePow] at long
  unfold ofAddress
  split_ifs <;> simp only [bits, bytes, Nat.reduceMul, Nat.reducePow] <;> omega

namespace Code

variable {c d e : Code}

theorem Rewidth.any {rel : Width → Width → Prop} (h : c.Rewidth rel d) : c.Rewidth (fun _ _ => True) d := by
  refine h.imp fun _ _ items => items.imp fun _ _ pieces => pieces.imp fun a b piece => ?_
  cases piece with
  | same => exact .same _
  | pointer p width free => exact .pointer p width free trivial

/-- The code with the least widths, among all that hold their addresses, for the free pointers of `c`. -/
structure IsLeast (c e : Code) : Prop where
  rewidth : c.Rewidth (fun _ _ => True) e
  consistent : e.Consistent
  least : ∀ e' : Code, c.Rewidth (fun _ _ => True) e' → e'.Consistent → e.Rewidth (· ≤ ·) e'

theorem consistent_of_settle {limit n : Nat} (narrow : c.Narrow) (settled : c.settle limit = .ok (d, n))
    (below : d.Rewidth (· ≤ ·) e) (consistent : e.Consistent) : d.Consistent := by
  intro q inCode free
  obtain ⟨q', inCode', related⟩ := exists_right_of_mem below.pointers inCode
  have same : q' = { q with width := q'.width } := by cases related <;> rfl
  have fits := consistent q' inCode' (by rw [same]; exact free)
  have lower : target d.blockAddresses q ≤ target e.blockAddresses q' := by
    rw [same]
    exact target_mono below.blockAddresses_le q
  rw [settle_exact narrow settled inCode free]
  exact Width.lt_ofAddress (Nat.lt_of_le_of_lt lower fits)

/-- Code settles at the least widths. -/
theorem IsLeast.settle {limit n : Nat} (least : c.IsLeast e) (narrow : c.Narrow)
    (settled : c.settle limit = .ok (d, n)) : d.pointers.map (·.width) = e.pointers.map (·.width) := by
  have below := settle_le narrow settled least.rewidth least.consistent
  have above := least.least d (settle_rewidth settled).any (consistent_of_settle narrow settled below least.consistent)
  have le {p q : Pointer} (related : Piece.Rewidth (· ≤ ·) (.pointer p) (.pointer q)) : p.width ≤ q.width := by
    cases related with
    | same => exact Nat.le_refl _
    | pointer _ _ _ le => exact le
  have both := below.pointers.mp (fun _ _ => And.intro) above.pointers.flip
  exact map_eq_of_forall₂ both fun p q related => Width.le_antisymm (le related.1) (le related.2)

end Code

end EventScript
