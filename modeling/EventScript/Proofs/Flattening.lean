import EventScript.Proofs.Reassembly

namespace EventScript

inductive Item.Like (ref : Operand → Operand → Prop) : Item → Item → Prop
  | instruction {i i' : Instruction} (opcode : i'.opcode = i.opcode)
      (operands : List.Forall₂ (Operand.Like ref) i.operands i'.operands) :
      Like ref (.instruction i) (.instruction i')
  | data {d d' : Data} (width : d'.width = d.width)
      (values : List.Forall₂ (Operand.Like ref) d.values d'.values) : Like ref (.data d) (.data d')

namespace Script

def itemsBefore (s : Script) (block : Nat) : Nat := ((s.blocks.take block).flatMap (·.items)).length

def StandsAt (s : Script) (name : String) (position : Nat) : Prop :=
  ∃ binding, s.labels.get? name = some binding ∧ binding.block < s.blocks.length ∧
    s.itemsBefore binding.block = position

def SamePlace (s t : Script) (name name' : String) : Prop :=
  s.labels.get? name = none ∧ t.labels.get? name' = none ∨
    ∃ position, s.StandsAt name position ∧ t.StandsAt name' position

inductive SameReference (s t : Script) : Operand → Operand → Prop
  | label {name name' : String} (width : Option Width) (isElse : Bool) (span span' : Option Span)
      (same : s.SamePlace t name name') :
      SameReference s t (.label name width isElse span) (.label name' width isElse span')
  | offset (value : Int) (width : Option Width) (isElse : Bool) (span span' : Option Span) :
      SameReference s t (.offset value width isElse span) (.offset value width isElse span')

/-- The scripts have the same items in program order, up to spans and the names of labels. -/
def SameProgram (s t : Script) : Prop := List.Forall₂ (Item.Like (s.SameReference t)) s.items t.items

/-- Why a label has no address: it is not declared, or bound to a block that is not there. -/
inductive Stray where
  | undeclared
  | unplaced
  deriving DecidableEq

def stray? (s : Script) (label : String) : Option Stray :=
  match s.labels.get? label with
  | none => some .undeclared
  | some binding => if binding.block < s.blocks.length then none else some .unplaced

/-- Why the first entry point without an address, in table order, has none. -/
def strayEntry? (s : Script) : Option Stray := s.entryPoints.findSome? fun e => s.stray? e.2

end Script

/-- Pointers of one kind that lead to the same place. -/
structure Pointer.Like (same : Nat → Nat → Prop) (p p' : Pointer) : Prop where
  block : same p.block p'.block
  width : p.width = p'.width
  forced : p.forced = p'.forced
  site : p.site = p'.site

inductive Piece.Like (same : Nat → Nat → Prop) : Piece → Piece → Prop
  | bytes (bs : Bytes) : Like same (.bytes bs) (.bytes bs)
  | pointer {p p' : Pointer} (like : p.Like same p') : Like same (.pointer p) (.pointer p')
  | blockWord {block block' : Nat} (like : same block block') : Like same (.blockWord block) (.blockWord block')
  | endWord : Like same .endWord .endWord
  | sizeWord (site : Site) (span span' : Option Span) : Like same (.sizeWord site span) (.sizeWord site span')

theorem Piece.Like.size {same : Nat → Nat → Prop} {a b : Piece} (like : a.Like same b) : a.size = b.size := by
  cases like with
  | pointer like => simp only [Piece.size, like.width]
  | _ => rfl

theorem ItemCode.size_eq {same : Nat → Nat → Prop} {a b : ItemCode}
    (like : List.Forall₂ (Piece.Like same) a b) : a.size = b.size :=
  congrArg List.sum (map_eq_of_forall₂ like fun _ _ => Piece.Like.size)

theorem ItemCode.pointers_like {same : Nat → Nat → Prop} {a b : ItemCode} (like : List.Forall₂ (Piece.Like same) a b) :
    List.Forall₂ (Pointer.Like same) a.pointers b.pointers := by
  induction like with
  | nil => exact .nil
  | cons head _ ih =>
    cases head with
    | pointer like => exact .cons like ih
    | _ => exact ih

/-- The same items in program order, where related blocks start at the same of them. -/
structure Code.Like (same : Nat → Nat → Prop) (c c' : Code) : Prop where
  items : List.Forall₂ (List.Forall₂ (Piece.Like same)) c.items c'.items
  starts : ∀ block block', same block block' → block < c.length ∧ block' < c'.length ∧
    (c.take block).flatten.length = (c'.take block').flatten.length

namespace Code.Like

variable {same : Nat → Nat → Prop} {c c' : Code}

theorem sizes (like : c.Like same c') : c.items.map ItemCode.size = c'.items.map ItemCode.size :=
  map_eq_of_forall₂ like.items fun _ _ => ItemCode.size_eq

theorem size (like : c.Like same c') : c.size = c'.size := congrArg List.sum like.sizes

theorem address (like : c.Like same c') {block block' : Nat} (related : same block block') :
    ∃ address, c.blockAddresses[block]? = some address ∧ c'.blockAddresses[block']? = some address := by
  have before (c : Code) (block : Nat) : (c.take block).flatten = c.items.take (c.take block).flatten.length := by
    have split : c.items = (c.take block).flatten ++ (c.drop block).flatten := by
      rw [← List.flatten_append, List.take_append_drop]
      rfl
    rw [split, List.take_left]
  obtain ⟨inside, inside', starts⟩ := like.starts block block' related
  rw [getElem?_blockAddresses inside, getElem?_blockAddresses inside', before c, before c', starts, List.map_take,
    List.map_take, like.sizes]
  exact ⟨_, rfl, rfl⟩

theorem mustGrow (like : c.Like same c') {p p' : Pointer} (pointers : p.Like same p') :
    Code.mustGrow c.blockAddresses p = Code.mustGrow c'.blockAddresses p' := by
  obtain ⟨address, here, here'⟩ := like.address pointers.block
  rw [Code.mustGrow, Code.mustGrow, here, here', pointers.forced, pointers.width]

theorem placed (like : c.Like same c') :
    (∀ p ∈ c.pointers, p.block < c.length) ∧ ∀ p' ∈ c'.pointers, p'.block < c'.length := by
  have pointers : List.Forall₂ (Pointer.Like same) c.pointers c'.pointers :=
    List.rel_flatMap like.items fun _ _ => ItemCode.pointers_like
  constructor
  · intro p inCode
    obtain ⟨p', -, related⟩ := exists_right_of_mem pointers inCode
    exact (like.starts _ _ related.block).1
  · intro p' inCode
    obtain ⟨p, -, related⟩ := exists_left_of_mem pointers inCode
    exact (like.starts _ _ related.block).2.1

theorem growing (like : c.Like same c') : List.Forall₂ (Pointer.Like same) c.growing c'.growing := by
  have pointers : List.Forall₂ (Pointer.Like same) c.pointers c'.pointers :=
    List.rel_flatMap like.items fun _ _ => ItemCode.pointers_like
  exact List.rel_filter (fun _ _ pointers => Bool.eq_iff_iff.1 (like.mustGrow pointers)) pointers

/-- A pass widens corresponding pointers. -/
theorem widen (like : c.Like same c') : c.widen.Like same c'.widen := by
  have counts (f : Pointer → Pointer) (c : Code) (block : Nat) :
      ((c.mapPointers f).take block).flatten.length = (c.take block).flatten.length := by
    rw [Code.mapPointers, ← List.map_take, ← List.map_flatten, List.length_map]
  constructor
  · rw [Code.widen, Code.widen, Code.mapPointers, Code.mapPointers, Code.items, Code.items, ← List.map_flatten,
      ← List.map_flatten]
    refine List.rel_map (fun item item' likeItem => List.rel_map (fun piece piece' likePiece => ?_) likeItem) like.items
    cases likePiece with
    | @pointer p p' pointers =>
      dsimp only
      rw [like.mustGrow pointers]
      split
      · exact .pointer ⟨pointers.block, congrArg Width.next pointers.width, pointers.forced, pointers.site⟩
      · exact .pointer pointers
    | bytes bs => exact .bytes bs
    | blockWord like => exact .blockWord like
    | endWord => exact .endWord
    | sizeWord site span span' => exact .sizeWord site span span'
  · intro block block' related
    obtain ⟨inside, inside', starts⟩ := like.starts block block' related
    rw [Code.widen, Code.widen, counts, counts]
    exact ⟨by simpa [Code.mapPointers] using inside, by simpa [Code.mapPointers] using inside', starts⟩

theorem passes (like : c.Like same c') (limit : Nat) :
    List.Forall₂ (Code.Like same) (c.passes limit) (c'.passes limit) := by
  induction limit generalizing c c' with
  | zero => exact .nil
  | succ limit ih =>
    have stop : c.growing.isEmpty = c'.growing.isEmpty := by
      rw [Bool.eq_iff_iff, List.isEmpty_iff_length_eq_zero, List.isEmpty_iff_length_eq_zero, like.growing.length_eq]
    rw [Code.passes, Code.passes, stop]
    split
    · exact .cons like .nil
    · exact .cons like (ih like.widen)

/-- Both settle after as many passes, or neither does. -/
theorem settle (like : c.Like same c') (limit : Nat) :
    AgreeOn Error.Alike (fun r r' => r.1.Like same r'.1 ∧ r.2 = r'.2) (c.settle limit) (c'.settle limit) := by
  have passes := like.passes limit
  unfold Code.settle
  dsimp only
  rcases getLast?_of_forall₂ passes with ⟨none, none'⟩ | ⟨last, last', isLast, isLast', like⟩
  · rw [none, none']
    rfl
  · rw [isLast, isLast']
    dsimp only
    rcases getLast?_of_forall₂ like.growing with ⟨none, none'⟩ | ⟨p, p', grows, grows', -⟩
    · rw [none, none']
      exact ⟨like, passes.length_eq⟩
    · rw [grows, grows']
      rfl

theorem emitPiece (like : c.Like same c') {a b : Piece} (pieces : a.Like same b) (address stop : Nat) :
    AgreeOn Error.Alike Eq (a.emit c.blockAddresses address stop) (b.emit c'.blockAddresses address stop) := by
  have word (value : Nat) : AgreeOn Error.Alike Eq (Piece.word value) (Piece.word value) := by
    unfold Piece.word
    exact .ite (fun _ => rfl) fun _ => rfl
  cases pieces with
  | bytes bs => rfl
  | pointer pointers =>
    obtain ⟨target, here, here'⟩ := like.address pointers.block
    simp only [Piece.emit, blockAddress_eq_ok.2 here, blockAddress_eq_ok.2 here', pointers.width]
    exact .ite (fun _ => rfl) fun _ => rfl
  | blockWord related =>
    obtain ⟨target, here, here'⟩ := like.address related
    simp only [Piece.emit, blockAddress_eq_ok.2 here, blockAddress_eq_ok.2 here']
    exact word target
  | endWord => exact word _
  | sizeWord site span span' =>
    unfold Piece.emit
    exact .ite (fun _ => rfl) fun _ => rfl

theorem emitItem (like : c.Like same c') {a b : ItemCode} (pieces : List.Forall₂ (Piece.Like same) a b)
    (address stop : Nat) :
    AgreeOn Error.Alike Eq (a.emit c.blockAddresses stop address) (b.emit c'.blockAddresses stop address) := by
  induction pieces generalizing address with
  | nil => rfl
  | cons head _ ih =>
    rw [ItemCode.emit, ItemCode.emit, head.size]
    refine (like.emitPiece head address stop).bind ?_
    rintro first _ rfl
    refine (ih _).bind ?_
    rintro rest _ rfl
    rfl

theorem emitItems (like : c.Like same c') {items items' : List ItemCode}
    (pieces : List.Forall₂ (List.Forall₂ (Piece.Like same)) items items') (address : Nat) :
    AgreeOn Error.Alike Eq (Code.emitItems c.blockAddresses address items)
      (Code.emitItems c'.blockAddresses address items') := by
  induction pieces generalizing address with
  | nil => rfl
  | cons head _ ih =>
    rw [Code.emitItems, Code.emitItems, ItemCode.size_eq head]
    refine (like.emitItem head address _).bind ?_
    rintro first _ rfl
    refine (ih _).bind ?_
    rintro rest _ rfl
    rfl

theorem emit (like : c.Like same c') : AgreeOn Error.Alike Eq c.emit c'.emit := by
  refine (like.emitItems like.items 0).bind ?_
  rintro bytes _ rfl
  rw [like.size]
  exact .ite (fun _ => rfl) fun _ => rfl

end Code.Like

namespace Script

variable {s t : Script}

def SameBlock (s t : Script) (block block' : Nat) : Prop :=
  block < s.blocks.length ∧ block' < t.blocks.length ∧ s.itemsBefore block = t.itemsBefore block'

theorem SamePlace.cases {name name' : String} (same : s.SamePlace t name name') :
    s.labels.get? name = none ∧ t.labels.get? name' = none ∨ ∃ binding binding',
      s.labels.get? name = some binding ∧ t.labels.get? name' = some binding' ∧
        s.SameBlock t binding.block binding'.block := by
  rcases same with undeclared | ⟨position, ⟨binding, found, inside, rfl⟩, binding', found', inside', same⟩
  · exact .inl undeclared
  · exact .inr ⟨binding, binding', found, found', inside, inside', same.symm⟩

theorem allows (s t : Script) (span span' : Option Span) :
    Placement.Allows Error.Alike (Piece.Like (s.SameBlock t)) span span' :=
  ⟨fun _ _ alike => alike, .bytes, .endWord, fun site => .sizeWord site span span'⟩

theorem SameReference.agree {o o' : Operand} (same : s.SameReference t o o') (span span' : Option Span) :
    Placement.ReferencesAgree s.labels t.labels Error.Alike (Piece.Like (s.SameBlock t)) span span' o o' := by
  intro site
  cases same with
  | label width isElse labelSpan labelSpan' same =>
    rcases same.cases with ⟨undeclared, undeclared'⟩ | ⟨binding, binding', found, found', related⟩
    · simp only [Placement.lowerPointer, undeclared, undeclared']
      rfl
    · simp only [Placement.lowerPointer, found, found']
      exact .cons (.pointer ⟨related, rfl, rfl, rfl⟩) .nil
  | offset value width isElse offsetSpan offsetSpan' =>
    simp only [Placement.lowerPointer]
    exact .ite (fun _ => .cons (.bytes _) .nil) fun _ => rfl

theorem lowerValue_agree {d d' : Data} (width : d'.width = d.width) {o o' : Operand}
    (like : Operand.Like (s.SameReference t) o o') : AgreeOn Error.Alike (Piece.Like (s.SameBlock t))
      (d.lowerValue s.labels o) (d'.lowerValue t.labels o') := by
  cases like with
  | int value _ span span' =>
    simp only [Data.lowerValue, width]
    exact .ite (fun _ => .bytes _) fun _ => rfl
  | text bytes => exact .bytes _
  | reference _ _ _ same =>
    cases same with
    | label width isElse span span' same =>
      rcases same.cases with ⟨undeclared, undeclared'⟩ | ⟨binding, binding', found, found', related⟩
      · simp only [Data.lowerValue, undeclared, undeclared']
        rfl
      · simp only [Data.lowerValue, found, found']
        exact .blockWord related
    | offset => exact .bytes _
  | atom | message | expr => rfl

theorem lowerItem_agree {item item' : Item} (like : item.Like (s.SameReference t) item') :
    AgreeOn Error.Alike (List.Forall₂ (Piece.Like (s.SameBlock t))) (item.lower s.labels) (item'.lower t.labels) := by
  cases like with
  | @instruction i i' opcode operands =>
    refine Instruction.lower_like (s.allows t i.span i'.span) opcode (operands.imp fun _ _ like => ?_)
    exact like.mono fun _ _ same => same.agree i.span i'.span
  | data width values => exact AgreeOn.mapM (values.imp fun _ _ => lowerValue_agree width)

theorem lowerBlocks_map_items (s : Script) : s.lowerBlocks.map Code.items = s.items.mapM (Item.lower s.labels) := by
  have split : s.lowerBlocks = (s.blocks.map (·.items)).mapM (List.mapM (Item.lower s.labels)) := by
    rw [List.mapM_map]
    rfl
  rw [split, items, List.flatMap_def, ← mapM_flatten]
  rfl

theorem lowerBlocks_starts {c : Code} (lowered : s.lowerBlocks = .ok c) (block : Nat) :
    c.length = s.blocks.length ∧ (c.take block).flatten.length = s.itemsBefore block := by
  have blocks := (mapM_eq_ok.1 lowered).imp fun _ _ => mapM_eq_ok.1
  refine ⟨blocks.length_eq.symm, ?_⟩
  rw [itemsBefore, List.flatMap_def]
  have taken := List.rel_flatten (List.forall₂_map_left_iff.2 (List.forall₂_take block blocks))
  exact taken.length_eq.symm

theorem SameProgram.lowerBlocks (same : s.SameProgram t) :
    AgreeOn Error.Alike (Code.Like (s.SameBlock t)) s.lowerBlocks t.lowerBlocks := by
  have items : AgreeOn Error.Alike (List.Forall₂ (List.Forall₂ (Piece.Like (s.SameBlock t))))
      (s.lowerBlocks.map Code.items) (t.lowerBlocks.map Code.items) := by
    rw [lowerBlocks_map_items, lowerBlocks_map_items]
    exact AgreeOn.mapM (same.imp fun _ _ => lowerItem_agree)
  cases lowered : s.lowerBlocks with
  | error e =>
    cases lowered' : t.lowerBlocks with
    | error e' =>
      rw [lowered, lowered'] at items
      exact items
    | ok c' =>
      rw [lowered, lowered'] at items
      exact items.elim
  | ok c =>
    cases lowered' : t.lowerBlocks with
    | error e' =>
      rw [lowered, lowered'] at items
      exact items.elim
    | ok c' =>
      rw [lowered, lowered'] at items
      refine ⟨items, fun block block' ⟨inside, inside', starts⟩ => ?_⟩
      obtain ⟨length, before⟩ := lowerBlocks_starts lowered block
      obtain ⟨length', before'⟩ := lowerBlocks_starts lowered' block'
      exact ⟨length ▸ inside, length' ▸ inside', by rw [before, before', starts]⟩

/-- The same program is lowered to the same code, or fails for the same reason. -/
theorem SameProgram.lower (same : s.SameProgram t) :
    AgreeOn Error.Alike (Code.Like (s.SameBlock t)) s.lower t.lower := by
  refine same.lowerBlocks.bind fun c c' like => ?_
  have placed := Code.all_placed.2 fun p inCode _ => like.placed.1 p inCode
  have placed' := Code.all_placed.2 fun p inCode _ => like.placed.2 p inCode
  rw [if_pos placed, if_pos placed']
  exact like

theorem addressOf_undeclared {l : Layout} {label : String} (undeclared : s.labels.get? label = none) :
    l.addressOf s label = .error (.resolution ⟨.undefinedLabel label, none⟩) := by
  simp only [Layout.addressOf, LabelTable.resolve, undeclared]
  rfl

def Stray.Explains : Stray → Error → Prop
  | undeclared, e => ∃ name, e = .resolution ⟨.undefinedLabel name, none⟩
  | unplaced, e => e = .fault .missingBlock

theorem Stray.Explains.alike {stray : Stray} {e e' : Error} (explains : stray.Explains e)
    (explains' : stray.Explains e') : e.Alike e' := by
  cases stray with
  | undeclared =>
    obtain ⟨name, rfl⟩ := explains
    obtain ⟨name', rfl⟩ := explains'
    rfl
  | unplaced =>
    obtain rfl := explains
    obtain rfl := explains'
    rfl

theorem addressOf_stray {l : Layout} (lengths : l.blockAddresses.length = s.blocks.length) (label : String) :
    s.stray? label = none ∧ (∃ address, l.addressOf s label = .ok address) ∨
      ∃ stray e, s.stray? label = some stray ∧ l.addressOf s label = .error e ∧ stray.Explains e := by
  unfold stray?
  cases found : s.labels.get? label with
  | none => exact .inr ⟨_, _, rfl, addressOf_undeclared found, label, rfl⟩
  | some binding =>
    rw [Layout.addressOf_eq found]
    by_cases inside : binding.block < s.blocks.length
    · exact .inl ⟨if_pos inside, _, blockAddress_of_lt (lengths ▸ inside)⟩
    · refine .inr ⟨_, _, if_neg inside, ?_, rfl⟩
      rw [blockAddress, List.getElem?_eq_none (lengths ▸ Nat.not_lt.1 inside)]

/-- The first entry point without an address says how the table fails. -/
theorem entryAddresses_stray {l : Layout} (lengths : l.blockAddresses.length = s.blocks.length) :
    s.strayEntry? = none ∧ (∃ table, s.entryAddresses l = .ok table) ∨
      ∃ stray e, s.strayEntry? = some stray ∧ s.entryAddresses l = .error e ∧ stray.Explains e := by
  unfold strayEntry? entryAddresses
  induction s.entryPoints with
  | nil => exact .inl ⟨rfl, [], rfl⟩
  | cons entry entries ih =>
    obtain ⟨entry, label⟩ := entry
    rw [List.findSome?_cons, List.mapM_cons]
    dsimp only
    rcases addressOf_stray lengths label with ⟨fine, address, here⟩ | ⟨stray, e, isStray, failed, explains⟩
    · rw [fine, here]
      rcases ih with ⟨none, table, rest⟩ | ⟨stray, e, isStray, failed, explains⟩
      · exact .inl ⟨none, (entry, address) :: table, by rw [rest]; rfl⟩
      · exact .inr ⟨stray, e, isStray, by rw [failed]; rfl, explains⟩
    · rw [isStray, failed]
      exact .inr ⟨stray, e, rfl, rfl, explains⟩

end Script

/-- The same bytes, laid out in the same way: sizes, passes, addresses of the items, and the width of
each reference. -/
structure Assembled.Alike (a b : Assembled) : Prop where
  bytes : a.bytes = b.bytes
  size : a.layout.size = b.layout.size
  passes : a.layout.passes = b.layout.passes
  itemAddresses : a.layout.itemAddresses = b.layout.itemAddresses
  fixups : a.layout.fixups.map (fun f => (f.item, f.operand, f.width)) =
    b.layout.fixups.map fun f => (f.item, f.operand, f.width)

theorem Code.Like.fixups {same : Nat → Nat → Prop} {c c' : Code} (like : c.Like same c') (passes passes' : Nat) :
    (Layout.ofCode c passes).fixups.map (fun f => (f.item, f.operand, f.width)) =
      (Layout.ofCode c' passes').fixups.map fun f => (f.item, f.operand, f.width) := by
  simp only [Layout.ofCode, List.map_flatten]
  refine congrArg List.flatten (map_mapIdx_of_forall₂ like.items fun index item item' pieces => ?_)
  rw [List.map_map, List.map_map]
  refine map_eq_of_forall₂ (ItemCode.pointers_like pieces) fun p p' pointers => ?_
  simp only [Function.comp_apply, pointers.site, pointers.width]

namespace Script

/-- Assembly depends on the flattened program only. Two scripts with the same program, both without an entry
point that has no address or both with a first one for the same reason, are assembled to the same bytes with the
same layout, or fail for the same reason. -/
theorem assemble_sameProgram {s t : Script} (same : s.SameProgram t) (entries : s.strayEntry? = t.strayEntry?)
    (limit : Nat) : AgreeOn Error.Alike Assembled.Alike (s.assemble limit) (t.assemble limit) := by
  refine same.lower.bind_of_ok fun c c' lowered lowered' like => ?_
  refine (like.settle limit).bind_of_ok ?_
  rintro ⟨d, passes⟩ ⟨d', _⟩ settled settled' ⟨like, rfl⟩
  refine like.emit.bind ?_
  rintro bytes _ rfl
  have lengths := length_blockAddresses lowered settled
  have lengths' := length_blockAddresses lowered' settled'
  rcases entryAddresses_stray (l := .ofCode d passes) lengths with
    ⟨none, table, made⟩ | ⟨stray, e, isStray, failed, explains⟩
  · rcases entryAddresses_stray (l := .ofCode d' passes) lengths' with ⟨-, table', made'⟩ | ⟨stray, e, isStray, -⟩
    · simp only [made, made']
      exact ⟨rfl, like.size, rfl, congrArg (addressesFrom 0) like.sizes, like.fixups passes passes⟩
    · rw [entries, isStray] at none
      cases none
  · rcases entryAddresses_stray (l := .ofCode d' passes) lengths' with
      ⟨none, -⟩ | ⟨stray', e', isStray', failed', explains'⟩
    · rw [← entries, isStray] at none
      cases none
    · obtain rfl : stray = stray' := Option.some.inj (isStray.symm.trans (entries.trans isStray'))
      simp only [failed, failed']
      exact explains.alike explains'

def twoBlocks : Script where
  target := .stage "s"
  blocks := [⟨"main", [.instruction ⟨"run", [.label "tail" none false none], none⟩,
    .data ⟨.long, [.label "tail" none false none], none⟩]⟩, ⟨"tail", [.instruction ⟨"return", [], none⟩]⟩]
  entries := [(.event .startup, "main")]
  labels := ⟨[("main", ⟨0, 0⟩), ("tail", ⟨1, 0⟩)], []⟩

def fourBlocks : Script where
  target := .globals
  blocks := [⟨"start", [.instruction ⟨"run", [.label "other" none false none], none⟩]⟩,
    ⟨"middle", [.data ⟨.long, [.label "last" none false none], none⟩]⟩, ⟨"other", []⟩,
    ⟨"last", [.instruction ⟨"return", [], none⟩]⟩]
  labels := ⟨[("start", ⟨0, 0⟩), ("middle", ⟨1, 0⟩), ("other", ⟨2, 0⟩), ("last", ⟨3, 0⟩)], []⟩

theorem assemble_sameProgram_fourBlocks : twoBlocks.SameProgram fourBlocks ∧
    (twoBlocks.strayEntry? = fourBlocks.strayEntry?) ∧ ∃ a b, twoBlocks.assemble 2 = .ok a ∧
      fourBlocks.assemble 2 = .ok b ∧ a.Alike b ∧ b.bytes = [12, 33, 7, 7, 0, 0, 0, 2] := by
  have jump : twoBlocks.SamePlace fourBlocks "tail" "other" :=
    .inr ⟨2, ⟨⟨1, 0⟩, rfl, by decide, rfl⟩, ⟨2, 0⟩, rfl, by decide, rfl⟩
  have address : twoBlocks.SamePlace fourBlocks "tail" "last" :=
    .inr ⟨2, ⟨⟨1, 0⟩, rfl, by decide, rfl⟩, ⟨3, 0⟩, rfl, by decide, rfl⟩
  have same : twoBlocks.SameProgram fourBlocks :=
    .cons (.instruction rfl (.cons (.reference rfl rfl rfl (.label none false none none jump)) .nil))
      (.cons (.data rfl (.cons (.reference rfl rfl rfl (.label none false none none address)) .nil))
        (.cons (.instruction rfl .nil) .nil))
  have entries : twoBlocks.strayEntry? = fourBlocks.strayEntry? := by decide +kernel
  have computed : (fourBlocks.assemble 2).toOption.map (·.bytes) = some [12, 33, 7, 7, 0, 0, 0, 2] := by decide +kernel
  obtain ⟨b, isAssembled, bytes⟩ := Option.map_eq_some_iff.1 computed
  have assembled := toOption_eq_some.1 isAssembled
  have agrees := assemble_sameProgram same entries 2
  rw [assembled] at agrees
  cases made : twoBlocks.assemble 2 with
  | error e =>
    rw [made] at agrees
    exact agrees.elim
  | ok a =>
    rw [made] at agrees
    exact ⟨same, entries, a, b, rfl, assembled, agrees, bytes⟩

/-- A single block without entry points. -/
def oneBlock : Script where
  target := .stage "s"
  blocks := [⟨"main", [.instruction ⟨"return", [], none⟩]⟩]
  labels := ⟨[("main", ⟨0, 0⟩)], []⟩

/-- The same with an entry point that names no label. -/
def strayBlock : Script := { oneBlock with entries := [(.event .startup, "gone")] }

theorem assemble_strayBlock : oneBlock.SameProgram strayBlock ∧ (oneBlock.assemble 64).isOk = true ∧
    strayBlock.assemble 64 = .error (.resolution ⟨.undefinedLabel "gone", none⟩) := by
  have points : strayBlock.entryPoints = [(.event .startup, "gone")] := List.mergeSort_singleton _
  have table (l : Layout) : strayBlock.entryAddresses l = .error (.resolution ⟨.undefinedLabel "gone", none⟩) := by
    rw [entryAddresses, points]
    rfl
  have code : strayBlock.lower = .ok [[[.bytes [2]]]] := rfl
  refine ⟨.cons (.instruction rfl .nil) .nil, by decide +kernel, ?_⟩
  simp only [assemble, code, table]
  rfl

end Script

end EventScript
