import EventScript.Proofs.Canonical
import EventScript.Proofs.Reassembly

namespace EventScript

theorem Piece.emit_pointer {addresses : List Nat} {address stop : Nat} {q : Pointer} {bs : Bytes} :
    (pointer q).emit addresses address stop = .ok bs ↔ q.block < addresses.length ∧
      Code.target addresses q < 2 ^ q.width.bits ∧ bs = q.width.constant (Code.target addresses q) := by
  rw [emit, bind_eq_ok]
  constructor
  · rintro ⟨value, here, stored⟩
    obtain ⟨inside, -⟩ := List.getElem?_eq_some_iff.1 (blockAddress_eq_ok.1 here)
    rw [blockAddress_of_lt inside] at here
    cases here
    split at stored <;> cases stored
    exact ⟨inside, ‹_›, rfl⟩
  · rintro ⟨inside, fits, rfl⟩
    exact ⟨_, blockAddress_of_lt inside, if_pos fits⟩

theorem ItemCode.target_of_emit {addresses : List Nat} {stop address : Nat} {item : ItemCode} {bs : Bytes}
    (emitted : item.emit addresses stop address = .ok bs) {q : Pointer} (inItem : .pointer q ∈ item) :
    q.block < addresses.length ∧ Code.target addresses q < 2 ^ q.width.bits := by
  induction item generalizing address bs with
  | nil => simp at inItem
  | cons piece code ih =>
    obtain ⟨b, b', -, first, rest⟩ := emit_cons.1 emitted
    rcases List.mem_cons.1 inItem with rfl | later
    · obtain ⟨inside, fits, -⟩ := Piece.emit_pointer.1 first
      exact ⟨inside, fits⟩
    · exact ih rest later

namespace Code

variable {addresses : List Nat} {address : Nat} {items : List ItemCode} {bs : Bytes}

theorem emitItems_cons {item : ItemCode} :
    emitItems addresses address (item :: items) = .ok bs ↔ ∃ b b', bs = b ++ b' ∧
      item.emit addresses (address + item.size) address = .ok b ∧
        emitItems addresses (address + item.size) items = .ok b' := by
  simp only [emitItems, bind_eq_ok, pure_eq_ok]
  constructor
  · rintro ⟨b, first, b', rest, rfl⟩
    exact ⟨b, b', rfl, first, rest⟩
  · rintro ⟨b, b', rfl, first, rest⟩
    exact ⟨b, first, b', rest, rfl⟩

theorem target_of_emitItems (emitted : emitItems addresses address items = .ok bs) {item : ItemCode}
    (inItems : item ∈ items) {q : Pointer} (inItem : .pointer q ∈ item) :
    q.block < addresses.length ∧ target addresses q < 2 ^ q.width.bits := by
  induction items generalizing address bs with
  | nil => simp at inItems
  | cons first items ih =>
    obtain ⟨b, b', -, here, rest⟩ := emitItems_cons.1 emitted
    rcases List.mem_cons.1 inItems with rfl | later
    · exact ItemCode.target_of_emit here inItem
    · exact ih rest later

end Code

namespace Script

variable {s : Script} {c d : Code} {limit passes : Nat} {bs : Bytes}

theorem target_lt_of_emit (lowered : s.lower = .ok c) (settled : c.settle limit = .ok (d, passes))
    (emitted : d.emit = .ok bs) {p : Pointer} (inCode : p ∈ c.pointers) :
    Code.target d.blockAddresses p <
      2 ^ (p.target.2.getD (.ofAddress (Code.target d.blockAddresses p))).bits := by
  obtain ⟨q, inSettled, related⟩ := exists_right_of_mem (Code.settle_rewidth settled).pointers inCode
  obtain ⟨block, inD, item, inBlock, inItem⟩ := Code.mem_pointers.1 inSettled
  obtain ⟨-, fits⟩ := Code.target_of_emitItems (Code.emit_eq_ok.1 emitted)
    (List.mem_flatten.2 ⟨block, inD, inBlock⟩) inItem
  have same : q.forced = p.forced ∧ q.block = p.block ∧ (p.forced = true → q.width = p.width) := by
    cases related with
    | same => exact ⟨rfl, rfl, fun _ => rfl⟩
    | pointer _ width free _ => exact ⟨rfl, rfl, fun forced => by simp [free] at forced⟩
  have target : Code.target d.blockAddresses q = Code.target d.blockAddresses p := by
    rw [Code.target, Code.target, same.2.1]
  cases forced : p.forced with
  | true =>
    rw [same.2.2 forced, target] at fits
    simpa [Pointer.target, forced] using fits
  | false =>
    rw [Code.settle_exact (lower_narrow lowered) settled inSettled (same.1.trans forced), target] at fits
    simpa [Pointer.target, forced] using fits

end Script

def Operand.resolveReference (address : String → Nat) : Operand → Operand
  | .label name width isElse span =>
    .offset (address name) (some (width.getD (.ofAddress (address name)))) isElse span
  | .offset value width isElse span => .offset value (some (width.getD (.ofAddress value))) isElse span
  | o => o

theorem Operand.relabels_resolveReference (address : String → Nat) :
    Relabels (resolveReference address) where
  other o notRef := by cases o <;> first | rfl | cases notRef
  reference o isRef := by cases o <;> first | exact ⟨rfl, rfl⟩ | cases isRef

def Instruction.resolve (address : String → Nat) (i : Instruction) : Instruction :=
  { i with operands := Operand.mapLeavesAll (Operand.resolveReference address) i.operands }

def Layout.address (l : Layout) (s : Script) (label : String) : Nat := (l.addressOf s label).toOption.getD 0

theorem Layout.address_eq {l : Layout} {s : Script} {label : String} {binding : Binding}
    (found : s.labels.get? label = some binding) :
    l.address s label = l.blockAddresses.getD binding.block 0 := by
  rw [address, addressOf_eq found, List.getD_eq_getElem?_getD, blockAddress]
  cases l.blockAddresses[binding.block]? <;> rfl

def Pointer.Asks (starts : Nat → Nat) (q : Pointer) (w : Width) : Prop :=
  w = q.target.2.getD (.ofAddress (starts q.block))

namespace Script

variable {s : Script} {c d : Code} {limit passes : Nat} {bs : Bytes} {i : Instruction} {code : ItemCode}

theorem exists_pointer_of_label (proper : i.IsProper) (lowered : i.lower s.labels = .ok code)
    {name : String} {width : Option Width} {isElse : Bool} {span : Option Span}
    (inside : .label name width isElse span ∈ Operand.walkAll i.operands) :
    ∃ q, .pointer q ∈ code ∧ q.target = (name, width) ∧ q.Fresh s.labels := by
  have isTarget : (name, width) ∈ Operand.targets i.operands :=
    List.mem_filterMap.2 ⟨_, inside, rfl⟩
  obtain ⟨q, inPointers, same⟩ := List.mem_map.1 ((Instruction.lower_targets proper lowered).mem_iff.2 isTarget)
  obtain ⟨piece, inCode, isPointer⟩ := List.mem_filterMap.1 inPointers
  have isPiece : piece = .pointer q := by
    cases piece <;> simp only [Option.some.injEq, reduceCtorEq] at isPointer
    rw [isPointer]
  subst isPiece
  have fresh : (Piece.pointer q).Fresh s.labels := Instruction.lower_fresh lowered inCode
  exact ⟨q, inCode, same, fresh⟩

theorem pointersAgree_resolve (lowered : s.lower = .ok c) (settled : c.settle limit = .ok (d, passes))
    (emitted : d.emit = .ok bs) (proper : i.IsProper) (inCode : code ∈ c.items)
    (itemLowered : i.lower s.labels = .ok code) {leaf : Operand} (inside : leaf ∈ Operand.walkAll i.operands) :
    Placement.PointersAgree s.labels {}
      (fun a b => Piece.Resolves (d.blockAddresses.getD · 0) (Pointer.Asks (d.blockAddresses.getD · 0)) b a)
      (Operand.resolveReference ((Layout.ofCode d passes).address s)) leaf := by
  intro isRef site span
  cases leaf <;> simp only [Operand.isReference, Bool.false_eq_true] at isRef
  case offset value width isElse offsetSpan =>
    simp only [Operand.resolveReference, Placement.lowerPointer, Option.getD_some]
    split
    · exact .cons (.same _ (by simp)) .nil
    · exact True.intro
  case label name width isElse labelSpan =>
    obtain ⟨q, inItem, same, ⟨binding, found, block⟩, -⟩ := exists_pointer_of_label proper itemLowered inside
    have label : q.label = name := congrArg Prod.fst same
    rw [label] at found
    have address : (Layout.ofCode d passes).address s name = d.blockAddresses.getD binding.block 0 :=
      Layout.address_eq found
    have fits := target_lt_of_emit lowered settled emitted
      (List.mem_flatMap.2 ⟨code, inCode, List.mem_filterMap.2 ⟨_, inItem, rfl⟩⟩)
    rw [same, Code.target, block, ← address] at fits
    have stored : Placement.lowerPointer ⟨{}, site, span⟩ (Operand.resolveReference
        ((Layout.ofCode d passes).address s) (.label name width isElse labelSpan)) = .ok [.bytes
          ((width.getD (.ofAddress ((Layout.ofCode d passes).address s name))).constant
            ((Layout.ofCode d passes).address s name))] :=
      Placement.lowerPointer_offset.2 ⟨⟨Int.natCast_nonneg _, by exact_mod_cast fits⟩, rfl⟩
    rw [stored]
    simp only [Placement.lowerPointer, found]
    rw [address] at fits ⊢
    let q : Pointer := ⟨name, binding.block, width.getD .byte, width.isSome, site, labelSpan.or span⟩
    refine .cons (.pointer q _ fits ?_) .nil
    cases width <;> rfl

/-- With labels replaced by their addresses, the instructions of a script have the code that was laid
out for them. -/
theorem exists_resolved_codes (lowered : s.lower = .ok c) (settled : c.settle limit = .ok (d, passes))
    (emitted : d.emit = .ok bs) {is : List Instruction} (items : s.items = is.map .instruction)
    (proper : ∀ i ∈ is, i.IsProper) : ∃ codes,
      List.Forall₂ (fun (i : Instruction) code =>
        (i.resolve ((Layout.ofCode d passes).address s)).lower {} = .ok code) is codes ∧
      List.Forall₂ (List.Forall₂ (Piece.Resolves (d.blockAddresses.getD · 0) fun q w => q.width = w))
        codes d.items := by
  have each := Script.lower_items lowered
  rw [items, List.forall₂_map_left_iff] at each
  have inside := forall₂_and_right.2 ⟨each, fun code (inCode : code ∈ c.items) => inCode⟩
  have agree {i : Instruction} (member : i ∈ is) {code : ItemCode} (inCode : code ∈ c.items)
      (done : i.lower s.labels = .ok code) := (Instruction.lower_agree
    (Operand.relabels_resolveReference ((Layout.ofCode d passes).address s)) (fun _ => .same _)
    (fun leaf => pointersAgree_resolve lowered settled emitted (proper i member) inCode done)).of_ok_left done
  obtain ⟨codes, resolved⟩ : ∃ codes, is.mapM (fun i =>
      (i.resolve ((Layout.ofCode d passes).address s)).lower {}) = .ok codes := by
    refine exists_mapM fun i member => ?_
    obtain ⟨code, -, done, inCode⟩ := exists_right_of_mem inside member
    obtain ⟨code', stored, -⟩ := agree member inCode done
    exact ⟨code', stored⟩
  have asked : List.Forall₂ (List.Forall₂ (Piece.Resolves (d.blockAddresses.getD · 0)
      (Pointer.Asks (d.blockAddresses.getD · 0)))) codes c.items := by
    refine forall₂_comp (mapM_eq_ok.1 resolved).flip inside ?_
    rintro code' i member code stored ⟨done, inCode⟩
    obtain ⟨_, stored', related⟩ := agree member inCode done
    cases stored.symm.trans stored'
    exact related.flip
  refine ⟨codes, mapM_eq_ok.1 resolved, (Code.settle_rewidth settled).resolves (fun q width w free asks => ?_)
    (fun q inCode w asks => ?_) asked⟩
  · simpa [Pointer.Asks, Pointer.target, free] using asks
  · unfold Pointer.Asks Pointer.target at asks
    cases free : q.forced with
    | true => simpa [free, eq_comm] using asks
    | false =>
      rw [Code.settle_exact (lower_narrow lowered) settled inCode free]
      simpa [free, Code.target, eq_comm] using asks

end Script

namespace Decoded

def layOut (start : Nat) : List Instruction → List ItemCode → List Decoded
  | i :: is, code :: codes => ⟨start, code.size, i⟩ :: layOut (start + code.size) is codes
  | _, _ => []

def Contiguous : Nat → Nat → List Decoded → Prop
  | start, stop, [] => start = stop
  | start, stop, d :: ds => d.offset = start ∧ Contiguous d.stop stop ds

variable {start : Nat} {is : List Instruction} {codes : List ItemCode}

theorem layOut_offsets (same : is.length = codes.length) :
    (layOut start is codes).map (·.offset) = addressesFrom start (codes.map ItemCode.size) := by
  induction is generalizing start codes with
  | nil =>
    obtain rfl := List.length_eq_zero_iff.1 same.symm
    rfl
  | cons i is ih =>
    cases codes with
    | nil => simp at same
    | cons code codes => simp [layOut, addressesFrom, ih (Nat.succ.inj same)]

theorem layOut_instructions (same : is.length = codes.length) :
    (layOut start is codes).map (·.instruction) = is := by
  induction is generalizing start codes with
  | nil => rfl
  | cons i is ih =>
    cases codes with
    | nil => simp at same
    | cons code codes => simp [layOut, ih (Nat.succ.inj same)]

theorem layOut_contiguous (same : is.length = codes.length) :
    Contiguous start (start + (codes.map ItemCode.size).sum) (layOut start is codes) := by
  induction is generalizing start codes with
  | nil =>
    obtain rfl := List.length_eq_zero_iff.1 same.symm
    exact rfl
  | cons i is ih =>
    cases codes with
    | nil => simp at same
    | cons code codes =>
      refine ⟨rfl, ?_⟩
      have rest : Contiguous (start + code.size) (start + code.size + (codes.map ItemCode.size).sum)
          (layOut (start + code.size) is codes) := ih (Nat.succ.inj same)
      rwa [Nat.add_assoc, ← List.sum_cons, ← List.map_cons] at rest

theorem layOut_valid {data bs : Bytes} {addresses : List Nat}
    (readable : List.Forall₂ (fun (i : Instruction) (code : ItemCode) => i.Readable data.length ∧ ∃ code',
      i.lower {} = .ok code' ∧ ∀ stop address bs, code.emit addresses stop address = .ok bs →
        code'.emit addresses stop address = .ok bs) is codes)
    (emitted : Code.emitItems addresses start codes = .ok bs) (inside : bs <+: data.drop start) :
    ∀ d ∈ layOut start is codes, d.Valid data := by
  induction readable generalizing start bs with
  | nil => simp [layOut]
  | @cons i code is codes head _ ih =>
    obtain ⟨b, b', rfl, first, rest⟩ := Code.emitItems_cons.1 emitted
    obtain ⟨isReadable, code', lowered, emits⟩ := head
    have length := ItemCode.length_emit first
    have decoded : Instruction.decode data start = .ok (i, code.size) :=
      (Instruction.decode_eq_ok {} addresses).2 ⟨isReadable, code', b, lowered, emits _ _ _ first, length,
        (List.prefix_append ..).trans inside⟩
    have next : b' <+: data.drop (start + code.size) := length ▸ Data.prefix_drop inside
    refine List.forall_mem_cons.2 ⟨⟨?_, decoded⟩, ih rest next⟩
    have := Instruction.decode_bounds decoded
    dsimp only
    omega

end Decoded

theorem Relabels.isProper {change : Operand → Operand} (h : Relabels change) {o : Operand}
    (proper : o.IsProper) : (o.mapLeaves change).IsProper := by
  induction o using Operand.expr_induction with
  | leaf o notExpr =>
    rcases h.mapLeaves_cases o with ⟨-, mapped, still, -⟩ | ⟨op, args, span, rfl, -⟩ | ⟨-, mapped⟩
    · rw [mapped]
      intro op args span inside
      cases changed : change o <;> rw [changed] at still inside <;> simp_all [Operand.isReference, Operand.walk]
    · exact absurd rfl (notExpr op args span)
    · rwa [mapped]
  | expr op args span ih =>
    obtain ⟨known, inner⟩ := Operand.isProper_expr.1 proper
    rw [Operand.mapLeaves, Operand.mapLeavesAll_eq_map]
    refine Operand.isProper_expr.2 ⟨known, fun _ inArgs => ?_⟩
    obtain ⟨a, isArg, rfl⟩ := List.mem_map.1 inArgs
    exact ih a isArg (inner a isArg)

theorem Operand.isResolved_resolveReference (address : String → Nat) (o : Operand) :
    (o.mapLeaves (resolveReference address)).IsResolved := by
  induction o using Operand.expr_induction with
  | leaf o notExpr =>
    intro leaf inside isRef
    cases o with
    | label | offset =>
      obtain rfl := List.mem_singleton.1 inside
      exact ⟨_, _, _, _, rfl⟩
    | expr op args span => exact absurd rfl (notExpr op args span)
    | _ =>
      obtain rfl := List.mem_singleton.1 inside
      cases isRef
  | expr op args span ih =>
    intro leaf inside isRef
    rw [mapLeaves, mapLeavesAll_eq_map, walk, walkAll_eq_flatMap, List.mem_cons, List.mem_flatMap] at inside
    rcases inside with rfl | ⟨_, inArgs, inArg⟩
    · cases isRef
    · obtain ⟨a, isArg, rfl⟩ := List.mem_map.1 inArgs
      exact ih a isArg leaf inArg isRef

theorem Operator.isProper_or {o : Operator} (member : o ∈ all) : o.isProper = true ∨
    (o.shapes = [[.integer]] ∧ ∃ width, o.role = .constant width) ∨ o.shapes = [[.pointer]] ∧ o.role = .address := by
  have table : ∀ o ∈ all, o.isProper = true ∨ (o.shapes = [[.integer]] ∧ (o.role = .constant .byte ∨
      o.role = .constant .word ∨ o.role = .constant .long)) ∨ o.shapes = [[.pointer]] ∧ o.role = .address := by
    decide +kernel
  rcases table o member with proper | ⟨only, role | role | role⟩ | address
  · exact .inl proper
  · exact .inr (.inl ⟨only, _, role⟩)
  · exact .inr (.inl ⟨only, _, role⟩)
  · exact .inr (.inl ⟨only, _, role⟩)
  · exact .inr (.inr address)

theorem Operator.exists_of_single {o : Operator} (member : o ∈ all) {slot : Slot} (only : o.shapes = [[slot]])
    (notVariadic : slot ≠ .variadic) {name : String} {args : List Operand} {shape : Shape}
    (chosen : Shape.choose Slot.accepts name o.shapes args = .ok shape) :
    ∃ a, args = [a] ∧ shape = [slot] ∧ slot.accepts a = true := by
  obtain ⟨form, fits⟩ := (Shape.choose_eq_ok (regular member).separate Slot.not_accepts_of_exclusive).1 chosen
  rw [only, List.mem_singleton] at form
  subst form
  have accepted := (Shape.fits_fixed (by simpa using notVariadic.symm)).1 fits
  simp only [List.forall₂_cons_left_iff, List.forall₂_nil_left_iff] at accepted
  obtain ⟨a, _, accepts, rfl, rfl⟩ := accepted
  exact ⟨a, rfl, rfl, accepts⟩

theorem Operand.isProper_of_spelled {o : Operand} (spelled : o.IsSpelled) (checked : o.checkExpression = .ok ()) :
    o.IsProper := by
  induction o using Operand.expr_induction with
  | leaf o notExpr =>
    intro op args span inside
    cases o <;> first | exact absurd rfl (notExpr _ _ _) | simp [walk] at inside
  | expr op args span ih =>
    obtain ⟨⟨operator, member, rfl, unfolded⟩, argsSpelled⟩ := isSpelled_expr.1 spelled
    rw [checkExpression, Operator.ofName?_eq_some.2 ⟨member, rfl⟩] at checked
    dsimp only at checked
    split at checked
    · cases checked
    · rename_i shape chosen
      have argsChecked := Placement.checkExpressions_eq_ok.1 checked
      refine isProper_expr.2 ⟨⟨operator, member, rfl, ?_⟩, fun a isArg =>
        ih a isArg (argsSpelled a isArg) (argsChecked a isArg)⟩
      rcases Operator.isProper_or member with proper | ⟨only, width, role⟩ | ⟨only, role⟩
      · exact proper
      · obtain ⟨a, rfl, -, accepts⟩ := Operator.exists_of_single member only (by simp) chosen
        have notInt := (unfolded a rfl).1 width role
        cases a <;> simp_all [Slot.accepts, isInt]
      · obtain ⟨a, rfl, -, accepts⟩ := Operator.exists_of_single member only (by simp) chosen
        have notRef := (unfolded a rfl).2 role
        simp [Slot.accepts, notRef] at accepts

end EventScript
