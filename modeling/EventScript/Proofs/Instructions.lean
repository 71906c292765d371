import EventScript.Proofs.Decoding

namespace EventScript

theorem ItemCode.exists_spells_flatten {parts : List ItemCode}
    (each : ∀ code ∈ parts, ∃ bs, code.Spells bs) : ∃ bs, ItemCode.Spells parts.flatten bs := by
  induction parts with
  | nil => exact ⟨[], spells_nil.2 rfl⟩
  | cons code parts ih =>
    obtain ⟨⟨b, first⟩, others⟩ := List.forall_mem_cons.1 each
    obtain ⟨b', rest⟩ := ih others
    exact ⟨b ++ b', by rw [List.flatten_cons]; exact spells_append.2 ⟨b, b', rfl, first, rest⟩⟩

namespace Placement

variable {p : Placement} {o : Operand} {code : ItemCode}

theorem exists_spells_lowerPointer (isRead : o.IsRead) (lowered : p.lowerPointer o = .ok code) :
    ∃ bs, code.Spells bs := by
  have plain := isRead _ (Operand.mem_walk_self _)
  cases o
  case offset value width isElse span =>
    obtain ⟨-, w, rfl, -⟩ := plain
    obtain ⟨-, rfl⟩ := lowerPointer_offset.1 lowered
    exact ⟨_, ItemCode.spells_singleton.2 rfl⟩
  case label => exact plain.elim
  all_goals cases lowered

theorem exists_spells_lowerSlot {slot : Slot} {expression : Except Error ItemCode}
    (isRead : o.IsRead) (inner : expression = .ok code → ∃ bs, code.Spells bs)
    (lowered : p.lowerSlot slot o expression = .ok code) : ∃ bs, code.Spells bs := by
  unfold lowerSlot at lowered
  split at lowered
  · exact exists_spells_lowerPointer isRead lowered
  · exact exists_spells_lowerPointer isRead lowered
  · split at lowered
    · cases lowered
    · cases lowered
      exact ⟨_, ItemCode.spells_singleton.2 rfl⟩
  · cases lowered
    exact ⟨_, ItemCode.spells_singleton.2 rfl⟩
  · exact inner lowered

theorem exists_spells_lowerExpr (isRead : o.IsRead) (lowered : p.lowerExpr o = .ok code) :
    ∃ bs, code.Spells bs := by
  induction o using Operand.expr_induction generalizing code with
  | leaf o notExpr =>
    have plain := isRead _ (Operand.mem_walk_self _)
    cases o
    case int value width span =>
      obtain ⟨code', lowered', spells⟩ := (storesExpr_ofConstant (p := p) plain.2.2).2 rfl
      rw [Operand.eq_ofConstant plain, lowered'] at lowered
      cases lowered
      exact ⟨_, spells⟩
    case offset value width isElse span =>
      rw [lowerExpr] at lowered
      obtain ⟨code', address, rfl⟩ := map_eq_ok.1 lowered
      obtain ⟨bs, spells⟩ := exists_spells_lowerPointer isRead address
      exact ⟨_, ItemCode.spells_cons.2 ⟨bs, rfl, spells⟩⟩
    case label => exact plain.elim
    case expr => exact absurd rfl (notExpr _ _ _)
    case atom =>
      obtain ⟨a, -, rfl⟩ := lowerExpr_atom_eq_ok.1 lowered
      exact ⟨_, ItemCode.spells_singleton.2 rfl⟩
    all_goals
      rw [lowerExpr] at lowered
      cases lowered
  | expr op args span ih =>
    obtain ⟨⟨-, known⟩, argsRead⟩ := Operand.isRead_expr.1 isRead
    obtain ⟨operator, found, proper⟩ := (Option.any_eq_true ..).1 known
    obtain ⟨member, rfl⟩ := Operator.ofName?_eq_some.1 found
    obtain ⟨slots, form, accepted, parts, stored, rfl⟩ := (lowerExpr_proper member proper).1 lowered
    have each : ∀ part ∈ parts, ∃ bs, ItemCode.Spells part bs := by
      intro part inParts
      obtain ⟨lowering, inArgs, done⟩ := exists_left_of_mem (mapM_eq_ok.1 stored) inParts
      have isArg : lowering ∈ p.lowerArgs slots args := by
        split at inArgs
        · exact List.mem_reverse.1 inArgs
        · exact inArgs
      rw [lowerArgs_eq_zipWith] at isArg
      obtain ⟨i, bound, here⟩ := List.getElem_of_mem isArg
      rw [List.getElem_zipWith] at here
      subst here
      have member := List.getElem_mem (l := args) (n := i) (by simp at bound; omega)
      exact exists_spells_lowerSlot (argsRead _ member) (fun h => ih _ member (argsRead _ member) h) done
    obtain ⟨bs, spells⟩ := ItemCode.exists_spells_flatten each
    exact ⟨_, ItemCode.spells_cons.2 ⟨bs, rfl, spells⟩⟩

theorem exists_spells_lowerFixed {index : Nat} {slots : Shape} {os : List Operand}
    (isRead : ∀ o ∈ os, o.IsRead) (lowered : p.lowerFixed index slots os = .ok code) :
    ∃ bs, code.Spells bs := by
  induction os generalizing index slots code with
  | nil =>
    obtain rfl : [] = code := by cases slots <;> cases lowered <;> rfl
    exact ⟨[], ItemCode.spells_nil.2 rfl⟩
  | cons o os ih =>
    cases slots with
    | nil =>
      cases lowered
      exact ⟨[], ItemCode.spells_nil.2 rfl⟩
    | cons slot slots =>
      obtain ⟨first, lowered₁, lowered⟩ := bind_eq_ok.1 lowered
      obtain ⟨rest, lowered₂, done⟩ := bind_eq_ok.1 lowered
      cases done
      obtain ⟨firstRead, othersRead⟩ := List.forall_mem_cons.1 isRead
      obtain ⟨b, spells⟩ :=
        exists_spells_lowerSlot firstRead (exists_spells_lowerExpr firstRead) lowered₁
      obtain ⟨b', spells'⟩ := ih othersRead lowered₂
      exact ⟨b ++ b', ItemCode.spells_append.2 ⟨b, b', rfl, spells, spells'⟩⟩

theorem exists_spells_lowerTail {terminated : Bool} {index : Nat} {os : List Operand}
    (isRead : ∀ o ∈ os, o.IsRead) (lowered : p.lowerTail terminated index os = .ok code) :
    ∃ bs, code.Spells bs := by
  induction os generalizing index code with
  | nil =>
    cases lowered
    exact ⟨[], ItemCode.spells_nil.2 rfl⟩
  | cons o os ih =>
    obtain ⟨-, first, lowered₁, rest, lowered₂, rfl⟩ := lowerTail_cons.1 lowered
    obtain ⟨firstRead, othersRead⟩ := List.forall_mem_cons.1 isRead
    obtain ⟨b, spells⟩ := exists_spells_lowerExpr firstRead lowered₁
    obtain ⟨b', spells'⟩ := ih othersRead lowered₂
    exact ⟨b ++ b', ItemCode.spells_append.2 ⟨b, b', rfl, spells, spells'⟩⟩

variable {c : Command} {size : Nat} {os : List Operand} {slots rest : Shape} {first others : List Operand}

def closeTail (layout : OperandLayout) (count : Nat) (tail : ItemCode) : ItemCode :=
  match layout with
  | .counted => .bytes ((Width.ofLiteral count).constant count) :: tail
  | .terminated => tail ++ [.bytes terminator]
  | _ => tail

theorem lowerOperands_eq_ok (fixed : .variadic ∉ slots) (isTail : rest.IsTail)
    (same : slots.length = first.length) :
    p.lowerOperands c (slots ++ rest) (first ++ others) = .ok code ↔ ∃ start,
      p.lowerFixed 0 slots (first ++ others) = .ok start ∧ if rest = [] then code = start else ∃ tail,
        p.lowerTail (c.layout == .terminated) slots.length others = .ok tail ∧
          code = start ++ closeTail c.layout others.length tail := by
  unfold lowerOperands
  dsimp only
  rw [Shape.minOperands_append fixed isTail, Shape.isVariadic_append fixed isTail, List.take_left]
  have dropped : (first ++ others).drop slots.length = others := by rw [same, List.drop_left]
  have counted : (first ++ others).length - slots.length = others.length := by
    rw [same, List.length_append, Nat.add_sub_cancel_left]
  rw [bind_eq_ok]
  refine exists_congr fun start => and_congr_right fun _ => ?_
  rcases isTail with rfl | rfl
  · exact pure_eq_ok.trans eq_comm
  · rw [dropped, counted]
    refine bind_eq_ok.trans (exists_congr fun tail => and_congr_right fun _ => ?_)
    rw [pure_eq_ok, eq_comm]
    cases c.layout <;> simp [closeTail]

theorem closeTail_spells {b : Bytes} :
    (∃ tail, p.lowerTail (c.layout == .terminated) slots.length others = .ok tail ∧
      (closeTail c.layout others.length tail).Spells b) ↔
        ∃ b₂, StoresAll p.StoresAt slots.length (tailSlots others) others b₂ ∧
          c.layout.Closes others b₂ b := by
  have plain (kind : c.layout ≠ .terminated) {b₂ : Bytes} :
      (∃ tail, p.lowerTail (c.layout == .terminated) slots.length others = .ok tail ∧
        tail.Spells b₂) ↔ StoresAll p.StoresAt slots.length (tailSlots others) others b₂ := by
    simp [lowerTail_spells, kind]
  cases kind : c.layout
  case counted =>
    simp only [kind, ne_eq, reduceCtorEq, not_false_eq_true, true_implies] at plain
    simp only [closeTail, ItemCode.spells_cons, OperandLayout.Closes, ← plain]
    constructor
    · rintro ⟨tail, lowered, b₂, rfl, spells⟩
      exact ⟨b₂, ⟨tail, lowered, spells⟩, rfl⟩
    · rintro ⟨b₂, ⟨tail, lowered, spells⟩, rfl⟩
      exact ⟨tail, lowered, b₂, rfl, spells⟩
  case terminated =>
    simp only [closeTail, ItemCode.spells_append, ItemCode.spells_singleton, OperandLayout.Closes]
    constructor
    · rintro ⟨tail, lowered, b₂, _, rfl, spells, rfl⟩
      obtain ⟨allowed, stored⟩ := lowerTail_spells.1 ⟨tail, lowered, spells⟩
      exact ⟨b₂, stored, allowed rfl, rfl⟩
    · rintro ⟨b₂, stored, allowed, rfl⟩
      obtain ⟨tail, lowered, spells⟩ := lowerTail_spells.2 ⟨fun _ => allowed, stored⟩
      exact ⟨tail, lowered, b₂, _, rfl, spells, rfl⟩
  all_goals
    simp only [kind, ne_eq, reduceCtorEq, not_false_eq_true, true_implies] at plain
    simp only [closeTail, OperandLayout.Closes, plain]
    constructor
    · intro stored
      exact ⟨b, stored, rfl⟩
    · rintro ⟨_, stored, rfl⟩
      exact stored

theorem lowerOperands_spells (fixed : .variadic ∉ slots) (isTail : rest.IsTail)
    (closed : rest = [] → others = []) (same : slots.length = first.length) {body : Bytes} :
    (∃ code, p.lowerOperands c (slots ++ rest) (first ++ others) = .ok code ∧ code.Spells body) ↔
      ∃ b₁ b₂ b, StoresAll p.StoresAt 0 slots first b₁ ∧
        StoresAll p.StoresAt slots.length (tailSlots others) others b₂ ∧
        (if rest = [] then b = [] else c.layout.Closes others b₂ b) ∧ body = b₁ ++ b := by
  simp only [lowerOperands_eq_ok fixed isTail same]
  rcases isTail with rfl | rfl
  · obtain rfl := closed rfl
    simp only [if_true]
    constructor
    · rintro ⟨_, ⟨start, lowered, rfl⟩, spells⟩
      exact ⟨body, [], [], (lowerFixed_spells same _).1 ⟨_, lowered, spells⟩, rfl, rfl, by simp⟩
    · rintro ⟨b₁, _, _, stored, -, rfl, rfl⟩
      obtain ⟨start, lowered, spells⟩ := (lowerFixed_spells same []).2 stored
      exact ⟨start, ⟨start, lowered, rfl⟩, by simpa using spells⟩
  · simp only [List.cons_ne_nil, if_false]
    constructor
    · rintro ⟨_, ⟨start, lowered, tail, loweredTail, rfl⟩, spells⟩
      obtain ⟨b₁, b, rfl, spells₁, spells₂⟩ := ItemCode.spells_append.1 spells
      obtain ⟨b₂, stored, closes⟩ := closeTail_spells.1 ⟨tail, loweredTail, spells₂⟩
      exact ⟨b₁, b₂, b, (lowerFixed_spells same _).1 ⟨_, lowered, spells₁⟩, stored, closes, rfl⟩
    · rintro ⟨b₁, b₂, b, stored, storedTail, closes, rfl⟩
      obtain ⟨start, lowered, spells₁⟩ := (lowerFixed_spells same others).2 stored
      obtain ⟨tail, loweredTail, spells₂⟩ := closeTail_spells.2 ⟨b₂, storedTail, closes⟩
      exact ⟨_, ⟨start, lowered, tail, loweredTail, rfl⟩,
        ItemCode.spells_append.2 ⟨b₁, b, rfl, spells₁, spells₂⟩⟩

theorem exists_spells_lowerOperands {shape : Shape} (isRead : ∀ o ∈ os, o.IsRead)
    (lowered : p.lowerOperands c shape os = .ok code) : ∃ bs, code.Spells bs := by
  obtain ⟨start, lowered₁, lowered⟩ := bind_eq_ok.1 lowered
  obtain ⟨b, spells⟩ := exists_spells_lowerFixed isRead lowered₁
  split at lowered
  · cases lowered
    exact ⟨b, spells⟩
  · obtain ⟨tail, lowered₂, done⟩ := bind_eq_ok.1 lowered
    obtain ⟨b', spells'⟩ :=
      exists_spells_lowerTail (fun o member => isRead o (List.mem_of_mem_drop member)) lowered₂
    cases done
    split
    · exact ⟨_, ItemCode.spells_append.2 ⟨_, _, rfl, spells, ItemCode.spells_cons.2 ⟨b', rfl, spells'⟩⟩⟩
    · exact ⟨_, ItemCode.spells_append.2 ⟨_, _, rfl,
        ItemCode.spells_append.2 ⟨_, _, rfl, spells, spells'⟩, ItemCode.spells_singleton.2 rfl⟩⟩
    · exact ⟨_, ItemCode.spells_append.2 ⟨_, _, rfl, spells, spells'⟩⟩

theorem checkExpression_of_lowerSlot {slot : Slot} (accepts : slot.accepts o = true) (isRead : o.IsRead)
    (lowered : p.lowerSlot slot o (p.lowerExpr o) = .ok code) : o.checkExpression = .ok () := by
  cases o <;> first | rfl | skip
  case expr op args span =>
    have plain : p.lowerSlot slot (.expr op args span) (p.lowerExpr (.expr op args span)) =
        p.lowerExpr (.expr op args span) := by
      cases slot <;> first | rfl | cases accepts
    rw [plain] at lowered
    exact checkExpression_of_lowerExpr isRead lowered

theorem checkExpression_of_storesAll {index : Nat} {bs : Bytes}
    (admits : List.Forall₂ (Slot.Admits size) slots os)
    (stored : StoresAll p.StoresAt index slots os bs) : ∀ o ∈ os, o.checkExpression = .ok () := by
  induction admits generalizing index bs with
  | nil => simp
  | cons admitted _ ih =>
    obtain ⟨b, b', -, ⟨code, first, -⟩, rest⟩ := stored
    exact List.forall_mem_cons.2
      ⟨checkExpression_of_lowerSlot admitted.accepts admitted.isRead first, ih rest⟩

/-- Messages and assignments to a destination aside, commands are lowered in the form of their
operands. -/
theorem lowerCommand_eq_ok (noMessage : c.layout ≠ .message)
    (noDestination : c.layout = .assignment → os.length ≠ 2) :
    p.lowerCommand c os = .ok code ↔ ∃ shape, c.shapeOf os = .ok shape ∧ ∃ code',
      p.lowerOperands c shape os = .ok code' ∧
        code = if c.layout = .sized then .sizeWord p.site p.span :: code' else code' := by
  unfold lowerCommand
  cases chosen : c.shapeOf os with
  | error e => cases kind : c.layout <;> simp_all [fail]
  | ok shape =>
    cases kind : c.layout
    case message => exact absurd kind noMessage
    case assignment =>
      have single := noDestination kind
      rcases os with _ | ⟨_, _ | ⟨_, _ | _⟩⟩
      case cons.cons.nil => exact absurd rfl single
      all_goals simp [eq_comm]
    case sized =>
      constructor
      · intro h
        obtain ⟨code', lowered, rfl⟩ := map_eq_ok.1 h
        exact ⟨shape, rfl, code', lowered, rfl⟩
      · rintro ⟨_, ⟨⟩, code', lowered, rfl⟩
        exact map_eq_ok.2 ⟨code', lowered, rfl⟩
    all_goals
      constructor
      · intro lowered
        exact ⟨shape, rfl, code, lowered, rfl⟩
      · rintro ⟨_, ⟨⟩, _, lowered, rfl⟩
        exact lowered

theorem emit_framed {body bs : Bytes} (spells : code.Spells body) {addresses : List Nat}
    {address : Nat} {site : Site} {span : Option Span} :
    ItemCode.emit addresses (address + bs.length) address
      (if c.layout = .sized then .sizeWord site span :: code else code) = .ok bs ↔
        c.layout.Frames body bs := by
  have emitted {address stop : Nat} : code.emit addresses stop address = .ok bs ↔ bs = body := by
    rw [ItemCode.emit_of_spells spells, Except.ok.injEq, eq_comm]
  by_cases sized : c.layout = .sized
  · rw [if_pos sized, sized, ItemCode.emit_cons]
    simp only [ItemCode.emit_of_spells spells, Except.ok.injEq, Piece.emit, Nat.add_sub_cancel_left,
      OperandLayout.Frames]
    constructor
    · rintro ⟨b, _, rfl, word, rfl⟩
      split at word
      · rename_i small
        rw [Except.ok.injEq] at word
        have two : b.length = 2 := by rw [← word, Bytes.length_pack]
        rw [List.length_append, two, Nat.add_comm] at word small
        exact ⟨by rw [word], small⟩
      · cases word
    · rintro ⟨rfl, small⟩
      refine ⟨_, _, rfl, ?_, rfl⟩
      rw [List.length_append, Bytes.length_pack, Nat.add_comm, if_pos small]
  · rw [if_neg sized, emitted]
    cases layout : c.layout <;> first | exact Iff.rfl | exact absurd layout sized

end Placement

namespace Command

variable {c : Command} {size : Nat} {p : Placement} {os : List Operand} {slots rest : Shape}
  {first others : List Operand}

theorem Splits.isRead (splits : c.Splits size os slots rest first others) : ∀ o ∈ os, o.IsRead := by
  intro o member
  rw [splits.split, List.mem_append] at member
  rcases member with inFirst | inOthers
  · obtain ⟨_, -, admitted⟩ := exists_left_of_mem splits.admits inFirst
    exact admitted.isRead
  · obtain ⟨_, -, admitted⟩ := exists_left_of_mem splits.admitsTail inOthers
    exact admitted.isRead

theorem Splits.fits (splits : c.Splits size os slots rest first others) :
    Shape.Fits Slot.accepts (slots ++ rest) os := by
  refine (Shape.fits_iff_split splits.fixed splits.tail).2 ⟨first, others, splits.split,
    splits.admits.imp fun _ _ admitted => admitted.accepts, splits.closed, fun o member => ?_⟩
  obtain ⟨slot, inTail, admitted⟩ := exists_left_of_mem splits.admitsTail member
  obtain ⟨_, -, rfl⟩ := List.mem_map.1 inTail
  exact admitted.accepts

theorem Splits.lowerCommand_iff (splits : c.Splits size os slots rest first others) (member : c ∈ all)
    (noMessage : c.layout ≠ .message) (noDestination : c.layout = .assignment → os.length ≠ 2)
    {addresses : List Nat} {address : Nat} {bs : Bytes} :
    (∃ code, p.lowerCommand c os = .ok code ∧
      code.emit addresses (address + bs.length) address = .ok bs) ↔
        c.Arranges p slots rest first others bs := by
  have same := splits.admits.length_eq
  obtain rfl := splits.split
  simp only [Placement.lowerCommand_eq_ok noMessage noDestination]
  constructor
  · rintro ⟨_, ⟨shape, chosen, code, lowered, rfl⟩, emitted⟩
    obtain ⟨form, fits, -⟩ := (shapeOf_eq_ok member).1 chosen
    obtain rfl := fits_unique member _ form _ splits.form fits splits.fits
    obtain ⟨body, spells⟩ := Placement.exists_spells_lowerOperands splits.isRead lowered
    obtain ⟨b₁, b₂, b, stored, storedTail, closes, rfl⟩ :=
      (Placement.lowerOperands_spells splits.fixed splits.tail splits.closed same).1 ⟨code, lowered, spells⟩
    exact ⟨b₁, b₂, b, stored, storedTail, closes, (Placement.emit_framed spells).1 emitted⟩
  · rintro ⟨b₁, b₂, b, stored, storedTail, closes, frames⟩
    obtain ⟨code, lowered, spells⟩ := (Placement.lowerOperands_spells splits.fixed splits.tail
      splits.closed same).2 ⟨b₁, b₂, b, stored, storedTail, closes, rfl⟩
    refine ⟨_, ⟨slots ++ rest, (shapeOf_eq_ok member).2 ⟨splits.form, splits.fits, ?_⟩, code, lowered, rfl⟩,
      (Placement.emit_framed spells).2 frames⟩
    exact fun o member => (List.mem_append.1 member).elim
      (Placement.checkExpression_of_storesAll splits.admits stored o)
      (Placement.checkExpression_of_storesAll splits.admitsTail storedTail o)

end Command

theorem Placement.lowerMessage_eq_ok {p : Placement} {commands : List MessageCommand}
    {span : Option Span} {code : ItemCode} :
    p.lowerMessage commands span = .ok code ↔ ∃ bs, p.StoresBody commands bs ∧
      bs.length + 1 ≤ MessageOp.maxBodySize ∧ code = [.endWord, .bytes (bs ++ [MessageOp.endByte])] := by
  simp only [lowerMessage, bind_eq_ok, StoresBody]
  constructor
  · rintro ⟨parts, lowered, h⟩
    split at h
    · cases h
    · rename_i fits
      cases h
      exact ⟨_, ⟨parts, lowered, rfl⟩, by simpa using fits, rfl⟩
  · rintro ⟨_, ⟨parts, lowered, rfl⟩, fits, rfl⟩
    refine ⟨parts, lowered, ?_⟩
    rw [if_neg (by simpa using fits)]
    rfl

theorem ItemCode.emit_message {addresses : List Nat} {address stop : Nat} {body bs : Bytes} :
    ItemCode.emit addresses stop address [.endWord, .bytes body] = .ok bs ↔
      stop < 2 ^ 32 ∧ bs = Bytes.pack stop 4 ++ body := by
  have spells : Spells [.bytes body] body := spells_singleton.2 rfl
  rw [emit_cons]
  simp only [emit_of_spells spells, Except.ok.injEq, Piece.emit, Piece.word]
  constructor
  · rintro ⟨_, _, rfl, word, rfl⟩
    split at word <;> cases word
    exact ⟨by assumption, rfl⟩
  · rintro ⟨bound, rfl⟩
    exact ⟨_, _, rfl, if_pos bound, rfl⟩

namespace Decoder

variable {size : Nat} {p : Placement} {c c' : Cursor} {command : Command} {os : List Operand}

theorem reads_assigned {value : Operand} {destination : Decoder Operand} :
    (do match value with
        | .expr op _ _ => if Operator.isAssignment op then return [value]
        | _ => pure ()
        if !value.isExpression then fail .valueNotExpression (← offset)
        return [← destination, value] : Decoder (List Operand)).Reads c os c' ↔
      (Slot.update.accepts value = true ∧ os = [value] ∧ c = c') ∨
        value.isExpression = true ∧ ∃ o, os = [o, value] ∧ destination.Reads c o c' := by
  have assigned : (do
      if !value.isExpression then fail .valueNotExpression (← offset)
      return [← destination, value] : Decoder (List Operand)).Reads c os c' ↔
        value.isExpression = true ∧ ∃ o, os = [o, value] ∧ destination.Reads c o c' := by
    cases isExpression : value.isExpression with
    | false => simp only [Bool.not_false, if_true, reads_bind, reads_fail, false_and, and_false,
        exists_false, Bool.false_eq_true]
    | true =>
      simp only [Bool.not_true, Bool.false_eq_true, if_false, reads_bind, reads_pure, true_and]
      constructor
      · rintro ⟨o, _, read, rfl, rfl⟩
        exact ⟨o, rfl, read⟩
      · rintro ⟨o, rfl, read⟩
        exact ⟨o, c', read, rfl, rfl⟩
  cases value
  case expr op args span =>
    cases update : Operator.isAssignment op with
    | false => simpa [Slot.accepts, update] using assigned
    | true => simp [Slot.accepts, Operand.isExpression, update, reads_pure, eq_comm]
  all_goals simpa [Slot.accepts] using assigned

theorem reads_operands_assignment (p p' : Placement) (kind : command.layout = .assignment) :
    (operands size command).Reads c os c' ↔
      (∃ value, os = [value] ∧ Slot.update.Admits size value ∧
        ∃ bs, p.StoresExpr value bs ∧ c.Advances bs c') ∨
      ∃ destination value, os = [destination, value] ∧ Slot.assignable.Admits size destination ∧
        Command.value.Admits size value ∧ ∃ b b', p'.StoresExpr value b ∧ p.StoresExpr destination b' ∧
          c.Advances (b ++ b') c' := by
  unfold operands
  simp only [kind]
  rw [reads_start, reads_bind]
  have destinations {c₁ c₂ : Cursor} {o : Operand} (bound : c₁.rest.length ≤ c.rest.length) :
      ((readingWith size (expression size c.rest.length) command.name).operand 0 .assignable).Reads c₁ o c₂
        ↔ Slot.assignable.Admits size o ∧ ∃ bs, p.StoresExpr o bs ∧ c₁.Advances bs c₂ := by
    rw [← Reading.readsSlot_operand _ rfl]
    exact readsSlot_iff (reads_expression bound)
  have expressions (p : Placement) : ReadsExpressions size (expression size c.rest.length) p c :=
    reads_expression le_rfl
  constructor
  · rintro ⟨value, c₁, read, h⟩
    rcases reads_assigned.1 h with ⟨update, rfl, rfl⟩ | ⟨isExpression, destination, rfl, next⟩
    · obtain ⟨isRead, -, -, -, bs, stored, advance⟩ := (expressions p _ _ _).1 read
      exact .inl ⟨value, rfl, ⟨update, isRead, by simp, by simp [Slot.leadsToCode]⟩, bs, stored, advance⟩
    · obtain ⟨isRead, -, -, -, b, stored, advance⟩ := (expressions p' _ _ _).1 read
      obtain ⟨admits, b', stored', advance'⟩ := (destinations advance.length_le).1 next
      exact .inr ⟨destination, value, rfl, admits, ⟨isExpression, isRead, by simp [Command.value],
        by simp [Command.value, Slot.leadsToCode]⟩, b, b', stored, stored', advance.trans advance'⟩
  · rintro (⟨value, rfl, admits, bs, stored, advance⟩ | ⟨destination, value, rfl, admits, admitsValue,
      b, b', stored, stored', advance⟩)
    · have notElse := Slot.isElse_of_accepts (by simp) admits.accepts
      have read := (expressions p (.expr .value) value c').2 ⟨admits.isRead,
        Slot.isAtom_of_accepts rfl admits.accepts, notElse, by simp, bs, stored, advance⟩
      exact ⟨value, c', read, reads_assigned.2 (.inl ⟨admits.accepts, rfl, rfl⟩)⟩
    · obtain ⟨c₁, advance₁, advance₂⟩ := Cursor.advances_append.1 advance
      have notElse := Slot.isElse_of_accepts (by simp [Command.value]) admitsValue.accepts
      have read := (expressions p' (.expr .value) value c₁).2 ⟨admitsValue.isRead,
        Slot.isAtom_of_accepts rfl admitsValue.accepts, notElse, by simp, b, stored, advance₁⟩
      have next := (destinations advance₁.length_le).2 ⟨admits, b', stored', advance₂⟩
      exact ⟨value, c₁, read, reads_assigned.2 (.inr ⟨admitsValue.accepts, destination, rfl, next⟩)⟩

end Decoder

def Command.Readable (c : Command) (size : Nat) (os : List Operand) : Prop :=
  match c.layout with
  | .message => ∃ commands, os = [.message commands none] ∧ MessageCommand.Tidy commands
  | _ => ∃ slots rest first others, c.Splits size os slots rest first others

namespace Command

variable {size : Nat} {p : Placement} {c : Command} {os : List Operand} {slots rest : Shape}
  {first others : List Operand}

theorem readable_iff (noMessage : c.layout ≠ .message) :
    c.Readable size os ↔ ∃ slots rest first others, c.Splits size os slots rest first others := by
  unfold Readable
  cases kind : c.layout <;> first | exact Iff.rfl | exact absurd kind noMessage

theorem splits_assignment (member : c ∈ all) (kind : c.layout = .assignment) :
    c.Splits size os slots rest first others ↔ rest = [] ∧ others = [] ∧ first = os ∧
      slots ∈ c.shapes ∧ List.Forall₂ (Slot.Admits size) slots os := by
  have noTail : ∀ shape ∈ c.shapes, .variadic ∉ shape := by
    rw [shapes_of_assignment member kind]
    decide
  constructor
  · intro splits
    have form := splits.form
    have empty : rest = [] := by
      rcases splits.tail with rfl | rfl
      · rfl
      · exact absurd (by simp) (noTail _ form)
    have whole : first = os := by rw [splits.split, splits.closed empty, List.append_nil]
    rw [empty, List.append_nil] at form
    exact ⟨empty, splits.closed empty, whole, form, whole ▸ splits.admits⟩
  · rintro ⟨rfl, rfl, rfl, form, admits⟩
    exact ⟨by simp, by simpa using form, .inl rfl, noTail _ form, fun _ => rfl, admits, .nil, by simp⟩

theorem readable_assignment (member : c ∈ all) (kind : c.layout = .assignment) :
    c.Readable size os ↔ (∃ value, os = [value] ∧ Slot.update.Admits size value) ∨
      ∃ destination value, os = [destination, value] ∧ Slot.assignable.Admits size destination ∧
        Command.value.Admits size value := by
  simp only [readable_iff (show c.layout ≠ .message by simp [kind]), splits_assignment member kind,
    shapes_of_assignment member kind, List.mem_cons, List.not_mem_nil, or_false]
  constructor
  · rintro ⟨slots, _, _, _, rfl, rfl, rfl, rfl | rfl, admits⟩
    · simp only [List.forall₂_cons_left_iff, List.forall₂_nil_left_iff] at admits
      obtain ⟨value, _, admitted, rfl, rfl⟩ := admits
      exact .inl ⟨value, rfl, admitted⟩
    · simp only [List.forall₂_cons_left_iff, List.forall₂_nil_left_iff] at admits
      obtain ⟨destination, _, admitted, ⟨value, _, admitted', rfl, rfl⟩, rfl⟩ := admits
      exact .inr ⟨destination, value, rfl, admitted, admitted'⟩
  · rintro (⟨value, rfl, admitted⟩ | ⟨destination, value, rfl, admitted, admitted'⟩)
    · exact ⟨_, _, _, _, rfl, rfl, rfl, .inl rfl, .cons admitted .nil⟩
    · exact ⟨_, _, _, _, rfl, rfl, rfl, .inr rfl, .cons admitted (.cons admitted' .nil)⟩

theorem arranges_update (kind : c.layout = .assignment) {value : Operand} {bs : Bytes} :
    c.Arranges p [.update] [] [value] [] bs ↔ (p.atOperand 0).StoresExpr value bs := by
  simp only [Arranges, kind, OperandLayout.Frames, if_true]
  constructor
  · rintro ⟨_, _, _, ⟨b, _, rfl, stored, rfl⟩, -, rfl, rfl⟩
    rw [List.append_nil, List.append_nil]
    exact stored
  · intro stored
    exact ⟨bs, [], [], ⟨bs, [], by simp, stored, rfl⟩, rfl, rfl, by simp⟩

theorem lowerCommand_pair (kind : c.layout = .assignment) {destination value : Operand} {code : ItemCode} :
    p.lowerCommand c [destination, value] = .ok code ↔
      (∃ shape, c.shapeOf [destination, value] = .ok shape) ∧ ∃ second,
        (p.atOperand 1).lowerExpr value = .ok second ∧ ∃ first,
          (p.atOperand 0).lowerExpr destination = .ok first ∧ second ++ first = code := by
  unfold Placement.lowerCommand
  rw [kind]
  cases chosen : c.shapeOf [destination, value] with
  | error e => simp [Placement.fail]
  | ok shape => simp only [bind_eq_ok, pure_eq_ok, Except.ok.injEq, exists_eq', true_and]

theorem lowerCommand_assigned (member : c ∈ all) (kind : c.layout = .assignment)
    {destination value : Operand} (admits : Slot.assignable.Admits size destination)
    (admits' : Command.value.Admits size value) {addresses : List Nat} {address stop : Nat} {bs : Bytes} :
    (∃ code, p.lowerCommand c [destination, value] = .ok code ∧
      code.emit addresses stop address = .ok bs) ↔ ∃ b b', bs = b ++ b' ∧
        (p.atOperand 1).StoresExpr value b ∧ (p.atOperand 0).StoresExpr destination b' := by
  simp only [lowerCommand_pair kind]
  constructor
  · rintro ⟨_, ⟨-, second, lowered₁, first, lowered₂, rfl⟩, emitted⟩
    obtain ⟨b, spells⟩ := Placement.exists_spells_lowerExpr admits'.isRead lowered₁
    obtain ⟨b', spells'⟩ := Placement.exists_spells_lowerExpr admits.isRead lowered₂
    have spelled := ItemCode.spells_append.2 ⟨b, b', rfl, spells, spells'⟩
    rw [ItemCode.emit_of_spells spelled] at emitted
    cases emitted
    exact ⟨b, b', rfl, ⟨second, lowered₁, spells⟩, first, lowered₂, spells'⟩
  · rintro ⟨b, b', rfl, ⟨second, lowered₁, spells⟩, first, lowered₂, spells'⟩
    obtain ⟨slots, rest, front, others, splits⟩ := (readable_iff (by simp [kind])).1
      ((readable_assignment member kind).2 (.inr ⟨destination, value, rfl, admits, admits'⟩))
    have checked : ∀ o ∈ [destination, value], o.checkExpression = .ok () := by
      simp [Placement.checkExpression_of_lowerExpr admits.isRead lowered₂,
        Placement.checkExpression_of_lowerExpr admits'.isRead lowered₁]
    exact ⟨_, ⟨⟨_, (shapeOf_eq_ok member).2 ⟨splits.form, splits.fits, checked⟩⟩, second, lowered₁, first,
      lowered₂, rfl⟩, ItemCode.emit_of_spells (ItemCode.spells_append.2 ⟨b, b', rfl, spells, spells'⟩)⟩

end Command

namespace Decoder

variable {size : Nat} {c c' : Cursor} {command : Command} {os : List Operand}

theorem arranged_iff_lowerCommand (p : Placement) (addresses : List Nat)
    (member : command ∈ Command.all) (noMessage : command.layout ≠ .message)
    (noDestination : command.layout = .assignment → os.length ≠ 2) :
    (∃ bs, command.Arranged size p os bs ∧ c.Advances bs c') ↔ command.Readable size os ∧ ∃ code bs,
      p.lowerCommand command os = .ok code ∧ code.emit addresses c'.offset c.offset = .ok bs ∧
        c.Advances bs c' := by
  rw [Command.readable_iff noMessage]
  constructor
  · rintro ⟨bs, ⟨slots, rest, first, others, splits, arranges⟩, advance⟩
    obtain ⟨code, lowered, emitted⟩ :=
      (splits.lowerCommand_iff member noMessage noDestination).2 arranges
    exact ⟨⟨_, _, _, _, splits⟩, code, bs, lowered, advance.offset ▸ emitted, advance⟩
  · rintro ⟨⟨slots, rest, first, others, splits⟩, code, bs, lowered, emitted, advance⟩
    rw [advance.offset] at emitted
    exact ⟨bs, ⟨_, _, _, _, splits, (splits.lowerCommand_iff member noMessage noDestination).1
      ⟨code, lowered, emitted⟩⟩, advance⟩

theorem reads_operands (p : Placement) (addresses : List Nat) (member : command ∈ Command.all) :
    (operands size command).Reads c os c' ↔ command.Readable size os ∧ ∃ code bs,
      p.lowerCommand command os = .ok code ∧ code.emit addresses c'.offset c.offset = .ok bs ∧
        c.Advances bs c' := by
  cases kind : command.layout
  case plain =>
    rw [reads_operands_plain member kind]
    exact arranged_iff_lowerCommand p addresses member (by simp [kind]) (by simp [kind])
  case sized =>
    rw [reads_operands_sized member kind]
    exact arranged_iff_lowerCommand p addresses member (by simp [kind]) (by simp [kind])
  case counted =>
    rw [reads_operands_counted member kind]
    exact arranged_iff_lowerCommand p addresses member (by simp [kind]) (by simp [kind])
  case terminated =>
    rw [reads_operands_terminated member kind]
    exact arranged_iff_lowerCommand p addresses member (by simp [kind]) (by simp [kind])
  case message =>
    unfold operands
    simp only [kind]
    rw [reads_start, reads_bind]
    simp only [reads_message (p := p), reads_pure, Command.Readable, kind]
    constructor
    · rintro ⟨_, _, ⟨commands, rfl, tidy, bs, stored, small, bound, advance⟩, rfl, rfl⟩
      refine ⟨⟨commands, rfl, tidy⟩, _, _, ?_, ItemCode.emit_message.2 ⟨bound, rfl⟩, advance⟩
      unfold Placement.lowerCommand
      rw [kind]
      exact Placement.lowerMessage_eq_ok.2 ⟨bs, stored, small, rfl⟩
    · rintro ⟨⟨commands, rfl, tidy⟩, code, bytes, lowered, emitted, advance⟩
      unfold Placement.lowerCommand at lowered
      rw [kind] at lowered
      obtain ⟨bs, stored, small, rfl⟩ := Placement.lowerMessage_eq_ok.1 lowered
      obtain ⟨bound, rfl⟩ := ItemCode.emit_message.1 emitted
      exact ⟨_, c', ⟨commands, rfl, tidy, bs, stored, small, bound, advance⟩, rfl, rfl⟩
  case assignment =>
    have noMessage : command.layout ≠ .message := by simp [kind]
    have single {value : Operand} (admits : Slot.update.Admits size value) :
        command.Splits size [value] [.update] [] [value] [] :=
      (Command.splits_assignment member kind).2 ⟨rfl, rfl, rfl,
        by simp [Command.shapes_of_assignment member kind], .cons admits .nil⟩
    rw [reads_operands_assignment (p.atOperand 0) (p.atOperand 1) kind]
    constructor
    · rintro (⟨value, rfl, admits, bs, stored, advance⟩ | ⟨destination, value, rfl, admits, admits', b, b',
        stored, stored', advance⟩)
      · exact (arranged_iff_lowerCommand p addresses member noMessage (by simp)).1
          ⟨bs, ⟨_, _, _, _, single admits, (Command.arranges_update kind).2 stored⟩, advance⟩
      · obtain ⟨code, lowered, emitted⟩ := (Command.lowerCommand_assigned member kind admits admits').2
          ⟨b, b', rfl, stored, stored'⟩
        exact ⟨(Command.readable_assignment member kind).2 (.inr ⟨_, _, rfl, admits, admits'⟩), code, _,
          lowered, emitted, advance⟩
    · rintro ⟨readable, code, bs, lowered, emitted, advance⟩
      rcases (Command.readable_assignment member kind).1 readable with
        ⟨value, rfl, admits⟩ | ⟨destination, value, rfl, admits, admits'⟩
      · rw [advance.offset] at emitted
        have arranges := ((single admits).lowerCommand_iff member noMessage (by simp)).1
          ⟨code, lowered, emitted⟩
        exact .inl ⟨value, rfl, admits, bs, (Command.arranges_update kind).1 arranges, advance⟩
      · obtain ⟨b, b', rfl, stored, stored'⟩ :=
          (Command.lowerCommand_assigned member kind admits admits').1 ⟨code, lowered, emitted⟩
        exact .inr ⟨destination, value, rfl, admits, admits', b, b', stored, stored', advance⟩

end Decoder

def Instruction.Readable (size : Nat) (i : Instruction) : Prop :=
  i.span = none ∧ ∃ c ∈ Command.all, c.name = i.opcode ∧ c.Readable size i.operands

theorem Instruction.lower_eq_ok {labels : LabelTable} {i : Instruction} {code : ItemCode} :
    i.lower labels = .ok code ↔ ∃ c ∈ Command.all, c.name = i.opcode ∧ ∃ code',
      Placement.lowerCommand ⟨labels, ⟨i.opcode, 0⟩, i.span⟩ c i.operands = .ok code' ∧
        code = .bytes [c.code] :: code' := by
  unfold Instruction.lower
  dsimp only
  split
  · rename_i unknown
    simp only [Placement.fail, reduceCtorEq, false_iff]
    rintro ⟨c, member, name, -⟩
    rw [Command.ofName?_eq_some.2 ⟨member, name⟩] at unknown
    cases unknown
  · rename_i c found
    obtain ⟨member, name⟩ := Command.ofName?_eq_some.1 found
    rw [map_eq_ok]
    constructor
    · rintro ⟨code', lowered, rfl⟩
      exact ⟨c, member, name, code', lowered, rfl⟩
    · rintro ⟨c', member', name', code', lowered, rfl⟩
      rw [Command.ofName?_eq_some.2 ⟨member', name'⟩, Option.some.injEq] at found
      subst found
      exact ⟨code', lowered, rfl⟩

theorem Decoder.reads_instruction (labels : LabelTable) (addresses : List Nat) {size : Nat}
    {c c' : Cursor} {i : Instruction} :
    (instruction size).Reads c i c' ↔ i.Readable size ∧ ∃ code bs, i.lower labels = .ok code ∧
      code.emit addresses c'.offset c.offset = .ok bs ∧ c.Advances bs c' := by
  unfold instruction
  simp only [reads_bind, reads_offset, reads_byte]
  constructor
  · rintro ⟨_, _, ⟨rfl, rfl⟩, code, c₁, first, h⟩
    cases found : Command.ofCode? code with
    | none =>
      rw [found] at h
      exact (reads_fail.1 h).elim
    | some command =>
      rw [found] at h
      obtain ⟨os, c₂, read, done⟩ := reads_bind.1 h
      obtain ⟨rfl, rfl⟩ := reads_pure.1 done
      obtain ⟨member, rfl⟩ := Command.ofCode?_eq_some.1 found
      obtain ⟨readable, code, bs, lowered, emitted, advance⟩ :=
        (reads_operands ⟨labels, ⟨command.name, 0⟩, none⟩ addresses member).1 read
      rw [first.offset] at emitted
      exact ⟨⟨rfl, command, member, rfl, readable⟩, _, _,
        Instruction.lower_eq_ok.2 ⟨command, member, rfl, code, lowered, rfl⟩,
        ItemCode.emit_cons.2 ⟨_, _, rfl, rfl, emitted⟩, first.trans advance⟩
  · obtain ⟨opcode, os, span⟩ := i
    rintro ⟨⟨rfl, command, member, rfl, readable⟩, _, bs, lowered, emitted, advance⟩
    obtain ⟨command', member', same, code, stored, rfl⟩ := Instruction.lower_eq_ok.1 lowered
    obtain rfl := Command.eq_of_name member' member same
    obtain ⟨_, bs, rfl, ⟨⟩, rest⟩ := ItemCode.emit_cons.1 emitted
    obtain ⟨c₁, first, advance⟩ := Cursor.advances_append.1 advance
    refine ⟨_, _, ⟨rfl, rfl⟩, command'.code, c₁, first, ?_⟩
    rw [Command.ofCode?_eq_some.2 ⟨member, rfl⟩]
    refine reads_bind.2 ⟨os, c', (reads_operands _ addresses member).2 ⟨readable, code, bs, stored, ?_,
      advance⟩, reads_pure.2 ⟨rfl, rfl⟩⟩
    rw [first.offset]
    exact rest

/-- What is decoded at an offset is what is emitted there. -/
theorem Instruction.decode_eq_ok (labels : LabelTable) (addresses : List Nat) {data : Bytes}
    {offset n : Nat} {i : Instruction} :
    Instruction.decode data offset = .ok (i, n) ↔ i.Readable data.length ∧ ∃ code bs,
      i.lower labels = .ok code ∧ code.emit addresses (offset + n) offset = .ok bs ∧ bs.length = n ∧
        bs <+: data.drop offset := by
  unfold Instruction.decode
  simp only [bind_eq_ok, Prod.exists, pure_eq_ok, Prod.mk.injEq]
  constructor
  · rintro ⟨_, c', read, rfl, rfl⟩
    obtain ⟨readable, code, bs, lowered, emitted, advance⟩ :=
      (Decoder.reads_instruction labels addresses).1 read
    have moved : c'.offset = offset + bs.length := advance.offset
    rw [moved] at emitted ⊢
    rw [Nat.add_sub_cancel_left]
    exact ⟨readable, code, bs, lowered, emitted, rfl, c'.rest, advance.rest.symm⟩
  · rintro ⟨readable, code, bs, lowered, emitted, rfl, rest, whole⟩
    exact ⟨i, ⟨rest, offset + bs.length⟩, (Decoder.reads_instruction labels addresses).2
      ⟨readable, code, bs, lowered, emitted, whole.symm, rfl⟩, rfl, by simp⟩

end EventScript
