import EventScript.Proofs.Emission
import EventScript.Proofs.Messages

namespace EventScript

namespace Command

theorem nodup_keys : (all.map Command.code).Nodup ∧ (all.map Command.name).Nodup := by
  decide +kernel

theorem ofCode?_eq_some {code : UInt8} {c : Command} :
    ofCode? code = some c ↔ c ∈ all ∧ c.code = code :=
  find?_key_eq_some Command.code nodup_keys.1

theorem ofName?_eq_some {name : String} {c : Command} :
    ofName? name = some c ↔ c ∈ all ∧ c.name = name :=
  find?_key_eq_some Command.name nodup_keys.2

theorem eq_of_name {c c' : Command} (member : c ∈ all) (member' : c' ∈ all) (same : c.name = c'.name) :
    c = c' :=
  Option.some.inj ((ofName?_eq_some.2 ⟨member, same⟩).symm.trans (ofName?_eq_some.2 ⟨member', rfl⟩))

theorem shapes_of_assignment {c : Command} (member : c ∈ all) (kind : c.layout = .assignment) :
    c.shapes = [[.update], [.assignable, value]] := by
  have table : ∀ c ∈ all, c.layout = .assignment → c.shapes = [[.update], [.assignable, value]] := by
    decide +kernel
  exact table c member kind

theorem fits_unique {c : Command} (member : c ∈ all) {os : List Operand} :
    ∀ a ∈ c.shapes, ∀ b ∈ c.shapes, Shape.Fits Slot.accepts a os → Shape.Fits Slot.accepts b os → a = b := by
  intro a inA b inB fitsA fitsB
  by_cases kind : c.layout = .assignment
  · have fixed : ∀ shape ∈ c.shapes, .variadic ∉ shape := by
      rw [shapes_of_assignment member kind]
      decide
    have lengthA := (Shape.fits_fixed (fixed a inA)).1 fitsA |>.length_eq
    have lengthB := (Shape.fits_fixed (fixed b inB)).1 fitsB |>.length_eq
    rw [shapes_of_assignment member kind] at inA inB
    simp only [List.mem_cons, List.not_mem_nil, or_false] at inA inB
    rcases inA with rfl | rfl <;> rcases inB with rfl | rfl <;>
      simp only [List.length_cons, List.length_nil] at lengthA lengthB <;> first | rfl | omega
  · exact Shape.Fits.unique (regular member kind).separate Slot.not_accepts_of_exclusive inA inB fitsA fitsB

theorem checkOperands_eq_ok {index : Nat} {os : List Operand} :
    checkOperands index os = .ok () ↔ ∀ o ∈ os, o.checkExpression = .ok () := by
  induction os generalizing index with
  | nil => simp [checkOperands]
  | cons o os ih =>
    simp only [checkOperands, List.forall_mem_cons]
    cases checked : o.checkExpression with
    | error e => simp
    | ok u => simp [ih]

theorem shapeOf_eq_ok {c : Command} (member : c ∈ all) {os : List Operand} {shape : Shape} :
    c.shapeOf os = .ok shape ↔ shape ∈ c.shapes ∧ Shape.Fits Slot.accepts shape os ∧
      ∀ o ∈ os, o.checkExpression = .ok () := by
  unfold shapeOf
  simp only [bind_eq_ok, pure_eq_ok, Shape.choose_eq_ok_of_unique (fits_unique member)]
  constructor
  · rintro ⟨_, ⟨form, fits⟩, _, checked, rfl⟩
    exact ⟨form, fits, checkOperands_eq_ok.1 checked⟩
  · rintro ⟨form, fits, checked⟩
    exact ⟨shape, ⟨form, fits⟩, (), checkOperands_eq_ok.2 checked, rfl⟩

end Command

namespace Placement

variable {p : Placement}

theorem checkExpressions_eq_ok {os : List Operand} :
    Operand.checkExpressions os = .ok () ↔ ∀ o ∈ os, o.checkExpression = .ok () := by
  induction os with
  | nil => simp [Operand.checkExpressions]
  | cons o os ih =>
    simp only [Operand.checkExpressions, bind_eq_ok, ih, List.forall_mem_cons]
    constructor
    · rintro ⟨_, first, rest⟩
      exact ⟨first, rest⟩
    · rintro ⟨first, rest⟩
      exact ⟨(), first, rest⟩

theorem checkExpression_of_lowerExpr {o : Operand} {code : ItemCode} (isRead : o.IsRead)
    (lowered : p.lowerExpr o = .ok code) : o.checkExpression = .ok () := by
  induction o using Operand.expr_induction generalizing code with
  | leaf o notExpr => cases o <;> first | rfl | exact absurd rfl (notExpr _ _ _)
  | expr op args span ih =>
    obtain ⟨⟨-, known⟩, argsRead⟩ := Operand.isRead_expr.1 isRead
    obtain ⟨operator, found, proper⟩ := (Option.any_eq_true ..).1 known
    obtain ⟨member, rfl⟩ := Operator.ofName?_eq_some.1 found
    obtain ⟨slots, form, accepted, parts, stored, -⟩ := (lowerExpr_proper member proper).1 lowered
    have chosen : Shape.choose Slot.accepts operator.name operator.shapes args = .ok slots :=
      (shapeOf_eq_ok member proper).2 ⟨form, accepted⟩
    rw [Operand.checkExpression, found]
    simp only [chosen, checkExpressions_eq_ok]
    intro a isArg
    cases a <;> first | rfl | skip
    case expr op' args' span' =>
      obtain ⟨slot, -, accepts, inParts⟩ := exists_zipWith_of_mem accepted
        (fun slot o => p.lowerSlot slot o (p.lowerExpr o)) isArg
      have plain : p.lowerSlot slot (.expr op' args' span') (p.lowerExpr (.expr op' args' span')) =
          p.lowerExpr (.expr op' args' span') := by
        cases slot <;> first | rfl | cases accepts
      rw [plain, ← lowerArgs_eq_zipWith] at inParts
      have inStored : p.lowerExpr (.expr op' args' span') ∈
          if operator.isReversed then (p.lowerArgs slots args).reverse else p.lowerArgs slots args := by
        split
        · exact List.mem_reverse.2 inParts
        · exact inParts
      obtain ⟨code', -, lowered'⟩ := exists_right_of_mem (mapM_eq_ok.1 stored) inStored
      exact ih _ isArg (argsRead _ isArg) lowered'

variable (p) in
def StoresAt (index : Nat) : Slot → Operand → Bytes → Prop := (p.atOperand index).Stores

theorem lowerFixed_spells {index : Nat} {slots : List Slot} {os : List Operand}
    (same : slots.length = os.length) (others : List Operand) {bs : Bytes} :
    (∃ code, p.lowerFixed index slots (os ++ others) = .ok code ∧ code.Spells bs) ↔
      StoresAll p.StoresAt index slots os bs := by
  induction slots generalizing index os bs with
  | nil =>
    obtain rfl := List.length_eq_zero_iff.1 same.symm
    simp [lowerFixed, StoresAll, ItemCode.spells_nil]
  | cons slot slots ih =>
    cases os with
    | nil => simp at same
    | cons o os =>
      simp only [List.cons_append, lowerFixed, bind_eq_ok, pure_eq_ok, StoresAll,
        ← ih (Nat.succ.inj same), StoresAt, Stores]
      constructor
      · rintro ⟨_, ⟨code, first, code', rest, rfl⟩, spells⟩
        obtain ⟨b, b', rfl, spells, spells'⟩ := ItemCode.spells_append.1 spells
        exact ⟨b, b', rfl, ⟨code, first, spells⟩, code', rest, spells'⟩
      · rintro ⟨b, b', rfl, ⟨code, first, spells⟩, code', rest, spells'⟩
        exact ⟨_, ⟨code, first, code', rest, rfl⟩, ItemCode.spells_append.2 ⟨b, b', rfl, spells, spells'⟩⟩

def tailSlots (os : List Operand) : List Slot := os.map fun _ => .variadic

theorem lowerTail_cons {terminated : Bool} {index : Nat} {o : Operand} {os : List Operand}
    {code : ItemCode} : p.lowerTail terminated index (o :: os) = .ok code ↔
      (terminated = true → o.isTerminator = false) ∧ ∃ first,
        (p.atOperand index).lowerExpr o = .ok first ∧ ∃ rest,
          p.lowerTail terminated (index + 1) os = .ok rest ∧ code = first ++ rest := by
  simp only [lowerTail]
  by_cases stops : (terminated && o.isTerminator) = true
  · simp only [stops, if_true]
    simp only [Bool.and_eq_true] at stops
    simp [stops, fail, bind_eq_ok]
  · rw [if_neg stops]
    have allowed : terminated = true → o.isTerminator = false := by simpa using stops
    rw [and_iff_right allowed]
    constructor
    · intro h
      obtain ⟨first, lowered, h⟩ := bind_eq_ok.1 h
      obtain ⟨rest, lowered', h⟩ := bind_eq_ok.1 h
      exact ⟨first, lowered, rest, lowered', (pure_eq_ok.1 h).symm⟩
    · rintro ⟨first, lowered, rest, lowered', rfl⟩
      exact bind_eq_ok.2 ⟨first, lowered, bind_eq_ok.2 ⟨rest, lowered', rfl⟩⟩

theorem lowerTail_spells {terminated : Bool} {index : Nat} {os : List Operand} {bs : Bytes} :
    (∃ code, p.lowerTail terminated index os = .ok code ∧ code.Spells bs) ↔
      (terminated = true → ∀ o ∈ os, o.isTerminator = false) ∧
        StoresAll p.StoresAt index (tailSlots os) os bs := by
  induction os generalizing index bs with
  | nil => simp [lowerTail, tailSlots, StoresAll, ItemCode.spells_nil]
  | cons o os ih =>
    simp only [lowerTail_cons, tailSlots, List.map_cons, StoresAll, List.forall_mem_cons]
    constructor
    · rintro ⟨_, ⟨allowed, first, lowered, rest, lowered', rfl⟩, spells⟩
      obtain ⟨b, b', rfl, spells, spells'⟩ := ItemCode.spells_append.1 spells
      obtain ⟨others, stored⟩ := ih.1 ⟨rest, lowered', spells'⟩
      exact ⟨fun t => ⟨allowed t, others t⟩, b, b', rfl, ⟨first, lowered, spells⟩, stored⟩
    · rintro ⟨allowed, b, b', rfl, ⟨first, lowered, spells⟩, stored⟩
      obtain ⟨rest, lowered', spells'⟩ := ih.2 ⟨fun t => (allowed t).2, stored⟩
      exact ⟨_, ⟨fun t => (allowed t).1, first, lowered, rest, lowered', rfl⟩,
        ItemCode.spells_append.2 ⟨b, b', rfl, spells, spells'⟩⟩

end Placement

def OperandLayout.Closes (layout : OperandLayout) (others : List Operand) (b bs : Bytes) : Prop :=
  match layout with
  | .counted => bs = (Width.ofLiteral others.length).constant others.length ++ b
  | .terminated => (∀ o ∈ others, o.isTerminator = false) ∧ bs = b ++ Placement.terminator
  | _ => bs = b

def OperandLayout.Frames (layout : OperandLayout) (body bs : Bytes) : Prop :=
  match layout with
  | .sized => bs = Bytes.pack (body.length + 2 : Nat) 2 ++ body ∧
      body.length + 2 ≤ Piece.maxArgumentSize
  | _ => bs = body

namespace Command

/-- Operands that fill a form of the command, `first` its slots and `others` its tail, and that can
be read from a buffer of `size` bytes. -/
structure Splits (c : Command) (size : Nat) (os : List Operand) (slots rest : Shape)
    (first others : List Operand) : Prop where
  split : os = first ++ others
  form : slots ++ rest ∈ c.shapes
  tail : rest.IsTail
  fixed : .variadic ∉ slots
  closed : rest = [] → others = []
  admits : List.Forall₂ (Slot.Admits size) slots first
  admitsTail : List.Forall₂ (Slot.Admits size) (Placement.tailSlots others) others
  count : c.layout = .counted → others.length < 2 ^ 31

def Arranges (c : Command) (p : Placement) (slots rest : Shape) (first others : List Operand)
    (bs : Bytes) : Prop :=
  ∃ b₁ b₂ b, StoresAll p.StoresAt 0 slots first b₁ ∧
    StoresAll p.StoresAt slots.length (Placement.tailSlots others) others b₂ ∧
    (if rest = [] then b = [] else c.layout.Closes others b₂ b) ∧ c.layout.Frames (b₁ ++ b) bs

def Arranged (c : Command) (size : Nat) (p : Placement) (os : List Operand) (bs : Bytes) : Prop :=
  ∃ slots rest first others, c.Splits size os slots rest first others ∧
    c.Arranges p slots rest first others bs

end Command

namespace Decoder

open Placement (tailSlots)

section Tails

variable {reading : Reading} {index : Nat} {c c' : Cursor} {os : List Operand}

theorem readsSlots_tail_cons {o : Operand} :
    reading.ReadsSlots index (tailSlots (o :: os)) c (o :: os) c' ↔ ∃ c₁,
      (reading.operand index .variadic).Reads c o c₁ ∧
        reading.ReadsSlots (index + 1) (tailSlots os) c₁ os c' := by
  have plain : Slot.variadic.isSelector = false := rfl
  simp only [tailSlots, List.map_cons, Reading.ReadsSlots, reading.readsSlot_operand plain]

theorem reads_countedTail {count : Nat} :
    (countedTail (fun i => reading.operand i .variadic) count index).Reads c os c' ↔
      os.length = count ∧ reading.ReadsSlots index (tailSlots os) c os c' := by
  induction count generalizing index c c' os with
  | zero =>
    rw [countedTail, reads_pure, List.length_eq_zero_iff]
    constructor
    · rintro ⟨rfl, rfl⟩
      exact ⟨rfl, rfl⟩
    · rintro ⟨rfl, same⟩
      exact ⟨rfl, same⟩
  | succ count ih =>
    simp only [countedTail, reads_bind, reads_pure, ih]
    constructor
    · rintro ⟨o, c₁, first, os, _, ⟨rfl, rest⟩, rfl, rfl⟩
      exact ⟨rfl, readsSlots_tail_cons.2 ⟨c₁, first, rest⟩⟩
    · rintro ⟨length, read⟩
      cases os with
      | nil => simp at length
      | cons o os =>
        obtain ⟨c₁, first, rest⟩ := readsSlots_tail_cons.1 read
        exact ⟨o, c₁, first, os, c', ⟨by simpa using length, rest⟩, rfl, rfl⟩

variable {depth : Nat}

def Shrinks (reading : Reading) (depth : Nat) : Prop :=
  ∀ i c o c', c.rest.length ≤ depth → (reading.operand i .variadic).Reads c o c' →
    c'.rest.length < c.rest.length ∧ c.offset < c'.offset

theorem reads_sizedTail {stop limit : Nat} (bound : c.rest.length ≤ depth)
    (enough : stop ≤ c.offset + limit) (shrinks : Shrinks reading depth) :
    ((sizedTail (fun i => reading.operand i .variadic) stop limit index).Reads c os c' ∧
      c'.offset = stop) ↔
        reading.ReadsSlots index (tailSlots os) c os c' ∧ c'.offset = stop := by
  have mono {index : Nat} {c : Cursor} {os : List Operand} (bound : c.rest.length ≤ depth)
      (read : reading.ReadsSlots index (tailSlots os) c os c') : c.offset ≤ c'.offset := by
    induction os generalizing index c with
    | nil => exact (Reading.readsSlots_nil.1 read).2 ▸ le_rfl
    | cons o os ih =>
      obtain ⟨c₁, first, rest⟩ := readsSlots_tail_cons.1 read
      obtain ⟨shorter, further⟩ := shrinks _ _ _ _ bound first
      exact further.le.trans (ih (shorter.le.trans bound) rest)
  -- Every operand moves the offset on, so that the limit lasts up to the stop.
  induction limit generalizing index c os with
  | zero =>
    rw [sizedTail, reads_pure]
    constructor
    · rintro ⟨⟨rfl, rfl⟩, there⟩
      exact ⟨rfl, there⟩
    · rintro ⟨read, there⟩
      cases os with
      | nil => exact ⟨⟨rfl, read⟩, there⟩
      | cons o os =>
        obtain ⟨c₁, first, rest⟩ := readsSlots_tail_cons.1 read
        obtain ⟨shorter, further⟩ := shrinks _ _ _ _ bound first
        have := mono (shorter.le.trans bound) rest
        omega
  | succ limit ih =>
    simp only [sizedTail, reads_bind, reads_offset]
    constructor
    · rintro ⟨⟨_, _, ⟨rfl, rfl⟩, h⟩, there⟩
      by_cases done : stop ≤ c.offset
      · simp only [done, if_true] at h
        obtain ⟨rfl, rfl⟩ := reads_pure.1 h
        exact ⟨rfl, there⟩
      · simp only [done, if_false, reads_bind, reads_pure] at h
        obtain ⟨o, c₁, first, os, _, rest, rfl, rfl⟩ := h
        obtain ⟨shorter, further⟩ := shrinks _ _ _ _ bound first
        obtain ⟨rest, -⟩ := (ih (shorter.le.trans bound) (by omega)).1 ⟨rest, there⟩
        exact ⟨readsSlots_tail_cons.2 ⟨c₁, first, rest⟩, there⟩
    · rintro ⟨read, there⟩
      refine ⟨⟨_, _, ⟨rfl, rfl⟩, ?_⟩, there⟩
      cases os with
      | nil =>
        obtain rfl : c = c' := read
        simp only [there.ge, if_true]
        exact reads_pure.2 ⟨rfl, rfl⟩
      | cons o os =>
        obtain ⟨c₁, first, rest⟩ := readsSlots_tail_cons.1 read
        obtain ⟨shorter, further⟩ := shrinks _ _ _ _ bound first
        have := mono (shorter.le.trans bound) rest
        have going : ¬ stop ≤ c.offset := by omega
        simp only [going, if_false, reads_bind, reads_pure]
        obtain ⟨rest, -⟩ := (ih (shorter.le.trans bound) (by omega)).2 ⟨rest, there⟩
        exact ⟨o, c₁, first, os, c', rest, rfl, rfl⟩

theorem advances_terminator :
    c.Advances Placement.terminator c' ↔
      c.rest.take 2 = Placement.terminator ∧ c' = ⟨c.rest.drop 2, c.offset + 2⟩ := by
  have length : Placement.terminator.length = 2 := rfl
  constructor
  · rintro ⟨rest, offset⟩
    rw [length] at offset
    obtain ⟨rest', offset'⟩ := c'
    rw [rest, ← length, List.take_left, List.drop_left]
    exact ⟨rfl, by simp_all⟩
  · rintro ⟨first, rfl⟩
    exact ⟨by rw [← first, List.take_append_drop], by rw [length]⟩

theorem reads_terminatedTail {name : String} {limit : Nat} (bound : c.rest.length ≤ depth)
    (enough : c.rest.length < limit) (shrinks : Shrinks reading depth)
    (stops : ∀ i c o c', c.rest.length ≤ depth → (reading.operand i .variadic).Reads c o c' →
      c.rest.take 2 = Placement.terminator → o.isTerminator = true) :
    (terminatedTail (fun i => reading.operand i .variadic) name limit index).Reads c os c' ↔
      (∀ o ∈ os, o.isTerminator = false) ∧
        ∃ c₁, reading.ReadsSlots index (tailSlots os) c os c₁ ∧ c₁.Advances Placement.terminator c' := by
  induction limit generalizing index c c' os with
  | zero => simp at enough
  | succ limit ih =>
    simp only [terminatedTail, reads_bind, reads_get]
    constructor
    · rintro ⟨_, _, ⟨rfl, rfl⟩, h⟩
      by_cases done : c.rest.take 2 = Placement.terminator
      · rw [if_pos (by simpa using done), reads_bind] at h
        simp only [reads_skip, reads_pure] at h
        obtain ⟨_, _, rfl, rfl, rfl⟩ := h
        exact ⟨by simp, c, rfl, advances_terminator.2 ⟨done, rfl⟩⟩
      · rw [if_neg (by simpa using done), reads_bind] at h
        simp only [reads_offset] at h
        obtain ⟨_, _, ⟨rfl, rfl⟩, h⟩ := h
        obtain ⟨o, c₁, first, h⟩ := reads_bind.1 h
        by_cases terminator : o.isTerminator = true
        · simp only [terminator, if_true, reads_bind, reads_fail, false_and, exists_false] at h
        · rw [if_neg terminator, reads_bind] at h
          simp only [reads_pure] at h
          obtain ⟨os, _, rest, rfl, rfl⟩ := h
          obtain ⟨shorter, -⟩ := shrinks _ _ _ _ bound first
          obtain ⟨allowed, c₂, rest, closed⟩ := (ih (by omega) (by omega)).1 rest
          exact ⟨List.forall_mem_cons.2 ⟨by simpa using terminator, allowed⟩, c₂,
            readsSlots_tail_cons.2 ⟨c₁, first, rest⟩, closed⟩
    · rintro ⟨allowed, c₁, read, closed⟩
      refine ⟨_, _, ⟨rfl, rfl⟩, ?_⟩
      cases os with
      | nil =>
        obtain rfl : c = c₁ := read
        obtain ⟨done, rfl⟩ := advances_terminator.1 closed
        rw [if_pos (by simpa using done), reads_bind]
        exact ⟨(), _, reads_skip.2 rfl, reads_pure.2 ⟨rfl, rfl⟩⟩
      | cons o os =>
        obtain ⟨c₂, first, rest⟩ := readsSlots_tail_cons.1 read
        obtain ⟨notTerminator, allowed⟩ := List.forall_mem_cons.1 allowed
        -- What starts with the bytes of the terminator is read as one, and this operand is none.
        have going : ¬ (c.rest.take 2 == Placement.terminator) = true := by
          intro done
          rw [stops _ _ _ _ bound first (by simpa using done)] at notTerminator
          contradiction
        rw [if_neg going, reads_bind]
        simp only [reads_offset]
        refine ⟨_, _, ⟨rfl, rfl⟩, reads_bind.2 ⟨o, c₂, first, ?_⟩⟩
        rw [if_neg (by simp [notTerminator]), reads_bind]
        obtain ⟨shorter, -⟩ := shrinks _ _ _ _ bound first
        exact ⟨os, c', (ih (by omega) (by omega)).2 ⟨allowed, c₁, rest, closed⟩, reads_pure.2 ⟨rfl, rfl⟩⟩

end Tails

section Operands

variable {size depth : Nat} {p : Placement} {name : String} {c c' : Cursor}

theorem readsSlots_stored {index : Nat} {slots : List Slot} {os : List Operand}
    (enough : c.rest.length ≤ depth) :
    (readingWith size (expression size depth) name).ReadsSlots index slots c os c' ↔
      List.Forall₂ (Slot.Admits size) slots os ∧
        ∃ bs, StoresAll p.StoresAt index slots os bs ∧ c.Advances bs c' :=
  Reading.readsSlots_iff (fun _ _ _ _ _ _ bound => readsSlot_iff (reads_expression bound)) enough

theorem reads_variadic {index : Nat} {o : Operand} (enough : c.rest.length ≤ depth) :
    ((readingWith size (expression size depth) name).operand index .variadic).Reads c o c' ↔
      Slot.variadic.Admits size o ∧ ∃ bs, p.StoresExpr o bs ∧ c.Advances bs c' := by
  rw [← Reading.readsSlot_operand _ rfl]
  exact readsSlot_iff (reads_expression enough)

theorem shrinks_variadic : Shrinks (readingWith size (expression size depth) name) depth := by
  intro index c o c' bound read
  let p : Placement := ⟨{}, ⟨"", 0⟩, none⟩
  obtain ⟨admitted, bs, stored, advance⟩ := (reads_variadic (p := p) bound).1 read
  have some : 0 < bs.length := by
    rcases Placement.storesExpr_cases admitted.isRead (Slot.isAtom_of_accepts rfl admitted.accepts) stored with
      ⟨_, _, -, -, rfl⟩ | ⟨_, _, _, -, -, rfl⟩ | ⟨_, -, -, _, -, _, rfl⟩ <;> simp
  have shorter := congrArg List.length advance.rest
  have further := advance.offset
  rw [List.length_append] at shorter
  exact ⟨by omega, by omega⟩

theorem isTerminator_of_reads (index : Nat) (c : Cursor) (o : Operand) (c' : Cursor)
    (bound : c.rest.length ≤ depth)
    (read : ((readingWith size (expression size depth) name).operand index .variadic).Reads c o c')
    (here : c.rest.take 2 = Placement.terminator) : o.isTerminator = true := by
  let p : Placement := ⟨{}, ⟨"", 0⟩, none⟩
  obtain ⟨admitted, bs, stored, advance⟩ := (reads_variadic (p := p) bound).1 read
  have start : Placement.terminator = [33, 255] := rfl
  rw [start, advance.rest] at here
  rcases Placement.storesExpr_cases admitted.isRead (Slot.isAtom_of_accepts rfl admitted.accepts) stored with
    ⟨value, w, rfl, inRange, rfl⟩ | ⟨_, _, _, -, -, rfl⟩ | ⟨op, member, proper, _, -, _, rfl⟩
  · cases w with
    | byte =>
      obtain ⟨b, single⟩ := List.length_eq_one_iff.1 (Bytes.length_pack value 1)
      have readBack : Bytes.signed (Bytes.pack value 1) = value := Bytes.signed_pack inRange
      simp only [Width.constant, Width.bytes, single, List.cons_append, List.nil_append,
        List.take_succ_cons, List.take_zero, List.cons.injEq, and_true] at here
      rw [single, here.2] at readBack
      rw [← readBack]
      rfl
    | word => simp [Width.constant, Width.tag] at here
    | long => simp [Width.constant, Width.tag] at here
  · simp [Operator.addressCode] at here
  · have untagged := ((Operator.isProper_iff member).1 proper).1
    simp only [List.cons_append, List.take_succ_cons, List.cons.injEq] at here
    rw [here.1] at untagged
    cases untagged

variable {command : Command} {os : List Operand}

theorem reads_fixed (member : command ∈ Command.all) (kind : command.layout ≠ .assignment)
    {rest : Shape} (enough : c.rest.length ≤ depth) :
    (walkShapes (readingWith size (expression size depth) name) command.name command.shapes).Reads c
      (os, rest) c' ↔ ∃ slots, slots ++ rest ∈ command.shapes ∧ rest.IsTail ∧ .variadic ∉ slots ∧
        List.Forall₂ (Slot.Admits size) slots os ∧
          ∃ bs, StoresAll p.StoresAt 0 slots os bs ∧ c.Advances bs c' := by
  simp only [reads_walkShapes (Command.regular member kind), readsSlots_stored (p := p) enough]

theorem reads_fixed_then (member : command ∈ Command.all) (kind : command.layout ≠ .assignment)
    {more : List Operand × Shape → Decoder (List Operand)} (enough : c.rest.length ≤ depth) :
    (do let read ← walkShapes (readingWith size (expression size depth) command.name)
          command.name command.shapes
        if read.2.isEmpty then return read.1
        more read : Decoder (List Operand)).Reads c os c' ↔
      ∃ (slots rest : Shape) (first : List Operand) (b₁ : Bytes) (c₁ : Cursor),
        slots ++ rest ∈ command.shapes ∧ rest.IsTail ∧ .variadic ∉ slots ∧
        List.Forall₂ (Slot.Admits size) slots first ∧ StoresAll p.StoresAt 0 slots first b₁ ∧
          c.Advances b₁ c₁ ∧ if rest = [] then first = os ∧ c₁ = c' else (more (first, rest)).Reads c₁ os c' := by
  simp only [reads_bind, Prod.exists, reads_fixed (p := p) member kind enough]
  constructor
  · rintro ⟨first, rest, c₁, ⟨slots, form, tail, fixed, admits, b₁, stored, advance⟩, h⟩
    refine ⟨slots, rest, first, b₁, c₁, form, tail, fixed, admits, stored, advance, ?_⟩
    rcases tail with rfl | rfl
    · exact reads_pure.1 h
    · exact h
  · rintro ⟨slots, rest, first, b₁, c₁, form, tail, fixed, admits, stored, advance, h⟩
    refine ⟨first, rest, c₁, ⟨slots, form, tail, fixed, admits, b₁, stored, advance⟩, ?_⟩
    rcases tail with rfl | rfl
    · exact reads_pure.2 h
    · exact h

theorem reads_tailed (member : command ∈ Command.all) (kind : command.layout ≠ .assignment)
    (unsized : command.layout ≠ .sized) {more : List Operand × Shape → Decoder (List Operand)}
    (reads : ∀ first c₁, c₁.rest.length ≤ c.rest.length →
      ((more (first, [.variadic])).Reads c₁ os c' ↔ ∃ others b₂ b, os = first ++ others ∧
        (command.layout = .counted → others.length < 2 ^ 31) ∧
        List.Forall₂ (Slot.Admits size) (tailSlots others) others ∧
        StoresAll p.StoresAt first.length (tailSlots others) others b₂ ∧
        command.layout.Closes others b₂ b ∧ c₁.Advances b c')) :
    (do let read ← walkShapes (readingWith size (expression size c.rest.length) command.name)
          command.name command.shapes
        if read.2.isEmpty then return read.1
        more read : Decoder (List Operand)).Reads c os c' ↔
      ∃ bs, command.Arranged size p os bs ∧ c.Advances bs c' := by
  have unframed {body bs : Bytes} : command.layout.Frames body bs ↔ bs = body := by
    cases layout : command.layout <;> first | exact Iff.rfl | exact absurd layout unsized
  rw [reads_fixed_then (p := p) member kind le_rfl]
  simp only [Command.Arranged, Command.Arranges, unframed]
  constructor
  · rintro ⟨slots, rest, first, b₁, c₁, form, isTail, fixed, admits, stored, advance, h⟩
    rcases isTail with rfl | rfl
    · obtain ⟨rfl, rfl⟩ := h
      exact ⟨b₁, ⟨slots, [], first, [], ⟨by simp, form, .inl rfl, fixed, fun _ => rfl, admits, .nil,
        by simp⟩, b₁, [], [], stored, rfl, rfl, by simp⟩, advance⟩
    · obtain ⟨others, b₂, b, split, count, admitsTail, storedTail, closes, advance₂⟩ :=
        (reads first c₁ advance.length_le).1 h
      rw [← admits.length_eq] at storedTail
      exact ⟨b₁ ++ b, ⟨slots, [.variadic], first, others, ⟨split, form, .inr rfl, fixed, by simp, admits,
        admitsTail, count⟩, b₁, b₂, b, stored, storedTail, closes, rfl⟩, advance.trans advance₂⟩
  · rintro ⟨_, ⟨slots, rest, first, others, splits, b₁, b₂, b, stored, storedTail, closes, rfl⟩, advance⟩
    obtain ⟨c₁, advance₁, advance₂⟩ := Cursor.advances_append.1 advance
    refine ⟨slots, rest, first, b₁, c₁, splits.form, splits.tail, splits.fixed, splits.admits, stored,
      advance₁, ?_⟩
    rcases splits.tail with rfl | rfl
    · obtain rfl : b = [] := closes
      exact ⟨by rw [splits.split, splits.closed rfl, List.append_nil], Cursor.advances_nil.1 advance₂⟩
    · rw [splits.admits.length_eq] at storedTail
      exact (reads first c₁ advance₁.length_le).2 ⟨others, b₂, b, splits.split, splits.count,
        splits.admitsTail, storedTail, closes, advance₂⟩

theorem reads_counted {first : List Operand} {reading : Reading} :
    (do let start ← offset
        let (width, bytes) ← constant
        if bytes.signed < 0 || width != .ofLiteral bytes.signed then
          fail (.argumentCount bytes.signed) start
        return first ++ (← countedTail (fun i => reading.operand i .variadic) bytes.signed.toNat
          first.length) : Decoder (List Operand)).Reads c os c' ↔
      ∃ others c₁, os = first ++ others ∧ others.length < 2 ^ 31 ∧
        c.Advances ((Width.ofLiteral others.length).constant others.length) c₁ ∧
          reading.ReadsSlots first.length (tailSlots others) c₁ others c' := by
  simp only [reads_bind, reads_offset, Prod.exists, reads_constant]
  constructor
  · rintro ⟨_, _, ⟨rfl, rfl⟩, w, bytes, c₁, ⟨full, advance⟩, h⟩
    by_cases bad : (decide (bytes.signed < 0) || w != .ofLiteral bytes.signed) = true
    · simp only [bad, if_true, reads_bind, reads_fail, false_and, exists_false] at h
    · rw [if_neg bad, reads_bind] at h
      obtain ⟨others, c₂, read, same⟩ := h
      obtain ⟨rfl, rfl⟩ := reads_pure.1 same
      obtain ⟨length, read⟩ := reads_countedTail.1 read
      simp only [Bool.or_eq_true, decide_eq_true_eq, not_or, Int.not_lt, bne_iff_ne, ne_eq,
        Decidable.not_not] at bad
      obtain ⟨nonneg, narrowest⟩ := bad
      have count : (others.length : Int) = bytes.signed := by omega
      have inRange := Width.inRange_mono (full ▸ Bytes.signed_inRange bytes)
      simp only [Bytes.InRange, Width.bytes, Int.reducePow] at inRange
      refine ⟨others, c₁, rfl, by omega, ?_, read⟩
      rwa [count, ← narrowest, Width.constant, ← full, Bytes.pack_signed]
  · rintro ⟨others, c₁, rfl, bound, advance, read⟩
    have inRange : Bytes.InRange others.length (Width.ofLiteral others.length).bytes := by
      apply Width.inRange_ofLiteral
      simp only [Bytes.InRange, Width.bytes, Int.reducePow]
      omega
    refine ⟨_, _, ⟨rfl, rfl⟩, Width.ofLiteral others.length, _, c₁, ⟨Bytes.length_pack .., advance⟩, ?_⟩
    rw [Bytes.signed_pack inRange, if_neg (by simp)]
    exact reads_bind.2 ⟨others, c', reads_countedTail.2 ⟨by simp, read⟩, reads_pure.2 ⟨rfl, rfl⟩⟩

theorem reads_start {α : Type} {more : Cursor → Nat → Decoder α} {a : α} :
    (do let cursor ← get
        let start ← offset
        more cursor start : Decoder α).Reads c a c' ↔ (more c c.offset).Reads c a c' := by
  simp only [reads_bind, reads_get, reads_offset]
  constructor
  · rintro ⟨_, _, ⟨rfl, rfl⟩, _, _, ⟨rfl, rfl⟩, h⟩
    exact h
  · intro h
    exact ⟨_, _, ⟨rfl, rfl⟩, _, _, ⟨rfl, rfl⟩, h⟩

theorem reads_operands_plain (member : command ∈ Command.all) (kind : command.layout = .plain) :
    (operands size command).Reads c os c' ↔
      ∃ bs, command.Arranged size p os bs ∧ c.Advances bs c' := by
  have closed {slots rest : Shape} (form : slots ++ rest ∈ command.shapes) (tail : rest.IsTail) :
      rest = [] := by
    have table : ∀ c ∈ Command.all, c.layout = .plain → ∀ shape ∈ c.shapes, .variadic ∉ shape := by
      decide +kernel
    rcases tail with rfl | rfl
    · rfl
    · exact absurd (by simp) (table command member kind _ form)
  unfold operands
  simp only [kind]
  rw [reads_start, reads_bind]
  simp only [reads_pure, Prod.exists, reads_fixed (p := p) member (kind ▸ by decide) le_rfl,
    Command.Arranged, Command.Arranges, kind, OperandLayout.Frames]
  constructor
  · rintro ⟨first, rest, _, ⟨slots, form, tail, fixed, admits, bs, stored, advance⟩, rfl, rfl⟩
    obtain rfl := closed form tail
    exact ⟨bs, ⟨slots, [], first, [], ⟨by simp, form, tail, fixed, fun _ => rfl, admits, .nil,
      by simp⟩, bs, [], [], stored, rfl, rfl, by simp⟩, advance⟩
  · rintro ⟨_, ⟨slots, rest, first, others, splits, b₁, b₂, b, stored, -, closes, rfl⟩, advance⟩
    obtain rfl := closed splits.form splits.tail
    obtain rfl : b = [] := closes
    rw [List.append_nil] at advance
    exact ⟨first, [], c', ⟨slots, splits.form, splits.tail, splits.fixed, splits.admits, b₁, stored,
      advance⟩, by rw [splits.split, splits.closed rfl, List.append_nil], rfl⟩

theorem reads_operands_counted (member : command ∈ Command.all) (kind : command.layout = .counted) :
    (operands size command).Reads c os c' ↔
      ∃ bs, command.Arranged size p os bs ∧ c.Advances bs c' := by
  unfold operands
  simp only [kind]
  rw [reads_start]
  refine reads_tailed member (by simp [kind]) (by simp [kind]) fun first c₁ bound => ?_
  refine reads_counted.trans ?_
  simp only [kind, OperandLayout.Closes, true_implies]
  constructor
  · rintro ⟨others, c₂, split, count, advance, read⟩
    obtain ⟨admits, b₂, stored, advance₂⟩ :=
      (readsSlots_stored (p := p) (advance.length_le.trans bound)).1 read
    exact ⟨others, b₂, _, split, count, admits, stored, rfl, advance.trans advance₂⟩
  · rintro ⟨others, b₂, _, split, count, admits, stored, rfl, advance⟩
    obtain ⟨c₂, advance₂, advance₃⟩ := Cursor.advances_append.1 advance
    exact ⟨others, c₂, split, count, advance₂,
      (readsSlots_stored (advance₂.length_le.trans bound)).2 ⟨admits, b₂, stored, advance₃⟩⟩

theorem reads_operands_terminated (member : command ∈ Command.all)
    (kind : command.layout = .terminated) :
    (operands size command).Reads c os c' ↔
      ∃ bs, command.Arranged size p os bs ∧ c.Advances bs c' := by
  unfold operands
  simp only [kind]
  rw [reads_start]
  refine reads_tailed member (by simp [kind]) (by simp [kind]) fun first c₁ bound => ?_
  simp only [reads_bind, reads_pure, kind, OperandLayout.Closes, reads_terminatedTail bound
    (Nat.lt_succ_of_le bound) shrinks_variadic isTerminator_of_reads]
  constructor
  · rintro ⟨others, _, ⟨allowed, c₂, read, closes⟩, rfl, rfl⟩
    obtain ⟨admits, b₂, stored, advance⟩ := (readsSlots_stored (p := p) bound).1 read
    exact ⟨others, b₂, _, rfl, by simp, admits, stored, ⟨allowed, rfl⟩, advance.trans closes⟩
  · rintro ⟨others, b₂, _, split, -, admits, stored, ⟨allowed, rfl⟩, advance⟩
    obtain ⟨c₂, advance₂, closes⟩ := Cursor.advances_append.1 advance
    exact ⟨others, c', ⟨allowed, c₂, (readsSlots_stored bound).2 ⟨admits, b₂, stored, advance₂⟩, closes⟩,
      split.symm, rfl⟩

theorem reads_sized {first : List Operand} {reading : Reading} {start stored : Nat}
    (bound : c.rest.length ≤ depth) (after : start ≤ c.offset) (shrinks : Shrinks reading depth) :
    (do if Piece.maxArgumentSize < stored then fail (.argumentsTooLarge stored) start
        let others ← sizedTail (fun i => reading.operand i .variadic) (start + stored) stored first.length
        let stop ← offset
        if stop != start + stored then fail (.argumentSize stored (stop - start)) start
        return first ++ others : Decoder (List Operand)).Reads c os c' ↔
      stored ≤ Piece.maxArgumentSize ∧ ∃ others, os = first ++ others ∧
        reading.ReadsSlots first.length (tailSlots others) c others c' ∧ c'.offset = start + stored := by
  have tail {others : List Operand} {c' : Cursor} :
      ((sizedTail (fun i => reading.operand i .variadic) (start + stored) stored first.length).Reads c
        others c' ∧ c'.offset = start + stored) ↔
          reading.ReadsSlots first.length (tailSlots others) c others c' ∧ c'.offset = start + stored :=
    reads_sizedTail bound (by omega) shrinks
  constructor
  · intro h
    by_cases large : Piece.maxArgumentSize < stored
    · simp only [large, if_true, reads_bind, reads_fail, false_and, exists_false] at h
    · rw [if_neg large] at h
      obtain ⟨others, c₁, read, h⟩ := reads_bind.1 h
      obtain ⟨_, _, here, h⟩ := reads_bind.1 h
      obtain ⟨rfl, rfl⟩ := reads_offset.1 here
      by_cases there : c₁.offset = start + stored
      · rw [if_neg (by simpa using there)] at h
        obtain ⟨rfl, rfl⟩ := reads_pure.1 h
        exact ⟨Nat.le_of_not_lt large, others, rfl, (tail.1 ⟨read, there⟩).1, there⟩
      · rw [if_pos (by simpa using there)] at h
        simp only [reads_bind, reads_fail, false_and, exists_false] at h
  · rintro ⟨small, others, rfl, read, there⟩
    rw [if_neg (Nat.not_lt.2 small)]
    refine reads_bind.2 ⟨others, c', (tail.2 ⟨read, there⟩).1, reads_bind.2 ⟨_, _, reads_offset.2 ⟨rfl, rfl⟩, ?_⟩⟩
    rw [if_neg (by simpa using there)]
    exact reads_pure.2 ⟨rfl, rfl⟩

theorem reads_operands_sized (member : command ∈ Command.all) (kind : command.layout = .sized) :
    (operands size command).Reads c os c' ↔
      ∃ bs, command.Arranged size p os bs ∧ c.Advances bs c' := by
  have tailed {slots rest : Shape} (form : slots ++ rest ∈ command.shapes) (tail : rest.IsTail)
      (fixed : .variadic ∉ slots) : rest = [.variadic] := by
    have table : ∀ c ∈ Command.all, c.layout = .sized → ∀ shape ∈ c.shapes, .variadic ∈ shape := by
      decide +kernel
    rcases tail with rfl | rfl
    · exact absurd (table command member kind _ form) (by simpa using fixed)
    · rfl
  unfold operands
  simp only [kind]
  rw [reads_start, reads_bind]
  constructor
  · rintro ⟨word, c₁, taken, h⟩
    obtain ⟨two, advance⟩ := reads_take.1 taken
    obtain ⟨slots, rest, first, b₁, c₂, form, tail, fixed, admits, stored, advance₂, h⟩ :=
      (reads_fixed_then (p := p) member (by simp [kind]) advance.length_le).1 h
    obtain rfl := tailed form tail fixed
    have bound := advance₂.length_le.trans advance.length_le
    have here := advance.offset
    have here₂ := advance₂.offset
    obtain ⟨small, others, split, read, there⟩ := (reads_sized bound (by omega) shrinks_variadic).1 h
    obtain ⟨admitsTail, b₂, storedTail, advance₃⟩ := (readsSlots_stored (p := p) bound).1 read
    have here₃ := advance₃.offset
    have measured : word.unsigned = (b₁ ++ b₂).length + 2 := by
      rw [List.length_append]
      omega
    rw [← admits.length_eq] at storedTail
    refine ⟨word ++ (b₁ ++ b₂), ⟨slots, [.variadic], first, others, ⟨split, form, tail, fixed, by simp,
      admits, admitsTail, by simp [kind]⟩, b₁, b₂, b₂, stored, storedTail, ?_, ?_⟩,
      advance.trans (advance₂.trans advance₃)⟩
    · simp [kind, OperandLayout.Closes]
    · rw [kind, OperandLayout.Frames, ← measured, ← two, Bytes.pack_unsigned]
      exact ⟨rfl, small⟩
  · rintro ⟨_, ⟨slots, rest, first, others, splits, b₁, b₂, b, stored, storedTail, closes, frames⟩, advance⟩
    obtain rfl := tailed splits.form splits.tail splits.fixed
    simp only [kind, OperandLayout.Closes, List.cons_ne_nil, if_false] at closes
    subst closes
    rw [kind] at frames
    obtain ⟨rfl, small⟩ := frames
    obtain ⟨c₁, advance₁, after⟩ := Cursor.advances_append.1 advance
    obtain ⟨c₂, advance₂, advance₃⟩ := Cursor.advances_append.1 after
    have bound := advance₂.length_le.trans advance₁.length_le
    have here := advance₁.offset
    have here₂ := advance₂.offset
    have here₃ := advance₃.offset
    rw [Bytes.length_pack] at here
    have measured : (Bytes.pack ((b₁ ++ b).length + 2 : Nat) 2).unsigned = (b₁ ++ b).length + 2 :=
      Bytes.unsigned_pack_of_lt (small.trans_lt (by decide))
    refine ⟨_, c₁, reads_take.2 ⟨Bytes.length_pack .., advance₁⟩, ?_⟩
    refine (reads_fixed_then (p := p) member (by simp [kind]) advance₁.length_le).2 ⟨slots, [.variadic],
      first, b₁, c₂, splits.form, splits.tail, splits.fixed, splits.admits, stored, advance₂, ?_⟩
    rw [splits.admits.length_eq] at storedTail
    rw [if_neg (by simp), measured]
    refine (reads_sized bound (by omega) shrinks_variadic).2 ⟨small, others, splits.split,
      (readsSlots_stored bound).2 ⟨splits.admitsTail, b, storedTail, advance₃⟩, ?_⟩
    rw [List.length_append]
    omega

end Operands

end Decoder

end EventScript
