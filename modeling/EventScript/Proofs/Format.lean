import EventScript.Proofs.Stream

namespace EventScript

/-- Stored code, and the label operands whose tagged addresses stand in it. -/
structure Chunk where
  bytes : Bytes
  fixups : List Fixup

namespace Chunk

instance : Append Chunk := ⟨fun a b => ⟨a.bytes ++ b.bytes, a.fixups ++ b.fixups⟩⟩

def size (c : Chunk) : Nat := c.bytes.length

def plain (bs : Bytes) : Option Chunk := some ⟨bs, []⟩

def join : List (Option Chunk) → Option Chunk
  | [] => plain []
  | first :: rest => do return (← first) ++ (← join rest)

theorem join_plain {bss : List Bytes} {chunks : List (Option Chunk)}
    (each : List.Forall₂ (fun bs chunk => chunk = plain bs) bss chunks) : join chunks = plain bss.flatten := by
  induction each with
  | nil => rfl
  | cons head _ ih =>
    rw [join, head, ih]
    rfl

theorem join_plain_cons (bs : Bytes) (c : Chunk) : join [plain bs, some c] = some ⟨bs ++ c.bytes, c.fixups⟩ := by
  have whole : join [plain bs, some c] = some ⟨bs ++ (c.bytes ++ []), [] ++ (c.fixups ++ [])⟩ := rfl
  simpa using whole

end Chunk

def Width.unsigned? (w : Width) (value : Int) : Option Bytes :=
  if 0 ≤ value ∧ value < 2 ^ w.bits then some (Bytes.pack value w.bytes) else none

theorem Width.unsigned?_of_lt {w : Width} {value : Nat} (fits : value < 2 ^ w.bits) :
    w.unsigned? value = some (Bytes.pack value w.bytes) :=
  if_pos ⟨Int.natCast_nonneg _, by exact_mod_cast fits⟩

theorem Width.unsigned?_word {value : Nat} (small : value ≤ Piece.maxArgumentSize) :
    word.unsigned? value = some (Bytes.pack value 2) :=
  unsigned?_of_lt (Nat.lt_of_le_of_lt small (by decide))

instance (f : Field) (value : Int) : Decidable (f.Holds value) :=
  inferInstanceAs (Decidable (if f.signed then _ else _))

/-- What an operand is encoded with: the addresses of labels, and which operand of which item it is. -/
structure Encoder where
  address : String → Option Nat
  item : Nat
  operand : Nat := 0

namespace Encoder

def constant (value : Int) (width : Option Width) : Option Chunk :=
  if Bytes.fits value (width.getD .long).bytes then
    Chunk.plain ((width.getD (.ofLiteral value)).constant value)
  else none

/-- A tagged address. Without a width it takes the narrowest one that holds it as an unsigned
integer. -/
def reference (e : Encoder) : Operand → Option Chunk
  | .label name width _ _ => do
    let address ← e.address name
    let stored := width.getD (.ofAddress address)
    let bytes ← stored.unsigned? address
    return ⟨stored.tag :: bytes, [⟨e.item, e.operand, name, stored⟩]⟩
  | .offset value width _ _ => do
    let stored := width.getD (.ofAddress value)
    let bytes ← stored.unsigned? value
    return ⟨stored.tag :: bytes, []⟩
  | _ => none

def inSlot (e : Encoder) (slot : Slot) (o : Operand) (value : Option Chunk) : Option Chunk :=
  match slot, o with
  | .pointer, _ | .elsePointer, _ => e.reference o
  | .text, .text bytes _ => Chunk.plain (bytes ++ [0])
  | .atom a, _ => Chunk.plain (Width.long.constant a.code)
  | _, _ => value

mutual

def expression (e : Encoder) : Operand → Option Chunk
  | .int value width _ => constant value width
  | .label name width isElse span =>
    Chunk.join [Chunk.plain [Operator.addressCode], e.reference (.label name width isElse span)]
  | .offset value width isElse span =>
    Chunk.join [Chunk.plain [Operator.addressCode], e.reference (.offset value width isElse span)]
  | .expr op args _ =>
    match Operator.ofName? op with
    | none => none
    | some operator =>
      match operator.role, args with
      | .constant width, [.int value _ _] => constant value (some width)
      | _, _ =>
        match operator.shapeOf args with
        | .error _ => none
        | .ok shape =>
          let parts := arguments e shape args
          Chunk.join (Chunk.plain [operator.code] ::
            if operator.isReversed then parts.reverse else parts)
  | .atom name _ => (Atom.ofName? name).bind fun a => Chunk.plain (Width.long.constant a.code)
  | _ => none

def arguments (e : Encoder) : Shape → List Operand → List (Option Chunk)
  | slot :: slots, o :: os => e.inSlot slot o (expression e o) :: arguments e slots os
  | _, _ => []

end

def operandAt (e : Encoder) (shape : Shape) (index : Nat) (o : Operand) : Option Chunk :=
  let here := { e with operand := index }
  (shape.slotAt index).bind fun slot => here.inSlot slot o (here.expression o)

/-- The operands of a command, laid out as it asks. -/
def operands (e : Encoder) (c : Command) (os : List Operand) : Option Chunk := do
  let shape ← (c.shapeOf os).toOption
  let parts := os.mapIdx (e.operandAt shape)
  match c.layout with
  | .assignment => Chunk.join parts.reverse
  | .sized =>
    let body ← Chunk.join parts
    let size ← Width.word.unsigned? (2 + body.size : Nat)
    return ⟨size ++ body.bytes, body.fixups⟩
  | .counted =>
    if shape.isVariadic then
      let tail := parts.drop shape.minOperands
      let count := Chunk.plain ((Width.ofLiteral tail.length).constant tail.length)
      Chunk.join (parts.take shape.minOperands ++ count :: tail)
    else Chunk.join parts
  | .terminated => Chunk.join (parts ++ [Chunk.plain (Width.byte.constant (-1))])
  | _ => Chunk.join parts

def messageArgument : Slot → Operand → Option Chunk
  | .format, .text bytes _ => Chunk.plain (bytes ++ [MessageOp.formatCode])
  | .literal _, .int value _ _ => Chunk.plain (Bytes.pack value 1)
  | .field f, .int value _ _ =>
    if f.Holds value then Chunk.plain (f.order (Bytes.pack value f.width.bytes)) else none
  | _, _ => none

def messageCommand (command : MessageCommand) : Option Chunk :=
  if command.op = MessageOp.textName then
    match command.args with
    | .text bytes _ :: _ => Chunk.plain bytes
    | _ => none
  else do
    let m ← MessageOp.ofName? command.op
    let shape ← (Shape.choose Slot.acceptsField command.op m.shapes command.args).toOption
    Chunk.join (Chunk.plain [m.code] :: List.zipWith messageArgument shape command.args)

/-- A message whose end word stands at `start`: the address after the byte that ends it, and its
body. -/
def message (start : Nat) : List Operand → Option Chunk
  | .message commands _ :: _ => do
    let body ← Chunk.join (commands.map messageCommand ++ [Chunk.plain [MessageOp.endByte]])
    let stop ← Width.long.unsigned? (start + 4 + body.size : Nat)
    return ⟨stop ++ body.bytes, body.fixups⟩
  | _ => none

/-- An instruction at `start`. -/
def instruction (e : Encoder) (start : Nat) (i : Instruction) : Option Chunk := do
  let c ← Command.ofName? i.opcode
  Chunk.join [Chunk.plain [c.code],
    if c.layout = .message then message (start + 1) i.operands else e.operands c i.operands]

def datum (e : Encoder) (width : Width) : Operand → Option Chunk
  | .text bytes _ => Chunk.plain (bytes ++ [0])
  | .int value _ _ =>
    if Bytes.fits value width.bytes then Chunk.plain (Bytes.pack value width.bytes) else none
  | .label name _ _ _ => do Chunk.plain (← Width.long.unsigned? (← e.address name))
  | .offset value _ _ _ => Chunk.plain (Bytes.pack value 4)
  | _ => none

def encode (e : Encoder) (start : Nat) : Item → Option Chunk
  | .instruction i => e.instruction start i
  | .data d => Chunk.join (d.values.map (e.datum d.width))

def encodeAll (address : String → Option Nat) : Nat → Nat → List Item → Option (List Chunk)
  | _, _, [] => some []
  | index, start, item :: items => do
    let chunk ← encode { address, item := index } start item
    return chunk :: (← encodeAll address (index + 1) (start + chunk.size) items)

end Encoder

/-- The piece with the width that its address asks for, unless one is forced. -/
def Piece.settled (addresses : List Nat) : Piece → Piece
  | pointer q =>
    pointer (if q.forced then q else { q with width := .ofAddress (Code.target addresses q) })
  | piece => piece

theorem Piece.settled_fresh {addresses : List Nat} {name : String} {block : Nat} {width : Option Width}
    {site : Site} {span : Option Span} :
    settled addresses (.pointer ⟨name, block, width.getD .byte, width.isSome, site, span⟩) = .pointer
      ⟨name, block, width.getD (.ofAddress (addresses.getD block 0)), width.isSome, site, span⟩ := by
  cases width <;> rfl

theorem Piece.emit_sizeWord {addresses : List Nat} {address stop : Nat} {site : Site} {span : Option Span}
    {bs : Bytes} : (sizeWord site span).emit addresses address stop = .ok bs ↔
      stop - address ≤ maxArgumentSize ∧ bs = Bytes.pack (stop - address : Nat) 2 := by
  simp only [emit]
  split
  · rename_i small
    simp [small, eq_comm]
  · rename_i large
    simp [large]

theorem Piece.unsigned?_of_word {value : Nat} {bs : Bytes} (emitted : word value = .ok bs) :
    Width.long.unsigned? value = some bs := by
  unfold word at emitted
  split at emitted <;> cases emitted
  rename_i fits
  exact Width.unsigned?_of_lt fits

namespace ItemCode

variable {addresses : List Nat} {stop address item : Nat} {a b : ItemCode} {bs : Bytes}

def settled (addresses : List Nat) (code : ItemCode) : ItemCode := code.map (Piece.settled addresses)

/-- The pointers of an item as the layout lists them. -/
def fixups (item : Nat) (code : ItemCode) : List Fixup :=
  code.pointers.map fun q => ⟨item, q.site.operand, q.label, q.width⟩

theorem fixups_append (item : Nat) (a b : ItemCode) :
    fixups item (a ++ b) = fixups item a ++ fixups item b := by
  simp [fixups, pointers]

theorem emit_append : emit addresses stop address (a ++ b) = .ok bs ↔ ∃ x y, bs = x ++ y ∧
    emit addresses stop address a = .ok x ∧ emit addresses stop (address + a.size) b = .ok y := by
  induction a generalizing address bs with
  | nil => simp [emit, size]
  | cons piece a ih =>
    simp only [List.cons_append, emit_cons, ih]
    constructor
    · rintro ⟨first, _, rfl, here, x, y, rfl, middle, rest⟩
      refine ⟨first ++ x, y, by simp, ⟨first, x, rfl, here, middle⟩, ?_⟩
      simpa [size, Nat.add_assoc] using rest
    · rintro ⟨_, y, rfl, ⟨first, x, rfl, here, middle⟩, rest⟩
      refine ⟨first, x ++ y, by simp, here, x, y, rfl, middle, ?_⟩
      simpa [size, Nat.add_assoc] using rest

def Yields (addresses : List Nat) (item : Nat) (code : ItemCode) (chunk : Option Chunk) : Prop :=
  ∀ stop address bs, (code.settled addresses).emit addresses stop address = .ok bs →
    chunk = some ⟨bs, (code.settled addresses).fixups item⟩

theorem yields_bytes (bs : Bytes) : Yields addresses item [.bytes bs] (Chunk.plain bs) := by
  intro stop address bs' emitted
  obtain ⟨_, _, rfl, ⟨⟩, ⟨⟩⟩ := emit_cons.1 emitted
  rw [List.append_nil]
  rfl

theorem yields_flatten {parts : List ItemCode} {chunks : List (Option Chunk)}
    (each : List.Forall₂ (Yields addresses item) parts chunks) :
    Yields addresses item parts.flatten (Chunk.join chunks) := by
  induction each with
  | nil =>
    intro stop address bs emitted
    cases emitted
    rfl
  | cons head _ ih =>
    intro stop address bs emitted
    rw [List.flatten_cons, settled, List.map_append] at emitted ⊢
    obtain ⟨x, y, rfl, first, rest⟩ := emit_append.1 emitted
    rw [Chunk.join, head _ _ _ first, ih _ _ _ rest, fixups_append]
    rfl

theorem yields_cons {code : ItemCode} {chunk : Option Chunk} (bs : Bytes)
    (yields : Yields addresses item code chunk) :
    Yields addresses item (.bytes bs :: code) (Chunk.join [Chunk.plain bs, chunk]) := by
  have both := yields_flatten (.cons (yields_bytes bs) (.cons yields .nil))
  simpa using both

theorem yields_insert {parts tail : List ItemCode} {chunks : List (Option Chunk)}
    (all : List.Forall₂ (Yields addresses item) (parts ++ tail) chunks) (bs : Bytes) :
    Yields addresses item (parts.flatten ++ .bytes bs :: tail.flatten)
      (Chunk.join (chunks.take parts.length ++ Chunk.plain bs :: chunks.drop parts.length)) := by
  have front := List.forall₂_take parts.length all
  have back := List.forall₂_drop parts.length all
  rw [List.take_left] at front
  rw [List.drop_left] at back
  have yields := yields_flatten (List.rel_append front (.cons (yields_bytes bs) back))
  rwa [List.flatten_append, List.flatten_cons] at yields

theorem emit_sized {site : Site} {span : Option Span} {code : ItemCode}
    (emitted : emit addresses (address + (settled addresses (.sizeWord site span :: code)).size) address
      (settled addresses (.sizeWord site span :: code)) = .ok bs) :
    ∃ stop start stored size, emit addresses stop start (code.settled addresses) = .ok stored ∧
      Width.word.unsigned? (2 + stored.length : Nat) = some size ∧ bs = size ++ stored := by
  obtain ⟨_, stored, rfl, here, there⟩ := emit_cons.1 emitted
  have measured : address + (settled addresses (.sizeWord site span :: code)).size - address =
      2 + stored.length := by
    rw [length_emit there, Nat.add_sub_cancel_left]
    rfl
  obtain ⟨small, rfl⟩ := Piece.emit_sizeWord.1 here
  rw [measured] at small ⊢
  exact ⟨_, _, stored, _, there, Width.unsigned?_word small, rfl⟩

end ItemCode

namespace Encoder

open ItemCode

def Knows (e : Encoder) (labels : LabelTable) (addresses : List Nat) : Prop :=
  ∀ name binding, labels.get? name = some binding → e.address name = addresses[binding.block]?

/-- The encoder stands where the placement does. -/
structure Follows (e : Encoder) (p : Placement) (addresses : List Nat) : Prop where
  knows : e.Knows p.labels addresses
  operand : e.operand = p.site.operand

variable {e : Encoder} {p : Placement} {addresses : List Nat} {o : Operand} {code : ItemCode}

theorem Follows.atOperand (follows : e.Follows p addresses) (index : Nat) :
    Follows { e with operand := index } (p.atOperand index) addresses :=
  ⟨follows.knows, rfl⟩

theorem yields_constant {value : Int} {width : Option Width} {span : Option Span} {item : Nat}
    (lowered : p.lowerInt value width span = .ok code) :
    code.Yields addresses item (constant value width) := by
  obtain ⟨fits, rfl⟩ := Placement.lowerInt_eq_ok.1 lowered
  rw [constant, if_pos fits]
  exact yields_bytes _

theorem yields_reference (follows : e.Follows p addresses) (lowered : p.lowerPointer o = .ok code) :
    code.Yields addresses e.item (e.reference o) := by
  cases o with
  | offset value width isElse span =>
    simp only [Placement.lowerPointer] at lowered
    split at lowered
    · rename_i fits
      cases lowered
      rw [reference, Width.unsigned?, if_pos fits]
      exact yields_bytes _
    · cases lowered
  | label name width isElse span =>
    simp only [Placement.lowerPointer] at lowered
    split at lowered
    · rename_i binding found
      cases lowered
      intro stop address bs emitted
      have known := follows.knows name binding found
      rw [settled, List.map_singleton, Piece.settled_fresh] at emitted ⊢
      obtain ⟨_, _, rfl, here, ⟨⟩⟩ := emit_cons.1 emitted
      obtain ⟨inside, fits, rfl⟩ := Piece.emit_pointer.1 here
      rw [getElem?_of_lt inside] at known
      simp only [Code.target] at fits
      simp only [reference, known, Option.bind_eq_bind, Option.bind_some, Width.unsigned?_of_lt fits]
      rw [List.append_nil, follows.operand]
      rfl
    · cases lowered
  | _ => cases lowered

theorem yields_inSlot (follows : e.Follows p addresses) {slot : Slot}
    (value : ∀ code, p.lowerExpr o = .ok code → code.Yields addresses e.item (e.expression o))
    (lowered : p.lowerSlot slot o (p.lowerExpr o) = .ok code) :
    code.Yields addresses e.item (e.inSlot slot o (e.expression o)) := by
  cases slot with
  | pointer | elsePointer => exact yields_reference follows lowered
  | atom a =>
    cases lowered
    exact yields_bytes _
  | text =>
    cases o with
    | text bytes span =>
      simp only [Placement.lowerSlot] at lowered
      split at lowered <;> cases lowered
      exact yields_bytes _
    | _ => exact value code lowered
  | _ => exact value code lowered

theorem yields_arguments (follows : e.Follows p addresses) {shape : Shape} {args : List Operand}
    (value : ∀ o ∈ args, ∀ code, p.lowerExpr o = .ok code → code.Yields addresses e.item (e.expression o))
    {parts : List ItemCode}
    (lowered : List.Forall₂ (fun x part => x = .ok part) (p.lowerArgs shape args) parts) :
    List.Forall₂ (Yields addresses e.item) parts (e.arguments shape args) := by
  induction args generalizing shape parts with
  | nil =>
    cases shape <;>
    · simp only [Placement.lowerArgs, List.forall₂_nil_left_iff] at lowered
      subst lowered
      simp [arguments]
  | cons o os ih =>
    cases shape with
    | nil =>
      simp only [Placement.lowerArgs, List.forall₂_nil_left_iff] at lowered
      subst lowered
      simp [arguments]
    | cons slot slots =>
      rw [Placement.lowerArgs] at lowered
      cases lowered with
      | cons first rest =>
        rw [arguments]
        exact .cons (yields_inSlot follows (value o List.mem_cons_self) first)
          (ih (fun o inside => value o (List.mem_cons_of_mem _ inside)) rest)

theorem expression_constant {op : String} {forced : Width} (constant : Operator.constantWidth? op = some forced)
    {value : Int} {width : Option Width} {argSpan span : Option Span} :
    e.expression (.expr op [.int value width argSpan] span) = Encoder.constant value (some forced) := by
  obtain ⟨operator, found, role⟩ := Option.bind_eq_some_iff.1 constant
  cases isConstant : operator.role <;> simp only [isConstant, reduceCtorEq, Option.some.injEq] at role
  subst role
  simp only [expression, found, isConstant]

theorem expression_operator {operator : Operator} {op : String} (found : Operator.ofName? op = some operator)
    {args : List Operand} (notConstant : ∀ value width argSpan, args = [.int value width argSpan] →
      Operator.constantWidth? op = none) {span : Option Span} :
    e.expression (.expr op args span) = match operator.shapeOf args with
      | .error _ => none
      | .ok shape => Chunk.join (Chunk.plain [operator.code] :: if operator.isReversed then
          (e.arguments shape args).reverse else e.arguments shape args) := by
  rw [expression, found]
  dsimp only
  split
  · rename_i role
    have none := notConstant _ _ _ rfl
    simp [Operator.constantWidth?, found, role] at none
  · rfl

theorem constant_or (op : String) (args : List Operand) :
    (∃ forced value width argSpan, Operator.constantWidth? op = some forced ∧ args = [.int value width argSpan]) ∨
      ∀ value width argSpan, args = [.int value width argSpan] → Operator.constantWidth? op = none := by
  by_cases constant : ∃ value width argSpan, args = [.int value width argSpan]
  · obtain ⟨value, width, argSpan, rfl⟩ := constant
    cases isConstant : Operator.constantWidth? op with
    | none => exact .inr fun _ _ _ _ => rfl
    | some forced => exact .inl ⟨forced, value, width, argSpan, rfl, rfl⟩
  · exact .inr fun value width argSpan isInt => absurd ⟨value, width, argSpan, isInt⟩ constant

theorem yields_expression (follows : e.Follows p addresses) (lowered : p.lowerExpr o = .ok code) :
    code.Yields addresses e.item (e.expression o) := by
  induction o using Operand.expr_induction generalizing code with
  | leaf o notExpr =>
    cases o with
    | int value width span =>
      rw [expression]
      exact yields_constant lowered
    | label | offset =>
      rw [Placement.lowerExpr] at lowered
      obtain ⟨address, pointer, rfl⟩ := map_eq_ok.1 lowered
      rw [expression]
      exact yields_cons _ (yields_reference follows pointer)
    | expr op args span => exact absurd rfl (notExpr op args span)
    | atom name span =>
      obtain ⟨a, found, rfl⟩ := Placement.lowerExpr_atom_eq_ok.1 lowered
      rw [expression, found]
      exact yields_bytes _
    | _ => cases lowered
  | expr op args span ih =>
    rcases constant_or op args with ⟨forced, value, width, argSpan, isConstant, rfl⟩ | notConstant
    · rw [p.lowerExpr_constant isConstant] at lowered
      rw [expression_constant isConstant]
      exact yields_constant lowered
    · rw [p.lowerExpr_operator span notConstant] at lowered
      cases found : Operator.ofName? op with
      | none => simp [found, Placement.fail] at lowered
      | some operator =>
        cases chosen : operator.shapeOf args with
        | error mismatch => simp [found, chosen, Placement.fail] at lowered
        | ok shape =>
          simp only [found, chosen] at lowered
          obtain ⟨parts, stored, rfl⟩ := map_eq_ok.1 lowered
          rw [expression_operator found notConstant, chosen]
          have inOrder := mapM_eq_ok.1 stored
          have yields : List.Forall₂ (Yields addresses e.item) parts
              (if operator.isReversed then (e.arguments shape args).reverse else e.arguments shape args) := by
            by_cases reversed : operator.isReversed = true
            · simp only [reversed, if_true] at inOrder ⊢
              have backwards := List.rel_reverse inOrder
              rw [List.reverse_reverse] at backwards
              have yields := List.rel_reverse (yields_arguments follows ih backwards)
              rwa [List.reverse_reverse] at yields
            · simp only [reversed, Bool.false_eq_true, if_false] at inOrder ⊢
              exact yields_arguments follows ih inOrder
          exact yields_flatten (.cons (yields_bytes [operator.code]) yields)

theorem yields_parts (follows : e.Follows p addresses) {shape slots : Shape} {os : List Operand} {index : Nat}
    (same : slots.length = os.length)
    (slotAt : ∀ k slot, slots[k]? = some slot → shape.slotAt (index + k) = some slot)
    {parts : List ItemCode} (lowered : p.lowerParts index slots os = .ok parts) :
    List.Forall₂ (Yields addresses e.item) parts (os.mapIdx fun k => e.operandAt shape (index + k)) := by
  induction slots generalizing index os parts with
  | nil =>
    obtain rfl := List.length_eq_zero_iff.1 same.symm
    cases lowered
    exact .nil
  | cons slot slots ih =>
    cases os with
    | nil => simp at same
    | cons o os =>
      obtain ⟨first, here, rest, others, rfl⟩ : ∃ first, p.lowerPart ((slot, o), index) = .ok first ∧
          ∃ rest, p.lowerParts (index + 1) slots os = .ok rest ∧ first :: rest = parts := by
        simpa only [Placement.lowerParts, List.zip_cons_cons, List.zipIdx_cons, List.mapM_cons, bind_eq_ok,
          pure_eq_ok] using lowered
      rw [List.mapIdx_cons]
      refine .cons ?_ ?_
      · rw [Nat.add_zero, operandAt, show shape.slotAt index = some slot from slotAt 0 slot rfl, Option.bind_some]
        exact yields_inSlot (follows.atOperand index)
          (fun _ => yields_expression (follows.atOperand index)) here
      · have slotAfter : ∀ k slot, slots[k]? = some slot → shape.slotAt (index + 1 + k) = some slot := by
          intro k slot isSlot
          rw [Nat.add_assoc, Nat.add_comm 1]
          exact slotAt (k + 1) slot isSlot
        simpa [Nat.add_assoc, Nat.add_comm 1] using ih (Nat.succ.inj same) slotAfter others

variable {c : Command} {os first others : List Operand} {slots rest : Shape} {parts tail : List ItemCode}

theorem yields_all (follows : e.Follows p addresses) (fills : c.Fills os slots rest first others)
    (lowered : p.lowerParts 0 slots first = .ok parts)
    (loweredTail : p.lowerParts slots.length (Placement.tailSlots others) others = .ok tail) :
    List.Forall₂ (Yields addresses e.item) (parts ++ tail) (os.mapIdx (e.operandAt (slots ++ rest))) := by
  have same := fills.accepts.length_eq
  have slotAt := Shape.slotAt_append fills.fixed fills.tail
  have fixedAt : ∀ k slot, slots[k]? = some slot → (slots ++ rest).slotAt (0 + k) = some slot := by
    intro k slot isSlot
    rw [slotAt, Nat.zero_add, if_pos (List.getElem?_eq_some_iff.1 isSlot).1, isSlot]
  have tailAt : ∀ k slot, (Placement.tailSlots others)[k]? = some slot →
      (slots ++ rest).slotAt (slots.length + k) = some slot := by
    intro k slot isSlot
    obtain ⟨o, inside, rfl⟩ := List.mem_map.1 (List.mem_of_getElem? isSlot)
    rcases fills.tail with noTail | rfl
    · simp [fills.closed noTail] at inside
    · rw [slotAt, if_neg (by omega)]
      rfl
  have fixed := yields_parts follows same fixedAt lowered
  have variadic := yields_parts follows (by simp [Placement.tailSlots]) tailAt loweredTail
  rw [fills.split, List.mapIdx_append]
  simp only [Nat.zero_add] at fixed
  simp only [same, Nat.add_comm first.length] at variadic
  exact List.rel_append fixed variadic

theorem rest_of_terminated (member : c ∈ Command.all) (kind : c.layout = .terminated)
    (fills : c.Fills os slots rest first others) : rest ≠ [] := by
  have table : ∀ c ∈ Command.all, c.layout = .terminated → ∀ shape ∈ c.shapes, shape.isVariadic = true := by
    decide +kernel
  have variadic := table c member kind _ fills.form
  rw [Shape.isVariadic_append fills.fixed fills.tail] at variadic
  rintro rfl
  cases variadic

theorem operands_eq (follows : e.Follows p addresses) (member : c ∈ Command.all) (noMessage : c.layout ≠ .message)
    (lowered : p.lowerCommand c os = .ok code) {address : Nat} {bs : Bytes}
    (emitted : (code.settled addresses).emit addresses (address + (code.settled addresses).size) address = .ok bs) :
    e.operands c os = some ⟨bs, (code.settled addresses).fixups e.item⟩ := by
  obtain ⟨shape, chosen⟩ := Command.exists_shapeOf noMessage lowered
  obtain ⟨slots, rest, first, others, rfl, fills⟩ := Command.exists_fills member chosen
  obtain ⟨-, -, parts, tail, loweredParts, loweredTail, rfl⟩ := (fills.lowers_iff member noMessage).1 lowered
  have all := yields_all follows fills loweredParts loweredTail
  have closed : rest = [] → tail = [] := by
    intro noTail
    rw [fills.closed noTail] at loweredTail
    cases loweredTail
    rfl
  have body : parts.flatten ++ (if rest = [] then [] else tail.flatten) = (parts ++ tail).flatten := by
    by_cases noTail : rest = []
    · simp [noTail, closed noTail]
    · simp [noTail]
  simp only [operands, chosen, Except.toOption, Option.bind_eq_bind, Option.bind_some]
  cases kind : c.layout with
  | message => exact absurd kind noMessage
  | plain =>
    simp only [Command.arrange, kind, Placement.closeTail, body] at emitted ⊢
    exact yields_flatten all _ _ _ emitted
  | assignment =>
    obtain rfl := closed (fills.assignment member kind).1
    rw [List.append_nil] at all
    simp only [Command.arrange, kind] at emitted ⊢
    exact yields_flatten (List.rel_reverse all) _ _ _ emitted
  | counted =>
    rw [Shape.isVariadic_append fills.fixed fills.tail, Shape.minOperands_append fills.fixed fills.tail]
    by_cases noTail : rest = []
    · simp only [Command.arrange, kind, noTail, if_true, List.isEmpty_nil, Bool.not_true, Bool.false_eq_true,
        if_false, closed noTail, List.append_nil] at emitted all ⊢
      exact yields_flatten all _ _ _ emitted
    · have isTail : (!rest.isEmpty) = true := by simpa using noTail
      simp only [Command.arrange, kind, Placement.closeTail, noTail, isTail, if_false, if_true] at emitted ⊢
      -- The count stands between the fixed operands and the tail.
      have length := Placement.lowerParts_length loweredParts fills.accepts.length_eq
      have split : parts.length = slots.length := length.trans fills.accepts.length_eq.symm
      have back := List.forall₂_drop slots.length all
      rw [List.drop_left' split] at back
      rw [← back.length_eq, ← split]
      exact yields_insert all _ _ _ _ emitted
  | terminated =>
    have hasTail := rest_of_terminated member kind fills
    simp only [Command.arrange, kind, Placement.closeTail, hasTail, if_false, ← List.append_assoc] at emitted ⊢
    have yields := yields_flatten (List.rel_append all (.cons (yields_bytes (Width.byte.constant (-1))) .nil))
    rw [List.flatten_append, List.flatten_append] at yields
    exact yields _ _ _ emitted
  | sized =>
    simp only [Command.arrange, kind, Placement.closeTail, body] at emitted ⊢
    obtain ⟨_, _, stored, size, there, isSize, rfl⟩ := emit_sized emitted
    rw [yields_flatten all _ _ _ there, Option.bind_some, Chunk.size, isSize]
    rfl

theorem messageArgument_eq {slot : Slot} (accepted : slot.acceptsField o = true) {bs : Bytes}
    (lowered : p.lowerMessageArg slot o = .ok bs) : messageArgument slot o = Chunk.plain bs := by
  cases slot <;> cases o <;> simp only [Slot.acceptsField, Bool.false_eq_true] at accepted
  case format.text =>
    cases lowered
    rfl
  case literal.int =>
    cases lowered
    rfl
  case field.int f value width span =>
    obtain ⟨holds, rfl⟩ := lowerField_eq_ok.1 lowered
    rw [messageArgument, if_pos holds]

theorem messageArguments_eq {shape : Shape} {args : List Operand}
    (accepted : List.Forall₂ (fun slot o => slot.acceptsField o = true) shape args) {fields : List Bytes}
    (lowered : (shape.zip args).mapM (fun x => p.lowerMessageArg x.1 x.2) = .ok fields) :
    List.Forall₂ (fun bs chunk => chunk = Chunk.plain bs) fields (List.zipWith messageArgument shape args) := by
  induction accepted generalizing fields with
  | nil =>
    cases lowered
    exact .nil
  | cons head _ ih =>
    rw [List.zip_cons_cons, List.mapM_cons] at lowered
    obtain ⟨first, here, lowered⟩ := bind_eq_ok.1 lowered
    obtain ⟨rest, others, done⟩ := bind_eq_ok.1 lowered
    cases done
    exact .cons (messageArgument_eq head here) (ih others)

theorem messageCommand_eq {command : MessageCommand} {bs : Bytes}
    (lowered : p.lowerMessageCommand command = .ok bs) : messageCommand command = Chunk.plain bs := by
  unfold Placement.lowerMessageCommand at lowered
  unfold messageCommand
  by_cases isText : command.op = MessageOp.textName
  · rw [if_pos (by simpa using isText)] at lowered
    rw [if_pos isText]
    split at lowered
    · rename_i isArgs
      split at lowered <;> cases lowered
      rw [isArgs]
    · cases lowered
    · cases lowered
  · rw [if_neg (by simpa using isText)] at lowered
    rw [if_neg isText]
    cases found : MessageOp.ofName? command.op with
    | none => simp [found, Placement.fail] at lowered
    | some m =>
      obtain ⟨member, -⟩ := MessageOp.ofName?_eq_some.1 found
      cases chosen : Shape.choose Slot.acceptsField command.op m.shapes command.args with
      | error mismatch => simp [found, chosen, Placement.fail] at lowered
      | ok shape =>
        simp only [found, chosen] at lowered
        obtain ⟨fields, stored, done⟩ := bind_eq_ok.1 lowered
        cases done
        obtain ⟨-, accepted⟩ := (MessageOp.choose_eq_ok member).1 chosen
        simp only [chosen, Except.toOption, Option.bind_eq_bind, Option.bind_some]
        exact Chunk.join_plain (.cons (rfl : Chunk.plain [m.code] = _) (messageArguments_eq accepted stored))

theorem message_eq {commands : List MessageCommand} {span : Option Span} {rest : List Operand}
    (lowered : p.lowerMessage commands span = .ok code) {address : Nat} {bs : Bytes}
    (emitted : (code.settled addresses).emit addresses (address + (code.settled addresses).size) address = .ok bs)
    (item : Nat) :
    message address (.message commands span :: rest) = some ⟨bs, (code.settled addresses).fixups item⟩ := by
  obtain ⟨_, ⟨parts, stored, rfl⟩, -, rfl⟩ := Placement.lowerMessage_eq_ok.1 lowered
  have body : Chunk.join (commands.map messageCommand ++ [Chunk.plain [MessageOp.endByte]]) =
      Chunk.plain (parts.flatten ++ [MessageOp.endByte]) := by
    have each : List.Forall₂ (fun bs chunk => chunk = Chunk.plain bs) parts (commands.map messageCommand) :=
      List.forall₂_map_right_iff.2 ((mapM_eq_ok.1 stored).flip.imp fun _ _ => messageCommand_eq)
    have whole := Chunk.join_plain (List.rel_append each (.cons (rfl : Chunk.plain [MessageOp.endByte] = _) .nil))
    rwa [List.flatten_append] at whole
  obtain ⟨word, _, rfl, here, there⟩ := emit_cons.1 emitted
  obtain ⟨_, _, rfl, ⟨⟩, ⟨⟩⟩ := emit_cons.1 there
  have stop : address + (settled addresses [.endWord, .bytes (parts.flatten ++ [MessageOp.endByte])]).size =
      address + 4 + (parts.flatten ++ [MessageOp.endByte]).length := by
    simp [settled, Piece.settled, size, Piece.size, Nat.add_assoc]
  rw [stop] at here
  rw [message, body, Chunk.plain, Option.bind_eq_bind, Option.bind_some, Chunk.size,
    Piece.unsigned?_of_word here, List.append_nil]
  rfl

theorem instruction_eq {labels : LabelTable} (knows : e.Knows labels addresses) (fresh : e.operand = 0)
    {i : Instruction} (lowered : i.lower labels = .ok code) {start : Nat} {bs : Bytes}
    (emitted : (code.settled addresses).emit addresses (start + (code.settled addresses).size) start = .ok bs) :
    e.instruction start i = some ⟨bs, (code.settled addresses).fixups e.item⟩ := by
  obtain ⟨c, member, name, body, loweredBody, rfl⟩ := Instruction.lower_eq_ok.1 lowered
  obtain ⟨_, bs, rfl, ⟨⟩, emittedBody⟩ := emit_cons.1 emitted
  have stop : start + (settled addresses (.bytes [c.code] :: body)).size =
      start + 1 + (settled addresses body).size := by
    simp [settled, Piece.settled, size, Piece.size, Nat.add_assoc]
  rw [stop] at emittedBody
  have inner : (if c.layout = .message then message (start + 1) i.operands else e.operands c i.operands) =
      some ⟨bs, (settled addresses body).fixups e.item⟩ := by
    by_cases kind : c.layout = .message
    · rw [if_pos kind]
      simp only [Placement.lowerCommand, kind] at loweredBody
      split at loweredBody
      · rename_i commands span rest isMessage
        rw [isMessage]
        exact message_eq loweredBody emittedBody e.item
      · cases loweredBody
    · rw [if_neg kind]
      exact operands_eq ⟨knows, fresh⟩ member kind loweredBody emittedBody
  rw [instruction, Command.ofName?_eq_some.2 ⟨member, name⟩, Option.bind_eq_bind, Option.bind_some, inner,
    Chunk.join_plain_cons]
  rfl

theorem datum_eq {labels : LabelTable} (knows : e.Knows labels addresses) {d : Data} {piece : Piece}
    (lowered : d.lowerValue labels o = .ok piece) : Yields addresses e.item [piece] (e.datum d.width o) := by
  cases o <;> simp only [Data.lowerValue] at lowered
  case text bytes span =>
    cases lowered
    exact yields_bytes _
  case int value width span =>
    split at lowered <;> cases lowered
    rename_i fits
    rw [datum, if_pos fits]
    exact yields_bytes _
  case label name width isElse span =>
    split at lowered <;> cases lowered
    rename_i binding found
    intro stop address bs emitted
    obtain ⟨_, _, rfl, stored, ⟨⟩⟩ := emit_cons.1 emitted
    obtain ⟨value, here, word⟩ := bind_eq_ok.1 stored
    rw [datum, knows name binding found, blockAddress_eq_ok.1 here, Option.bind_eq_bind, Option.bind_some,
      Piece.unsigned?_of_word word, List.append_nil]
    rfl
  case offset value width isElse span =>
    cases lowered
    exact yields_bytes _
  all_goals cases lowered

theorem encode_eq {labels : LabelTable} (knows : e.Knows labels addresses) (fresh : e.operand = 0)
    {item : Item} (lowered : item.lower labels = .ok code) {start : Nat} {bs : Bytes}
    (emitted : (code.settled addresses).emit addresses (start + (code.settled addresses).size) start = .ok bs) :
    e.encode start item = some ⟨bs, (code.settled addresses).fixups e.item⟩ := by
  cases item with
  | instruction i => exact instruction_eq knows fresh lowered emitted
  | data d =>
    have each : List.Forall₂ (Yields addresses e.item) (code.map ([·])) (d.values.map (e.datum d.width)) := by
      refine List.forall₂_map_left_iff.2 (List.forall₂_map_right_iff.2 ?_)
      exact (mapM_eq_ok.1 lowered).flip.imp fun _ _ => datum_eq knows
    have yields := yields_flatten each
    rw [← List.flatMap_def, List.flatMap_singleton'] at yields
    exact yields _ _ _ emitted

theorem encodeAll_eq {address : String → Option Nat} {labels : LabelTable}
    (knows : ∀ index, Knows { address, item := index } labels addresses) {items : List Item} {codes : List ItemCode}
    (lowered : List.Forall₂ (fun item code => item.lower labels = .ok code) items codes) (index : Nat) {start : Nat}
    {bs : Bytes}
    (emitted : Code.emitItems addresses start (codes.map (settled addresses)) = .ok bs) :
    ∃ chunks, encodeAll address index start items = some chunks ∧ bs = chunks.flatMap (·.bytes) ∧
      chunks.map Chunk.size = (codes.map (settled addresses)).map ItemCode.size ∧
      chunks.flatMap (·.fixups) =
        ((codes.map (settled addresses)).mapIdx fun k code => code.fixups (index + k)).flatten := by
  induction lowered generalizing index start bs with
  | nil =>
    cases emitted
    exact ⟨[], rfl, rfl, rfl, rfl⟩
  | @cons item code items codes head _ ih =>
    obtain ⟨first, others, rfl, here, rest⟩ := Code.emitItems_cons.1 emitted
    have encoded := encode_eq (knows index) rfl head here
    have length : first.length = (settled addresses code).size := length_emit here
    obtain ⟨chunks, next, rfl, sizes, fixups⟩ := @ih (index + 1) _ _ rest
    refine ⟨⟨first, (settled addresses code).fixups index⟩ :: chunks, ?_, rfl, ?_, ?_⟩
    · simp only [encodeAll, encoded, Option.bind_eq_bind, Option.bind_some, Chunk.size, length, next]
      rfl
    · simp [sizes, Chunk.size, length]
    · rw [List.flatMap_cons, fixups, List.map_cons, List.mapIdx_cons, List.flatten_cons]
      simp [Nat.add_assoc, Nat.add_comm 1]

end Encoder

theorem Script.settle_items {s : Script} {c d : Code} {limit passes : Nat} (lowered : s.lower = .ok c)
    (settled : c.settle limit = .ok (d, passes)) : d.items = c.items.map (ItemCode.settled d.blockAddresses) := by
  have exact {q : Pointer} (inCode : q ∈ d.pointers) (free : q.forced = false) :=
    Code.settle_exact (Script.lower_narrow lowered) settled inCode free
  have pieces : ∀ item ∈ d.items, ∀ piece ∈ item, ∀ q, piece = .pointer q → q ∈ d.pointers := by
    rintro item inItems _ inItem q rfl
    exact List.mem_flatMap.2 ⟨item, inItems, List.mem_filterMap.2 ⟨_, inItem, rfl⟩⟩
  have widths := forall₂_and_right.2 ⟨List.rel_flatten (Code.settle_rewidth settled), pieces⟩
  refine (List.forall₂_eq_eq_eq ▸ List.forall₂_map_left_iff.2 (widths.imp ?_) :
    c.items.map (ItemCode.settled d.blockAddresses) = d.items).symm
  rintro item item' ⟨related, inside⟩
  refine (List.forall₂_eq_eq_eq ▸ List.forall₂_map_left_iff.2 ((forall₂_and_right.2 ⟨related, inside⟩).imp ?_) :
    ItemCode.settled d.blockAddresses item = item')
  rintro piece piece' ⟨widened, isPointer⟩
  cases widened with
  | same =>
    cases piece with
    | pointer q =>
      by_cases forced : q.forced = true
      · rw [Piece.settled, if_pos forced]
      · rw [Piece.settled, if_neg forced, ← exact (isPointer q rfl) (by simpa using forced)]
    | _ => rfl
  | pointer q width free _ =>
    have asked : width = .ofAddress (Code.target d.blockAddresses q) := exact (isPointer _ rfl) free
    rw [Piece.settled, if_neg (by simp [free]), ← asked]

theorem addressesFrom_append (start : Nat) (sizes : List Nat) :
    addressesFrom start sizes ++ [start + sizes.sum] = sizes.scanl (· + ·) start := by
  induction sizes generalizing start with
  | nil => simp [addressesFrom]
  | cons size sizes ih =>
    rw [addressesFrom, List.cons_append, List.scanl_cons, ← ih (start + size), List.sum_cons, Nat.add_assoc]

theorem getElem?_addressesFrom_append (start : Nat) {n : Nat} {sizes : List Nat} (inside : n ≤ sizes.length) :
    (addressesFrom start sizes ++ [start + sizes.sum])[n]? = some (start + (sizes.take n).sum) := by
  rcases Nat.lt_or_eq_of_le inside with before | rfl
  · rw [List.getElem?_append_left (by simpa [Code.length_addressesFrom] using before),
      Code.getElem?_addressesFrom before]
  · rw [List.getElem?_append_right (by simp [Code.length_addressesFrom])]
    simp [Code.length_addressesFrom]

namespace Script

theorem getElem?_blockAddresses {s : Script} {d : Code}
    (lengths : List.Forall₂ (fun (b : Block) items => b.items.length = items.length) s.blocks d) {k : Nat}
    (inside : k < s.blocks.length) : d.blockAddresses[k]? =
      (addressesFrom 0 (d.items.map ItemCode.size) ++ [(d.items.map ItemCode.size).sum])[
        ((s.blocks.take k).flatMap (·.items)).length]? := by
  have start := blockAddresses_eq lengths rfl inside
  have before : ((s.blocks.take k).flatMap (·.items)).length ≤ (d.items.map ItemCode.size).length := by
    rw [length_flatMap_items (List.forall₂_take k lengths), List.length_map]
    have isPrefix : (d.take k).flatten <+: d.items :=
      ⟨(d.drop k).flatten, by rw [← List.flatten_append, List.take_append_drop, Code.items]⟩
    exact isPrefix.length_le
  have item := getElem?_addressesFrom_append 0 before
  rw [Nat.zero_add, Nat.zero_add, ← List.map_take] at item
  exact start.trans item.symm

/-- The assembled script is the chunks of its items, one after the other, with each label at the address
of its block. -/
structure EncodedAs (s : Script) (a : Assembled) (chunks : List Chunk) : Prop where
  encoded : Encoder.encodeAll (fun name => (a.layout.addressOf s name).toOption) 0 0 s.items = some chunks
  bytes : a.bytes = chunks.flatMap (·.bytes)
  fixups : a.layout.fixups = chunks.flatMap (·.fixups)
  size : a.bytes.length = a.layout.size
  itemAddresses : a.layout.itemAddresses ++ [a.layout.size] = (chunks.map Chunk.size).scanl (· + ·) 0
  blockCount : a.layout.blockAddresses.length = s.blocks.length
  blockAddresses : ∀ k < s.blocks.length, a.layout.blockAddresses[k]? =
    (a.layout.itemAddresses ++ [a.layout.size])[((s.blocks.take k).flatMap (·.items)).length]?

/-- Whatever the assembler gives is the direct encoding of the script under its own layout. -/
theorem assemble_encodedAs {s : Script} {limit : Nat} {a : Assembled} (assembled : s.assemble limit = .ok a) :
    ∃ chunks, s.EncodedAs a chunks := by
  obtain ⟨c, d, passes, lowered, settled, emitted, layout⟩ := assemble_eq_ok assembled
  have settledItems := settle_items lowered settled
  have emittedItems := Code.emit_eq_ok.1 emitted
  have lengths := settle_lengths lowered settled
  have knows : ∀ index, Encoder.Knows
      { address := fun name => (a.layout.addressOf s name).toOption, item := index } s.labels d.blockAddresses := by
    intro index name binding found
    rw [layout]
    dsimp only
    rw [Layout.addressOf_eq found, blockAddress, Layout.ofCode]
    cases d.blockAddresses[binding.block]? <;> rfl
  rw [settledItems] at emittedItems
  obtain ⟨chunks, encoded, bytes, sizes, fixups⟩ :=
    Encoder.encodeAll_eq knows (lower_items lowered) 0 emittedItems
  rw [← settledItems] at sizes fixups
  refine ⟨chunks, encoded, bytes, ?_, ?_, ?_, ?_, ?_⟩
  · rw [fixups, layout]
    simp only [Nat.zero_add]
    rfl
  · rw [layout, Code.length_emitItems (Code.emit_eq_ok.1 emitted)]
    rfl
  · have total := addressesFrom_append 0 (d.items.map ItemCode.size)
    rw [Nat.zero_add, ← sizes] at total
    rw [layout, ← total, sizes]
    rfl
  · rw [layout]
    exact length_blockAddresses lowered settled
  · intro k inside
    rw [layout]
    exact getElem?_blockAddresses lengths inside

def scene : Script where
  target := .globals
  blocks :=
    [ ⟨"start", [.instruction ⟨"call", [.int 1 none none, .label "far" none false none,
          .expr "add" [.int 2 none none, .label "start" none false none] none], none⟩,
        .instruction ⟨"msg", [.message [⟨"text", [.text [72, 105] none], none⟩,
          ⟨"speed", [.int 2 none none], none⟩] none], none⟩,
        .data ⟨.byte, [.text (List.replicate 300 0) none], none⟩]⟩,
      ⟨"far", [.data ⟨.long, [.label "start" none false none], none⟩, .instruction ⟨"return", [], none⟩]⟩ ]
  labels := ⟨[("start", ⟨0, 0⟩), ("far", ⟨1, 0⟩)], []⟩

theorem assemble_encodedAs_scene : ∃ a, scene.assemble 64 = .ok a ∧
    a.layout = ⟨331, 2, [0, 326], [0, 15, 25, 326, 330], [⟨0, 1, "far", .word⟩, ⟨0, 2, "start", .byte⟩]⟩ ∧
    a.bytes.take 25 = [22, 14, 0, 33, 1, 25, 23, 70, 1, 7, 25, 33, 0, 33, 2, 35, 25, 0, 0, 0, 72, 105, 1, 2, 0] ∧
    ∃ chunks, scene.EncodedAs a chunks := by
  have computed : (scene.assemble 64).toOption.map (fun a => (a.layout, a.bytes.take 25)) = some
      (⟨331, 2, [0, 326], [0, 15, 25, 326, 330], [⟨0, 1, "far", .word⟩, ⟨0, 2, "start", .byte⟩]⟩,
        [22, 14, 0, 33, 1, 25, 23, 70, 1, 7, 25, 33, 0, 33, 2, 35, 25, 0, 0, 0, 72, 105, 1, 2, 0]) := by
    decide +kernel
  obtain ⟨a, isScript, same⟩ := Option.map_eq_some_iff.1 computed
  have assembled := toOption_eq_some.1 isScript
  exact ⟨a, assembled, congrArg Prod.fst same, congrArg Prod.snd same, assemble_encodedAs assembled⟩

end Script

end EventScript
