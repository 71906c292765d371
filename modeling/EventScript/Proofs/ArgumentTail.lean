import EventScript.Proofs.Format

namespace EventScript

namespace Operand

def literal? : Operand → Option (Int × Width)
  | int value width _ => some (value, width.getD (.ofLiteral value))
  | expr op [int value _ _] _ => (Operator.constantWidth? op).map fun width => (value, width)
  | _ => none

/-- Whether the operand is stored as -1 in 16 or 32 bits while its source is not taken for a
terminator. -/
def isWideTerminator : Operand → Bool
  | int value width _ => (value == 65535 && width == some .word) || value == 4294967295
  | expr op [int value _ _] _ =>
    (op == "i16" && (value == -1 || value == 65535)) || (op == "i32" && (value == -1 || value == 4294967295))
  | _ => false

end Operand

namespace Operator

theorem assigns_nothing (o : Operator) (member : o ∈ all) (improper : o.isProper = false) :
    isAssignable o.name = false ∧ isAssignment o.name = false := by
  revert o
  decide +kernel

theorem code_of_address (o : Operator) (member : o ∈ all) (role : o.role = .address) : o.code = addressCode := by
  revert o
  decide +kernel

theorem constantWidth?_cases {name : String} {w : Width} (constant : constantWidth? name = some w) :
    (w = .byte ∧ name = "i8") ∨ (w = .word ∧ name = "i16") ∨ (w = .long ∧ name = "i32") := by
  have table : ∀ o ∈ all, (o.role = .constant .byte → o.name = "i8") ∧ (o.role = .constant .word → o.name = "i16") ∧
      (o.role = .constant .long → o.name = "i32") := by decide +kernel
  obtain ⟨o, found, role⟩ := Option.bind_eq_some_iff.1 constant
  obtain ⟨member, rfl⟩ := ofName?_eq_some.1 found
  obtain ⟨byte, word, long⟩ := table o member
  cases isConstant : o.role <;> simp only [isConstant, reduceCtorEq, Option.some.injEq] at role
  subst role
  rename_i width
  cases width
  · exact .inl ⟨rfl, byte isConstant⟩
  · exact .inr (.inl ⟨rfl, word isConstant⟩)
  · exact .inr (.inr ⟨rfl, long isConstant⟩)

end Operator

theorem Chunk.exists_of_join {chunks : List (Option Chunk)} {c : Chunk} (joined : join chunks = some c) :
    ∃ bss : List Bytes, List.Forall₂ (fun chunk bs => ∃ fixups, chunk = some ⟨bs, fixups⟩) chunks bss ∧
      c.bytes = bss.flatten := by
  induction chunks generalizing c with
  | nil =>
    cases joined
    exact ⟨[], .nil, rfl⟩
  | cons first rest ih =>
    obtain ⟨a, rfl, joined⟩ := Option.bind_eq_some_iff.1 joined
    obtain ⟨b, others, same⟩ := Option.bind_eq_some_iff.1 joined
    cases same
    obtain ⟨bss, each, bytes⟩ := ih others
    exact ⟨a.bytes :: bss, .cons ⟨a.fixups, rfl⟩ each, by rw [List.flatten_cons, ← bytes]; rfl⟩

theorem ItemCode.spells_flatten {parts : List ItemCode} {bss : List Bytes} (each : List.Forall₂ Spells parts bss) :
    Spells parts.flatten bss.flatten := by
  induction each with
  | nil => exact spells_nil.2 rfl
  | cons head _ ih =>
    rw [List.flatten_cons, List.flatten_cons]
    exact spells_append.2 ⟨_, _, rfl, head, ih⟩

theorem Slot.accepts_int {slot : Slot} (notLiteral : ∀ v, slot ≠ .literal v) (value : Int) (width : Option Width)
    (span : Option Span) (value' : Int) (width' : Option Width) (span' : Option Span) :
    slot.accepts (.int value width span) = slot.accepts (.int value' width' span') := by
  cases slot <;> first | rfl | exact absurd rfl (notLiteral _)

/-- The operand `x`, stored as `bs`, is read back as `o`. -/
structure Operand.ComesBack (p : Placement) (x : Operand) (bs : Bytes) (o : Operand) : Prop where
  isRead : o.IsRead
  stored : p.StoresExpr o bs
  accepts : ∀ slot : Slot, (∀ v, slot ≠ .literal v) → slot.accepts x = true → slot.accepts o = true
  literal : o.literal? = x.literal?.map fun c => (Bytes.storedValue c.1 c.2.bytes, c.2)

theorem Operand.ComesBack.literal_eq_some {p : Placement} {x o : Operand} {bs : Bytes} (back : x.ComesBack p bs o)
    {value : Int} {w : Width} : o.literal? = some (value, w) ↔
      ∃ source, x.literal? = some (source, w) ∧ Bytes.storedValue source w.bytes = value := by
  rw [back.literal]
  cases x.literal? with
  | none => simp
  | some c =>
    simp only [Option.map_some, Option.some.injEq, Prod.ext_iff]
    constructor
    · rintro ⟨stored, rfl⟩
      exact ⟨c.1, ⟨rfl, rfl⟩, stored⟩
    · rintro ⟨source, ⟨rfl, rfl⟩, stored⟩
      exact ⟨stored, rfl⟩

namespace Operand

theorem literal?_ofConstant (value : Int) (w : Width) : (ofConstant value w).literal? = some (value, w) := by
  unfold ofConstant
  by_cases narrowest : w = .ofLiteral value
  · simp [literal?, narrowest]
  · simp [literal?, narrowest]

theorem literal?_expr_of_isProper {op : Operator} (member : op ∈ Operator.all) (proper : op.isProper = true)
    {args : List Operand} {span : Option Span} : (expr op.name args span).literal? = none := by
  have notConstant := Operator.constantWidth?_eq_none member proper
  unfold literal?
  split <;> simp_all

variable {e : Encoder} {p : Placement} {x : Operand} {chunk : Chunk}

theorem comesBack_constant {value : Int} {width : Option Width}
    (encoded : Encoder.constant value width = some chunk)
    (literal : x.literal? = some (value, width.getD (.ofLiteral value)))
    (accepts : ∀ slot : Slot, (∀ v, slot ≠ .literal v) → slot.accepts x = true →
      slot.accepts (.int value width none) = true) : ∃ o, x.ComesBack p chunk.bytes o := by
  unfold Encoder.constant at encoded
  split at encoded <;> cases encoded
  generalize width.getD (.ofLiteral value) = w at *
  have inRange := Bytes.storedValue_inRange value w.bytes
  refine ⟨.ofConstant (Bytes.storedValue value w.bytes) w, isRead_ofConstant inRange, ?_,
    fun slot notLiteral accepted => ?_, ?_⟩
  · rw [Placement.storesExpr_ofConstant inRange, Width.constant, Width.constant, Bytes.pack_storedValue]
  · rw [ofConstant, ← Slot.accepts_int notLiteral value width none]
    exact accepts slot notLiteral accepted
  · rw [literal?_ofConstant, literal, Option.map_some]

theorem exists_of_reference {r : Operand} (encoded : e.reference r = some chunk) :
    ∃ (value : Int) (w : Width), (0 ≤ value ∧ value < 2 ^ w.bits) ∧ chunk.bytes = w.constant value := by
  have unsigned {w : Width} {value : Int} {bs : Bytes} (packed : w.unsigned? value = some bs) :
      (0 ≤ value ∧ value < 2 ^ w.bits) ∧ w.tag :: bs = w.constant value := by
    unfold Width.unsigned? at packed
    split at packed <;> cases packed
    exact ⟨‹_›, rfl⟩
  cases r with
  | label name width isElse span =>
    obtain ⟨address, -, rest⟩ := Option.bind_eq_some_iff.1 encoded
    obtain ⟨bs, packed, done⟩ := Option.bind_eq_some_iff.1 rest
    cases done
    exact ⟨_, _, unsigned packed⟩
  | offset value width isElse span =>
    obtain ⟨bs, packed, done⟩ := Option.bind_eq_some_iff.1 encoded
    cases done
    exact ⟨_, _, unsigned packed⟩
  | _ => cases encoded

theorem comesBack_reference {r : Operand} (isRef : r.isReference = true)
    (encoded : Chunk.join [Chunk.plain [Operator.addressCode], e.reference r] = some chunk)
    (literal : x.literal? = none)
    (accepts : ∀ slot : Slot, (∀ v, slot ≠ .literal v) → slot.accepts x = true → slot.accepts r = true) :
    ∃ o, x.ComesBack p chunk.bytes o := by
  obtain ⟨_, each, bytes⟩ := Chunk.exists_of_join encoded
  simp only [List.forall₂_cons_left_iff, List.forall₂_nil_left_iff] at each
  obtain ⟨_, _, ⟨_, ⟨⟩⟩, ⟨_, _, ⟨_, address⟩, rfl, rfl⟩, rfl⟩ := each
  obtain ⟨value, w, fits, rfl⟩ := exists_of_reference address
  refine ⟨.offset value (some w) r.isElse none, ?_, ?_, fun slot notLiteral accepted => ?_, ?_⟩
  · exact (isRead_leaf (by simp)).2 ⟨rfl, w, rfl, fits⟩
  · rw [Placement.storesExpr_offset, bytes]
    exact ⟨fits, by simp⟩
  · have general := accepts slot notLiteral accepted
    rw [Slot.accepts_reference isRef] at general
    rw [Slot.accepts_reference rfl]
    exact general
  · rw [literal]
    rfl

theorem comesBack_argument {slot : Slot} (kind : slot.isArgument = true) {a : Operand}
    (accepted : slot.accepts a = true)
    (back : ∀ chunk, e.expression a = some chunk → ∃ o, a.ComesBack p chunk.bytes o)
    (encoded : e.inSlot slot a (e.expression a) = some chunk) : ∃ (a' : Operand) (part : ItemCode),
      slot.accepts a' = true ∧ a'.IsRead ∧ p.lowerSlot slot a' (p.lowerExpr a') = .ok part ∧
        part.Spells chunk.bytes := by
  cases slot <;> simp only [Slot.isArgument, Bool.false_eq_true] at kind
  case atom named =>
    cases a <;> simp only [Slot.accepts, Bool.false_eq_true] at accepted
    cases encoded
    exact ⟨.atom _ none, _, accepted, (isRead_leaf (by simp)).2 rfl, rfl, ItemCode.spells_singleton.2 rfl⟩
  all_goals
    obtain ⟨o, isRead, ⟨code, lowered, spells⟩, accepts, -⟩ := back chunk encoded
    exact ⟨o, code, accepts _ (by simp) accepted, isRead, lowered, spells⟩

theorem comesBack_arguments {slots : Shape} {args : List Operand} {bss : List Bytes}
    (accepted : List.Forall₂ (fun slot o => slot.accepts o = true) slots args)
    (kinds : ∀ slot ∈ slots, slot.isArgument = true)
    (back : ∀ a ∈ args, ∀ chunk, e.expression a = some chunk → ∃ o, a.ComesBack p chunk.bytes o)
    (encoded : List.Forall₂ (fun chunk bs => ∃ fixups, chunk = some ⟨bs, fixups⟩) (e.arguments slots args) bss) :
    ∃ (args' : List Operand) (parts : List ItemCode),
      List.Forall₂ (fun slot o => slot.accepts o = true) slots args' ∧ (∀ a ∈ args', a.IsRead) ∧
      (slots.zip args').mapM (fun x => p.lowerSlot x.1 x.2 (p.lowerExpr x.2)) = .ok parts ∧
      List.Forall₂ ItemCode.Spells parts bss := by
  induction accepted generalizing bss with
  | nil =>
    rw [Encoder.arguments, List.forall₂_nil_left_iff] at encoded
    · subst encoded
      exact ⟨[], [], .nil, by simp, rfl, .nil⟩
    · simp
  | @cons slot a slots args head _ ih =>
    rw [Encoder.arguments] at encoded
    obtain ⟨bs, bss, ⟨fixups, here⟩, others, rfl⟩ := List.forall₂_cons_left_iff.1 encoded
    obtain ⟨args', parts, accepts, isRead, lowered, spells⟩ := ih
      (fun slot inside => kinds slot (List.mem_cons_of_mem _ inside))
      (fun a inside => back a (List.mem_cons_of_mem _ inside)) others
    obtain ⟨a', part, first, firstRead, firstLowered, firstSpells⟩ :=
      comesBack_argument (p := p) (kinds slot List.mem_cons_self) head (back a List.mem_cons_self) here
    refine ⟨a' :: args', part :: parts, .cons first accepts, List.forall_mem_cons.2 ⟨firstRead, isRead⟩, ?_,
      .cons firstSpells spells⟩
    rw [List.zip_cons_cons, List.mapM_cons, firstLowered, lowered]
    rfl

theorem comesBack_operator {operator : Operator} (member : operator ∈ Operator.all)
    (proper : operator.isProper = true) {args : List Operand} {span : Option Span}
    (back : ∀ a ∈ args, ∀ chunk, e.expression a = some chunk → ∃ o, a.ComesBack p chunk.bytes o)
    {slots : Shape} (chosen : operator.shapeOf args = .ok slots)
    (encoded : Chunk.join (Chunk.plain [operator.code] :: if operator.isReversed then
      (e.arguments slots args).reverse else e.arguments slots args) = some chunk) :
    ∃ o, (expr operator.name args span).ComesBack p chunk.bytes o := by
  obtain ⟨form, accepted⟩ := (Placement.shapeOf_eq_ok member proper).1 chosen
  obtain ⟨_, each, bytes⟩ := Chunk.exists_of_join encoded
  obtain ⟨_, bss, ⟨_, ⟨⟩⟩, stored, rfl⟩ := List.forall₂_cons_left_iff.1 each
  -- Bytes of reversed arguments, put back into the order of the source.
  obtain ⟨ordered, inOrder, same⟩ : ∃ ordered : List Bytes, List.Forall₂ (fun chunk bs => ∃ fixups,
      chunk = some ⟨bs, fixups⟩) (e.arguments slots args) ordered ∧
        bss = if operator.isReversed then ordered.reverse else ordered := by
    by_cases reversed : operator.isReversed = true
    · rw [if_pos reversed] at stored
      have inOrder := List.rel_reverse stored
      rw [List.reverse_reverse] at inOrder
      exact ⟨bss.reverse, inOrder, by simp [reversed]⟩
    · rw [if_neg reversed] at stored
      exact ⟨bss, stored, by simp [reversed]⟩
  obtain ⟨args', parts, accepts, isRead, lowered, spells⟩ := comesBack_arguments (p := p) accepted
    (fun slot inside => Operator.isArgument_of_mem member proper form inside) back inOrder
  refine ⟨.expr operator.name args' none, ?_, ?_, fun slot _ accepted => ?_, ?_⟩
  · refine isRead_expr.2 ⟨⟨rfl, ?_⟩, isRead⟩
    rw [Operator.ofName?_eq_some.2 ⟨member, rfl⟩]
    exact proper
  · refine ⟨_, (Placement.lowerExpr_parts member proper).2 ⟨slots, form, accepts, parts, lowered, rfl⟩, ?_⟩
    rw [bytes, List.flatten_cons]
    refine ItemCode.spells_cons.2 ⟨_, rfl, ItemCode.spells_flatten ?_⟩
    rw [same]
    by_cases reversed : operator.isReversed = true
    · simpa only [reversed, if_true] using List.rel_reverse spells
    · simpa only [reversed, Bool.false_eq_true, if_false] using spells
  · cases slot <;> exact accepted
  · rw [literal?_expr_of_isProper member proper, literal?_expr_of_isProper member proper]
    rfl

theorem accepts_of_improper {operator : Operator} (member : operator ∈ Operator.all)
    (improper : operator.isProper = false) {args : List Operand} {span : Option Span} {slot : Slot}
    (accepted : slot.accepts (.expr operator.name args span) = true) {o : Operand}
    (isExpression : o.isExpression = true) :
    slot.accepts o = true := by
  obtain ⟨notAssignable, notAssignment⟩ := operator.assigns_nothing member improper
  cases slot <;> simp only [Slot.accepts, notAssignable, notAssignment, isReference, Bool.false_and,
    Bool.false_eq_true] at accepted
  all_goals exact isExpression

theorem exists_comesBack (encoded : e.expression x = some chunk) : ∃ o, x.ComesBack p chunk.bytes o := by
  induction x using Operand.expr_induction generalizing chunk with
  | leaf x notExpr =>
    cases x with
    | int value width span =>
      rw [Encoder.expression] at encoded
      refine comesBack_constant encoded rfl fun slot notLiteral accepted => ?_
      rwa [Slot.accepts_int notLiteral value width none value width span]
    | label | offset =>
      rw [Encoder.expression] at encoded
      exact comesBack_reference rfl encoded rfl fun _ _ accepted => accepted
    | expr op args span => exact absurd rfl (notExpr op args span)
    | atom name span =>
      rw [Encoder.expression] at encoded
      obtain ⟨a, found, plain⟩ := Option.bind_eq_some_iff.1 encoded
      cases plain
      have stored : p.StoresExpr (.atom name none) (Width.long.constant a.code) :=
        ⟨_, Placement.lowerExpr_atom_eq_ok.2 ⟨a, found, rfl⟩, ItemCode.spells_singleton.2 rfl⟩
      refine ⟨.atom name none, (isRead_leaf (by simp)).2 rfl, stored, fun slot _ accepted => ?_, rfl⟩
      cases slot <;> exact accepted
    | _ => cases encoded
  | expr op args span ih =>
    cases found : Operator.ofName? op with
    | none => simp [Encoder.expression, found] at encoded
    | some operator =>
      obtain ⟨member, rfl⟩ := Operator.ofName?_eq_some.1 found
      rcases Encoder.constant_or operator.name args with
        ⟨forced, value, width, argSpan, isConstant, rfl⟩ | notConstant
      · rw [Encoder.expression_constant isConstant] at encoded
        have improper : operator.isProper = false := by
          by_contra proper
          simp [Operator.constantWidth?_eq_none member (by simpa using proper)] at isConstant
        exact comesBack_constant encoded (by simp [literal?, isConstant]) fun slot _ accepted =>
          accepts_of_improper member improper accepted rfl
      · rw [Encoder.expression_operator found notConstant] at encoded
        cases chosen : operator.shapeOf args with
        | error mismatch => simp [chosen] at encoded
        | ok shape =>
          simp only [chosen] at encoded
          -- An operator that stands for a literal or a reference comes back as what it stands for.
          rcases Operator.isProper_or member with proper | ⟨only, width, role⟩ | ⟨only, role⟩
          · exact comesBack_operator member proper ih chosen encoded
          · obtain ⟨a, rfl, -, accepts⟩ := Operator.exists_of_single member only (by simp) chosen
            cases a <;> simp only [Slot.accepts, Bool.false_eq_true] at accepts
            have none := notConstant _ _ _ rfl
            simp [Operator.constantWidth?, found, role] at none
          · obtain ⟨r, rfl, rfl, accepts⟩ := Operator.exists_of_single member only (by simp) chosen
            simp only [Slot.accepts, Bool.and_eq_true, Bool.not_eq_true'] at accepts
            have improper : operator.isProper = false := by simp [Operator.isProper, role]
            simp only [Operator.isReversed, role, operator.code_of_address member role] at encoded
            refine comesBack_reference accepts.1 encoded ?_ fun slot _ accepted => ?_
            · cases r <;> first | rfl | cases accepts.1
            · refine accepts_of_improper member improper accepted ?_
              cases r <;> simp_all only [isReference, isElse, isExpression, Bool.not_false, Bool.false_eq_true,
                false_and]

theorem isTerminator_iff {o : Operand} (isRead : o.IsRead) :
    o.isTerminator = true ↔ ∃ w, o.literal? = some (-1, w) := by
  have plain := isRead o o.mem_walk_self
  cases o with
  | int value width span =>
    have small : width = some .byte → value ≠ 255 := by
      rintro rfl rfl
      simp [Plain, Bytes.InRange, Width.bytes] at plain
    simp only [isTerminator, literal?, Bool.or_eq_true, beq_iff_eq, Bool.and_eq_true, Option.some.injEq,
      Prod.mk.injEq, exists_and_left, exists_eq', and_true]
    constructor
    · rintro (minusOne | ⟨large, byte⟩)
      · exact minusOne
      · exact absurd large (small byte)
    · exact .inl
  | expr op args span =>
    obtain ⟨-, known⟩ := plain
    obtain ⟨operator, found, proper⟩ := (Option.any_eq_true ..).1 known
    obtain ⟨member, rfl⟩ := Operator.ofName?_eq_some.1 found
    rw [literal?_expr_of_isProper member proper, isTerminator_expr]
    simp [Operator.name_ne_of_isProper member proper]
  | _ => simp [isTerminator, literal?]

end Operand

theorem Bytes.storedValue_eq_neg_one {value : Int} {w : Width} :
    storedValue value w.bytes = -1 ↔ value % 256 ^ w.bytes = 256 ^ w.bytes - 1 := by
  have stored := unsigned_pack value w.bytes
  simp only [storedValue, signed, length_pack]
  generalize unsigned (pack value w.bytes) = u at stored ⊢
  rw [← stored]
  cases w <;> simp only [Width.bytes] at stored ⊢ <;> split_ifs <;> omega

namespace Operand

variable {e : Encoder} {x : Operand} {chunk : Chunk}

theorem fits_of_constant {value : Int} {width : Option Width} (encoded : Encoder.constant value width = some chunk) :
    Bytes.fits value (width.getD .long).bytes = true := by
  unfold Encoder.constant at encoded
  split at encoded
  · assumption
  · cases encoded

theorem isWideTerminator_int {value : Int} {width : Option Width} {span : Option Span}
    (encoded : Encoder.constant value width = some chunk) (allowed : (int value width span).isTerminator = false) :
    ((int value width span).isWideTerminator = true ↔
      Bytes.storedValue value (width.getD (.ofLiteral value)).bytes = -1) ∧
    (Bytes.storedValue value (width.getD (.ofLiteral value)).bytes = -1 → width.getD (.ofLiteral value) ≠ .byte) := by
  have fits := fits_of_constant encoded
  simp only [Bytes.fits, Bool.and_eq_true, decide_eq_true_eq] at fits
  simp only [isTerminator, Bool.or_eq_false_iff, beq_eq_false_iff_ne, Bool.and_eq_false_iff] at allowed
  rw [Bytes.storedValue_eq_neg_one]
  simp only [isWideTerminator, Bool.or_eq_true, Bool.and_eq_true, beq_iff_eq]
  cases width with
  | none =>
    simp only [Option.getD_none, Width.bytes] at fits ⊢
    unfold Width.ofLiteral
    split_ifs <;> simp <;> omega
  | some w => cases w <;> simp [Width.bytes] at fits allowed ⊢ <;> omega

theorem isWideTerminator_call {op : String} {forced : Width} (constant : Operator.constantWidth? op = some forced)
    {value : Int} {width : Option Width} {argSpan span : Option Span}
    (encoded : Encoder.constant value (some forced) = some chunk)
    (allowed : (expr op [int value width argSpan] span).isTerminator = false) :
    ((expr op [int value width argSpan] span).isWideTerminator = true ↔
      Bytes.storedValue value forced.bytes = -1) ∧ (Bytes.storedValue value forced.bytes = -1 → forced ≠ .byte) := by
  have fits := fits_of_constant encoded
  simp only [Bytes.fits, Option.getD_some, Bool.and_eq_true, decide_eq_true_eq] at fits
  rw [Bytes.storedValue_eq_neg_one]
  rcases Operator.constantWidth?_cases constant with ⟨rfl, rfl⟩ | ⟨rfl, rfl⟩ | ⟨rfl, rfl⟩ <;>
    simp [isTerminator, isWideTerminator, Width.bytes] at fits allowed ⊢ <;> omega

theorem not_call {op : String} {args : List Operand}
    (notConstant : ∀ value width argSpan, args = [int value width argSpan] → Operator.constantWidth? op = none)
    (span : Option Span) :
    (expr op args span).literal? = none ∧ (expr op args span).isWideTerminator = false := by
  match args with
  | [] | _ :: _ :: _ => simp [literal?, isWideTerminator]
  | [a] =>
    cases a with
    | int value width argSpan =>
      have none := notConstant _ _ _ rfl
      have word : op ≠ "i16" := by
        rintro rfl
        cases none
      have long : op ≠ "i32" := by
        rintro rfl
        cases none
      simp [literal?, isWideTerminator, none, word, long]
    | _ => simp [literal?, isWideTerminator]

theorem isWideTerminator_iff (encoded : e.expression x = some chunk) (allowed : x.isTerminator = false) :
    (x.isWideTerminator = true ↔ ∃ value w, x.literal? = some (value, w) ∧ Bytes.storedValue value w.bytes = -1) ∧
      ∀ value, x.literal? = some (value, .byte) → Bytes.storedValue value Width.byte.bytes ≠ -1 := by
  cases x with
  | int value width span =>
    rw [Encoder.expression] at encoded
    obtain ⟨wide, notByte⟩ := isWideTerminator_int encoded allowed
    refine ⟨wide.trans (by simp [literal?]), fun value' literal stored => ?_⟩
    simp only [literal?, Option.some.injEq, Prod.mk.injEq] at literal
    obtain ⟨rfl, byte⟩ := literal
    exact notByte (byte ▸ stored) byte
  | expr op args span =>
    rcases Encoder.constant_or op args with ⟨forced, value, width, argSpan, isConstant, rfl⟩ | notConstant
    · rw [Encoder.expression_constant isConstant] at encoded
      obtain ⟨wide, notByte⟩ := isWideTerminator_call isConstant encoded allowed
      refine ⟨wide.trans (by simp [literal?, isConstant]), fun value' literal stored => ?_⟩
      simp only [literal?, isConstant, Option.map_some, Option.some.injEq, Prod.mk.injEq] at literal
      obtain ⟨rfl, byte⟩ := literal
      exact notByte (byte ▸ stored) byte
    · obtain ⟨none, narrow⟩ := not_call notConstant span
      simp [none, narrow]
  | _ => simp [isWideTerminator, literal?]

end Operand

namespace Decoder

variable {e : Encoder} {p : Placement} {x o : Operand} {bs rest : Bytes} {size depth offset limit index : Nat}
  {name : String}

theorem bytes_of_literal (isRead : o.IsRead) (stored : p.StoresExpr o bs) {value : Int} {w : Width}
    (literal : o.literal? = some (value, w)) : bs = w.constant value := by
  have notAtom : o.isAtom = false := by cases o <;> first | rfl | cases literal
  rcases Placement.storesExpr_cases isRead notAtom stored with
    ⟨value', w', rfl, -, rfl⟩ | ⟨_, _, _, rfl, -, -⟩ | ⟨op, member, proper, _, rfl, -⟩
  · rw [Operand.literal?_ofConstant] at literal
    cases literal
    rfl
  · cases literal
  · rw [Operand.literal?_expr_of_isProper member proper] at literal
    cases literal

theorem run_terminatedTail {tail : Nat → Decoder Operand} {c : Cursor}
    (going : ¬ (c.rest.take 2 == Placement.terminator) = true) :
    (terminatedTail tail name (limit + 1) index).run c = (tail index).run c >>= fun r =>
      if r.1.isTerminator then .error ⟨.argumentTerminator name, c.offset⟩
      else ((terminatedTail tail name limit (index + 1)).run r.2).map fun s => (r.1 :: s.1, s.2) := by
  have look : (get : Decoder Cursor).run c = pure (c, c) := rfl
  have here : Decoder.offset.run c = pure (c.offset, c) := rfl
  rw [terminatedTail, StateT.run_bind, look, pure_bind, if_neg going, StateT.run_bind, here, pure_bind,
    StateT.run_bind]
  congr 1
  funext r
  by_cases terminator : r.1.isTerminator = true
  · rw [if_pos terminator, if_pos terminator]
    rfl
  · rw [if_neg terminator, if_neg terminator]
    rfl

/-- One step of reading a list. The operand is read from its bytes and reading goes on behind it, unless it is
the constant -1, which stops the list in eight bits and fails in others. -/
theorem terminatedTail_step (back : x.ComesBack p bs o) (isExpression : x.isExpression = true)
    (notByte : o.literal? ≠ some (-1, .byte)) (enough : (bs ++ rest).length ≤ depth) :
    let tail := fun i => (readingWith size (expression size depth) name).operand i .variadic
    (terminatedTail tail name (limit + 1) index).run ⟨bs ++ rest, offset⟩ =
      if o.isTerminator then .error ⟨.argumentTerminator name, offset⟩
      else ((terminatedTail tail name limit (index + 1)).run ⟨rest, offset + bs.length⟩).map
        fun r => (o :: r.1, r.2) := by
  intro tail
  have admits : Slot.variadic.Admits size o :=
    ⟨back.accepts _ (by simp) isExpression, back.isRead, by simp, by simp [Slot.leadsToCode]⟩
  have read : (tail index).Reads ⟨bs ++ rest, offset⟩ o ⟨rest, offset + bs.length⟩ :=
    (reads_variadic enough).2 ⟨admits, bs, back.stored, rfl, rfl⟩
  have going : ¬ ((bs ++ rest).take 2 == Placement.terminator) = true := by
    intro ends
    have stops := isTerminator_of_reads index _ o _ enough read (by simpa using ends)
    obtain ⟨w, literal⟩ := (Operand.isTerminator_iff back.isRead).1 stops
    have bytes := bytes_of_literal back.isRead back.stored literal
    have start : Placement.terminator = [33, 255] := rfl
    rw [bytes, start] at ends
    cases w with
    | byte => exact notByte literal
    | word | long => simp [Width.constant, Width.tag] at ends
  rw [run_terminatedTail going, read]
  rfl

/-- An operand that is let into a list is never taken for its end. Whatever follows its bytes, it is read from
them and reading goes on behind it, unless it is stored as -1 in 16 or 32 bits: there reading fails. -/
theorem terminatedTail_argument {code : ItemCode} {addresses : List Nat} {stop address : Nat}
    (isExpression : x.isExpression = true) (allowed : x.isTerminator = false) (lowered : p.lowerExpr x = .ok code)
    (emitted : (code.settled addresses).emit addresses stop address = .ok bs) :
    ∃ o : Operand, ∀ (size depth offset limit index : Nat) (name : String) (rest : Bytes),
      (bs ++ rest).length ≤ depth →
      let tail := fun i => (readingWith size (expression size depth) name).operand i .variadic
      (terminatedTail tail name (limit + 1) index).run ⟨bs ++ rest, offset⟩ =
        if x.isWideTerminator then .error ⟨.argumentTerminator name, offset⟩
        else ((terminatedTail tail name limit (index + 1)).run ⟨rest, offset + bs.length⟩).map
          fun r => (o :: r.1, r.2) := by
  let e : Encoder := ⟨fun name => (p.labels.get? name).bind fun b => addresses[b.block]?, 0, p.site.operand⟩
  have follows : e.Follows p addresses := ⟨fun name binding found => by simp [e, found], rfl⟩
  have encoded := Encoder.yields_expression follows lowered stop address bs emitted
  obtain ⟨o, back⟩ := Operand.exists_comesBack (p := p) encoded
  obtain ⟨wide, notByte⟩ := Operand.isWideTerminator_iff encoded allowed
  have same : o.isTerminator = x.isWideTerminator := by
    rw [Bool.eq_iff_iff, wide, Operand.isTerminator_iff back.isRead]
    simp only [back.literal_eq_some]
    exact exists_comm
  refine ⟨o, fun size depth offset limit index name rest enough => ?_⟩
  rw [← same]
  refine terminatedTail_step back isExpression (fun literal => ?_) enough
  obtain ⟨source, isByte, stored⟩ := back.literal_eq_some.1 literal
  exact notByte source isByte stored

def farLabels : LabelTable := ⟨[("near", ⟨0, 0⟩), ("far", ⟨1, 0⟩)], []⟩

theorem terminatedTail_argument_far :
    let p : Placement := ⟨farLabels, ⟨"anim", 1⟩, none⟩
    let sum : Operand := .expr "add" [.int 255 none none, .label "far" none false none] none
    let sumCode : ItemCode := [.bytes [7], .bytes [25], .pointer ⟨"far", 1, .byte, false, ⟨"anim", 1⟩, none⟩,
      .bytes [23, 255, 0]]
    let wide : Operand := .int 4294967295 none none
    let wideCode : ItemCode := [.bytes [24, 255, 255, 255, 255]]
    let tail := fun depth i => (readingWith 400 (expression 400 depth) "anim").operand i .variadic
    (sum.isTerminator = false ∧ p.lowerExpr sum = .ok sumCode ∧
      (sumCode.settled [0, 300]).emit [0, 300] 0 0 = .ok [7, 25, 23, 44, 1, 23, 255, 0] ∧
      ∃ o, ∀ depth rest, 8 + rest.length ≤ depth →
        (terminatedTail (tail depth) "anim" 3 1).run ⟨[7, 25, 23, 44, 1, 23, 255, 0] ++ rest, 10⟩ =
          ((terminatedTail (tail depth) "anim" 2 2).run ⟨rest, 18⟩).map fun r => (o :: r.1, r.2)) ∧
    (wide.isTerminator = false ∧ p.lowerExpr wide = .ok wideCode ∧
      (wideCode.settled [0, 300]).emit [0, 300] 0 0 = .ok [24, 255, 255, 255, 255] ∧
      ∀ depth rest, 5 + rest.length ≤ depth →
        (terminatedTail (tail depth) "anim" 3 1).run ⟨[24, 255, 255, 255, 255] ++ rest, 10⟩ =
          .error ⟨.argumentTerminator "anim", 10⟩) := by
  intro p sum sumCode wide wideCode tail
  have lowered : p.lowerExpr sum = .ok sumCode := rfl
  have emitted : (sumCode.settled [0, 300]).emit [0, 300] 0 0 = .ok [7, 25, 23, 44, 1, 23, 255, 0] :=
    toOption_eq_some.1 (by decide +kernel)
  have wideLowered : p.lowerExpr wide = .ok wideCode := rfl
  have wideEmitted : (wideCode.settled [0, 300]).emit [0, 300] 0 0 = .ok [24, 255, 255, 255, 255] := rfl
  refine ⟨⟨rfl, lowered, emitted, ?_⟩, rfl, wideLowered, wideEmitted, ?_⟩
  · obtain ⟨o, reads⟩ := terminatedTail_argument (x := sum) rfl rfl lowered emitted
    exact ⟨o, fun depth rest enough => reads 400 depth 10 2 1 "anim" rest (by simp; omega)⟩
  · obtain ⟨o, reads⟩ := terminatedTail_argument (x := wide) rfl rfl wideLowered wideEmitted
    exact fun depth rest enough => reads 400 depth 10 2 1 "anim" rest (by simp; omega)

end Decoder

namespace Script

/-- A list whose first argument is stored as -1 in 16 bits. -/
def wideListText : String := ".stage \"s\"\n.startup *main\nmain:\n\tanim 1, 65535.w, 2\n\treturn\n"

theorem decode_wideList : ∃ s a, parse wideListText = .ok s ∧ s.assemble 64 = .ok a ∧
    (Operand.int 65535 (some .word) none).isTerminator = false ∧
    Instruction.decode a.bytes 0 = .error ⟨.argumentTerminator "anim", 3⟩ := by
  have computed : ((parse wideListText).toOption.bind fun s => (s.assemble 64).toOption).map (·.bytes) =
      some [17, 33, 1, 23, 255, 255, 33, 2, 33, 255, 2] := by decide +kernel
  obtain ⟨a, isAssembled, bytes⟩ := Option.map_eq_some_iff.1 computed
  obtain ⟨s, parsed, assembled⟩ := Option.bind_eq_some_iff.1 isAssembled
  refine ⟨s, a, toOption_eq_some.1 parsed, toOption_eq_some.1 assembled, rfl, ?_⟩
  rw [bytes]
  rfl

end Script

end EventScript
