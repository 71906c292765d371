import EventScript.Proofs.Forms
import EventScript.Proofs.Lowering

namespace EventScript

namespace ItemCode

def Spells (code : ItemCode) (bs : Bytes) : Prop :=
  ∃ chunks : List Bytes, code = chunks.map Piece.bytes ∧ chunks.flatten = bs

theorem spells_nil {bs : Bytes} : Spells [] bs ↔ bs = [] := by
  constructor
  · rintro ⟨chunks, empty, rfl⟩
    rw [List.map_eq_nil_iff.1 empty.symm]
    rfl
  · rintro rfl
    exact ⟨[], rfl, rfl⟩

theorem spells_append {code code' : ItemCode} {bs : Bytes} :
    Spells (code ++ code') bs ↔ ∃ b b', bs = b ++ b' ∧ Spells code b ∧ Spells code' b' := by
  constructor
  · rintro ⟨chunks, split, rfl⟩
    obtain ⟨first, second, rfl, rfl, rfl⟩ := List.append_eq_map_iff.1 split
    exact ⟨_, _, List.flatten_append, ⟨first, rfl, rfl⟩, ⟨second, rfl, rfl⟩⟩
  · rintro ⟨_, _, rfl, ⟨first, rfl, rfl⟩, ⟨second, rfl, rfl⟩⟩
    exact ⟨first ++ second, List.map_append.symm, List.flatten_append⟩

theorem spells_singleton {b bs : Bytes} : Spells [.bytes b] bs ↔ bs = b := by
  constructor
  · rintro ⟨chunks, same, rfl⟩
    obtain ⟨_, _, rfl, here, empty⟩ := List.map_eq_cons_iff.1 same.symm
    cases here
    rw [List.map_eq_nil_iff.1 empty]
    simp
  · rintro rfl
    exact ⟨[bs], rfl, by simp⟩

theorem spells_cons {b bs : Bytes} {code : ItemCode} :
    Spells (.bytes b :: code) bs ↔ ∃ bs', bs = b ++ bs' ∧ Spells code bs' := by
  rw [← List.singleton_append, spells_append]
  simp only [spells_singleton]
  constructor
  · rintro ⟨_, bs', rfl, rfl, rest⟩
    exact ⟨bs', rfl, rest⟩
  · rintro ⟨bs', rfl, rest⟩
    exact ⟨b, bs', rfl, rfl, rest⟩

end ItemCode

theorem find?_key_eq_some {α κ : Type} [BEq κ] [LawfulBEq κ] (key : α → κ) {xs : List α}
    (distinct : (xs.map key).Nodup) {k : κ} {x : α} :
    xs.find? (fun x => key x == k) = some x ↔ x ∈ xs ∧ key x = k := by
  induction xs with
  | nil => simp
  | cons first xs ih =>
    simp only [List.map_cons, List.nodup_cons] at distinct
    by_cases here : key first = k
    · simp only [List.find?_cons, here, beq_self_eq_true, Option.some.injEq, List.mem_cons]
      constructor
      · rintro rfl
        exact ⟨.inl rfl, here⟩
      · rintro ⟨rfl | later, same⟩
        · rfl
        · exact absurd (List.mem_map.2 ⟨x, later, same.trans here.symm⟩) distinct.1
    · have skip : (key first == k) = false := by simpa using here
      simp only [List.find?_cons, skip, ih distinct.2, List.mem_cons]
      constructor
      · rintro ⟨later, same⟩
        exact ⟨.inr later, same⟩
      · rintro ⟨rfl | later, same⟩
        · exact absurd same here
        · exact ⟨later, same⟩

namespace Operator

theorem nodup_keys : (all.map Operator.code).Nodup ∧ (all.map Operator.name).Nodup := by
  decide +kernel

theorem ofCode?_eq_some {code : UInt8} {o : Operator} :
    ofCode? code = some o ↔ o ∈ all ∧ o.code = code :=
  find?_key_eq_some Operator.code nodup_keys.1

theorem ofName?_eq_some {name : String} {o : Operator} :
    ofName? name = some o ↔ o ∈ all ∧ o.name = name :=
  find?_key_eq_some Operator.name nodup_keys.2

def isProper (o : Operator) : Bool :=
  match o.role with
  | .constant _ | .address => false
  | _ => true

theorem isProper_iff {o : Operator} (member : o ∈ all) :
    o.isProper = true ↔ Width.ofTag? o.code = none ∧ o.code ≠ addressCode := by
  revert o
  decide +kernel

theorem constantWidth?_eq_none {o : Operator} (member : o ∈ all) (proper : o.isProper = true) :
    constantWidth? o.name = none := by
  unfold constantWidth?
  rw [ofName?_eq_some.2 ⟨member, rfl⟩, Option.bind_some]
  revert proper
  unfold isProper
  cases o.role <;> simp

end Operator

def Slot.isArgument : Slot → Bool
  | expr kind => kind != .event
  | assignable | integer | atom _ => true
  | _ => false

theorem Operator.isArgument_of_mem {o : Operator} (member : o ∈ all) (proper : o.isProper = true)
    {shape : Shape} (form : shape ∈ o.shapes) {slot : Slot} (inForm : slot ∈ shape) :
    slot.isArgument = true := by
  have table : ∀ o ∈ all, o.isProper = true → ∀ shape ∈ o.shapes, ∀ slot ∈ shape,
      slot.isArgument = true := by
    decide +kernel
  exact table o member proper shape form slot inForm

theorem Operator.shapes_of_isReversed {o : Operator} (member : o ∈ all)
    (reversed : o.isReversed = true) : o.isProper = true ∧
      ∃ slot : Slot, slot.isSelector = false ∧ o.shapes = [[slot, operand]] := by
  have table : ∀ o ∈ all, o.isReversed = true → o.isProper = true ∧
      (o.shapes = [[.assignable, operand]] ∨ o.shapes = [[operand, operand]]) := by
    decide +kernel
  obtain ⟨proper, form | form⟩ := table o member reversed
  · exact ⟨proper, .assignable, rfl, form⟩
  · exact ⟨proper, operand, rfl, form⟩

namespace Operand

/-- One node of an operand as it is read: without spans, and with the width that it is stored in
where that is not the narrowest. -/
def Plain : Operand → Prop
  | int value width span =>
    span = none ∧ width ≠ some (.ofLiteral value) ∧
      Bytes.InRange value (width.getD (.ofLiteral value)).bytes
  | atom _ span | text _ span => span = none
  | offset value width _ span =>
    span = none ∧ ∃ w : Width, width = some w ∧ 0 ≤ value ∧ value < 2 ^ w.bits
  | expr op _ span => span = none ∧ (Operator.ofName? op).any Operator.isProper = true
  | label .. | message .. => False

def IsRead (o : Operand) : Prop := ∀ node ∈ o.walk, node.Plain

def isAtom : Operand → Bool
  | atom .. => true
  | _ => false

theorem isRead_expr {op : String} {args : List Operand} {span : Option Span} :
    (expr op args span).IsRead ↔ (expr op args span).Plain ∧ ∀ a ∈ args, a.IsRead := by
  simp only [IsRead, walk, walkAll_eq_flatMap, List.mem_cons, List.mem_flatMap]
  constructor
  · intro h
    exact ⟨h _ (.inl rfl), fun a isArg node inArg => h node (.inr ⟨a, isArg, inArg⟩)⟩
  · rintro ⟨here, args⟩ node (rfl | ⟨a, isArg, inArg⟩)
    · exact here
    · exact args a isArg node inArg

theorem isRead_leaf {o : Operand} (leaf : ∀ op args span, o ≠ .expr op args span) :
    o.IsRead ↔ o.Plain := by
  cases o <;> first | exact absurd rfl (leaf _ _ _) | simp [IsRead, walk]

def Within (size : Nat) : Operand → Prop
  | offset target _ _ _ => target ≤ size
  | _ => True

theorem isRead_ofConstant {value : Int} {w : Width} (inRange : Bytes.InRange value w.bytes) :
    (ofConstant value w).IsRead := by
  rw [isRead_leaf (by intro _ _ _ h; cases h)]
  unfold ofConstant
  by_cases narrowest : w = .ofLiteral value
  · rw [if_pos narrowest]
    exact ⟨rfl, by simp, narrowest ▸ inRange⟩
  · rw [if_neg narrowest]
    exact ⟨rfl, by simpa using narrowest, inRange⟩

theorem eq_ofConstant {value : Int} {width : Option Width} {span : Option Span}
    (plain : (int value width span).Plain) :
    int value width span = ofConstant value (width.getD (.ofLiteral value)) := by
  obtain ⟨rfl, wider, -⟩ := plain
  cases width with
  | none => simp [ofConstant]
  | some w => simp_all [ofConstant]

end Operand

def StoresAll (stores : Nat → Slot → Operand → Bytes → Prop) :
    Nat → List Slot → List Operand → Bytes → Prop
  | _, [], [], bs => bs = []
  | index, slot :: slots, o :: os, bs => ∃ b b', bs = b ++ b' ∧ stores index slot o b ∧
      StoresAll stores (index + 1) slots os b'
  | _, _, _, _ => False

namespace Placement

variable (p : Placement)

def StoresExpr (o : Operand) (bs : Bytes) : Prop := ∃ code, p.lowerExpr o = .ok code ∧ code.Spells bs

def Stores (slot : Slot) (o : Operand) (bs : Bytes) : Prop :=
  ∃ code, p.lowerSlot slot o (p.lowerExpr o) = .ok code ∧ code.Spells bs

variable {p}

theorem lowerExpr_ofConstant {value : Int} {w : Width} (inRange : Bytes.InRange value w.bytes) :
    p.lowerExpr (.ofConstant value w) = .ok [.bytes (w.constant value)] := by
  have fits := Width.fits_of_inRange inRange
  have fitsLong : Bytes.fits value Width.long.bytes = true :=
    Width.fits_of_inRange (Width.inRange_mono inRange)
  unfold Operand.ofConstant
  by_cases narrowest : w = .ofLiteral value
  · rw [if_pos narrowest, lowerExpr, lowerInt]
    simp [fitsLong, narrowest]
  · rw [if_neg narrowest, lowerExpr, lowerInt]
    simp [fits]

theorem storesExpr_ofConstant {value : Int} {w : Width} (inRange : Bytes.InRange value w.bytes)
    {bs : Bytes} : p.StoresExpr (.ofConstant value w) bs ↔ bs = w.constant value := by
  simp [StoresExpr, lowerExpr_ofConstant inRange, ItemCode.spells_singleton]

theorem lowerPointer_offset {value : Int} {w : Width} {isElse : Bool} {span : Option Span}
    {code : ItemCode} : p.lowerPointer (.offset value (some w) isElse span) = .ok code ↔
      (0 ≤ value ∧ value < 2 ^ w.bits) ∧ code = [.bytes (w.constant value)] := by
  simp only [lowerPointer, Option.getD_some]
  split
  · rename_i fits
    simp [fits, eq_comm]
  · rename_i unfit
    simp [unfit, fail]

theorem storesExpr_offset {value : Int} {w : Width} {isElse : Bool} {span : Option Span}
    {bs : Bytes} : p.StoresExpr (.offset value (some w) isElse span) bs ↔
      (0 ≤ value ∧ value < 2 ^ w.bits) ∧ bs = Operator.addressCode :: w.constant value := by
  simp only [StoresExpr, lowerExpr, map_eq_ok, lowerPointer_offset]
  constructor
  · rintro ⟨_, ⟨_, ⟨fits, rfl⟩, rfl⟩, spells⟩
    obtain ⟨_, rfl, address⟩ := ItemCode.spells_cons.1 spells
    obtain rfl := ItemCode.spells_singleton.1 address
    exact ⟨fits, rfl⟩
  · rintro ⟨fits, rfl⟩
    exact ⟨_, ⟨_, ⟨fits, rfl⟩, rfl⟩, ItemCode.spells_cons.2 ⟨_, rfl, ItemCode.spells_singleton.2 rfl⟩⟩

theorem storesAll_iff_mapM {index : Nat} {slots : List Slot} {os : List Operand}
    (same : slots.length = os.length) {bs : Bytes} :
    StoresAll (fun _ => p.Stores) index slots os bs ↔ ∃ parts : List ItemCode,
      (List.zipWith (fun slot o => p.lowerSlot slot o (p.lowerExpr o)) slots os).mapM id = .ok parts ∧
        ItemCode.Spells parts.flatten bs := by
  induction slots generalizing index os bs with
  | nil =>
    obtain rfl := List.length_eq_zero_iff.1 same.symm
    simp [StoresAll, pure_eq_ok, ItemCode.spells_nil]
  | cons slot slots ih =>
    cases os with
    | nil => simp at same
    | cons o os =>
      simp only [StoresAll, ih (Nat.succ.inj same), Stores, List.zipWith_cons_cons, List.mapM_cons,
        id_eq, bind_eq_ok, pure_eq_ok]
      constructor
      · rintro ⟨b, b', rfl, ⟨code, stored, first⟩, parts, others, rest⟩
        refine ⟨_, ⟨code, stored, parts, others, rfl⟩, ?_⟩
        rw [List.flatten_cons]
        exact ItemCode.spells_append.2 ⟨b, b', rfl, first, rest⟩
      · rintro ⟨_, ⟨code, stored, parts, others, rfl⟩, spells⟩
        rw [List.flatten_cons] at spells
        obtain ⟨b, b', rfl, first, rest⟩ := ItemCode.spells_append.1 spells
        exact ⟨b, b', rfl, ⟨code, stored, first⟩, parts, others, rest⟩

theorem shapeOf_eq_ok {op : Operator} (member : op ∈ Operator.all) (proper : op.isProper = true)
    {args : List Operand} {shape : Shape} : op.shapeOf args = .ok shape ↔
      shape ∈ op.shapes ∧ List.Forall₂ (fun slot o => slot.accepts o = true) shape args := by
  unfold Operator.shapeOf
  rw [Shape.choose_eq_ok (Operator.regular member).separate Slot.not_accepts_of_exclusive]
  refine and_congr_right fun form => ?_
  have fixed : .variadic ∉ shape := fun variadic => by
    simpa [Slot.isArgument] using Operator.isArgument_of_mem member proper form variadic
  exact Shape.fits_fixed fixed

theorem lowerExpr_proper {op : Operator} (member : op ∈ Operator.all) (proper : op.isProper = true)
    {args : List Operand} {span : Option Span} {code : ItemCode} :
    p.lowerExpr (.expr op.name args span) = .ok code ↔ ∃ slots ∈ op.shapes,
      List.Forall₂ (fun slot o => slot.accepts o = true) slots args ∧ ∃ parts : List ItemCode,
        (if op.isReversed then (p.lowerArgs slots args).reverse else p.lowerArgs slots args).mapM id
          = .ok parts ∧ code = .bytes [op.code] :: parts.flatten := by
  rw [lowerExpr_operator p span fun _ _ _ _ => Operator.constantWidth?_eq_none member proper,
    Operator.ofName?_eq_some.2 ⟨member, rfl⟩]
  dsimp only
  constructor
  · intro lowered
    split at lowered
    · cases lowered
    · rename_i slots chosen
      obtain ⟨parts, stored, rfl⟩ := map_eq_ok.1 lowered
      obtain ⟨form, accepted⟩ := (shapeOf_eq_ok member proper).1 chosen
      exact ⟨slots, form, accepted, parts, stored, rfl⟩
  · rintro ⟨slots, form, accepted, parts, stored, rfl⟩
    rw [(shapeOf_eq_ok member proper).2 ⟨form, accepted⟩]
    exact map_eq_ok.2 ⟨parts, stored, rfl⟩

theorem storesExpr_operator {op : Operator} (member : op ∈ Operator.all)
    (proper : op.isProper = true) (inOrder : op.isReversed = false) {args : List Operand}
    {span : Option Span} {bs : Bytes} :
    p.StoresExpr (.expr op.name args span) bs ↔ ∃ slots ∈ op.shapes,
      List.Forall₂ (fun slot o => slot.accepts o = true) slots args ∧
        ∃ bs', bs = op.code :: bs' ∧ StoresAll (fun _ => p.Stores) 0 slots args bs' := by
  simp only [StoresExpr, lowerExpr_proper member proper, inOrder, lowerArgs_eq_zipWith]
  constructor
  · rintro ⟨_, ⟨slots, form, accepted, parts, stored, rfl⟩, spells⟩
    obtain ⟨bs', rfl, rest⟩ := ItemCode.spells_cons.1 spells
    exact ⟨slots, form, accepted, bs', rfl,
      (storesAll_iff_mapM accepted.length_eq).2 ⟨parts, stored, rest⟩⟩
  · rintro ⟨slots, form, accepted, bs', rfl, stored⟩
    obtain ⟨parts, stored, rest⟩ := (storesAll_iff_mapM accepted.length_eq).1 stored
    exact ⟨_, ⟨slots, form, accepted, parts, stored, rfl⟩, ItemCode.spells_cons.2 ⟨bs', rfl, rest⟩⟩

theorem storesExpr_reversed {op : Operator} (member : op ∈ Operator.all)
    (reversed : op.isReversed = true) {first second : Slot} (form : op.shapes = [[first, second]])
    {args : List Operand} {span : Option Span} {bs : Bytes} :
    p.StoresExpr (.expr op.name args span) bs ↔ ∃ a b, args = [a, b] ∧
      first.accepts a = true ∧ second.accepts b = true ∧ ∃ bs₁ bs₂,
        bs = op.code :: (bs₁ ++ bs₂) ∧ p.Stores second b bs₁ ∧ p.Stores first a bs₂ := by
  have proper := (Operator.shapes_of_isReversed member reversed).1
  simp only [StoresExpr, lowerExpr_proper member proper, reversed, lowerArgs_eq_zipWith, form,
    List.mem_singleton, exists_eq_left, if_true]
  constructor
  · rintro ⟨_, ⟨accepted, parts, stored, rfl⟩, spells⟩
    obtain ⟨a, _, first_, ⟨b, _, second_, empty, rfl⟩, rfl⟩ := by
      simpa only [List.forall₂_cons_left_iff, List.forall₂_nil_left_iff] using accepted
    subst empty
    simp only [List.zipWith_cons_cons, List.zipWith_nil_right, List.reverse_cons, List.reverse_nil,
      List.nil_append, List.cons_append, mapM_eq_ok, List.forall₂_cons_left_iff,
      List.forall₂_nil_left_iff, id_eq] at stored
    obtain ⟨code₁, _, stored₁, ⟨code₂, _, stored₂, rfl, rfl⟩, rfl⟩ := stored
    simp only [List.flatten_cons, List.flatten_nil, List.append_nil] at spells
    obtain ⟨_, rfl, rest⟩ := ItemCode.spells_cons.1 spells
    obtain ⟨bs₁, bs₂, rfl, spells₁, spells₂⟩ := ItemCode.spells_append.1 rest
    exact ⟨a, b, rfl, first_, second_, bs₁, bs₂, rfl, ⟨code₁, stored₁, spells₁⟩, code₂, stored₂, spells₂⟩
  · rintro ⟨a, b, rfl, first_, second_, bs₁, bs₂, rfl, ⟨code₁, stored₁, spells₁⟩, code₂, stored₂, spells₂⟩
    refine ⟨_, ⟨.cons first_ (.cons second_ .nil), [code₁, code₂], ?_, rfl⟩, ?_⟩
    · exact mapM_eq_ok.2 (.cons stored₁ (.cons stored₂ .nil))
    · simp only [List.flatten_cons, List.flatten_nil, List.append_nil]
      exact ItemCode.spells_cons.2 ⟨_, rfl, ItemCode.spells_append.2 ⟨_, _, rfl, spells₁, spells₂⟩⟩

/-- What an operand that is read can be, and how its bytes begin. -/
theorem storesExpr_cases {o : Operand} (isRead : o.IsRead) (notAtom : o.isAtom = false) {bs : Bytes}
    (stored : p.StoresExpr o bs) :
    (∃ (value : Int) (w : Width), o = .ofConstant value w ∧ Bytes.InRange value w.bytes ∧
      bs = w.constant value) ∨
    (∃ (target : Nat) (w : Width) (isElse : Bool), o = .offset target (some w) isElse none ∧
      target < 2 ^ w.bits ∧ bs = Operator.addressCode :: w.constant target) ∨
    ∃ op ∈ Operator.all, op.isProper = true ∧ ∃ args, o = .expr op.name args none ∧
      ∃ bs', bs = op.code :: bs' := by
  have plain := isRead _ (Operand.mem_walk_self _)
  cases o
  case int value width span =>
    rw [Operand.eq_ofConstant plain] at stored ⊢
    exact .inl ⟨value, _, rfl, plain.2.2, (storesExpr_ofConstant plain.2.2).1 stored⟩
  case offset value width isElse span =>
    obtain ⟨rfl, w, rfl, nonneg, fits⟩ := plain
    obtain ⟨target, rfl⟩ := Int.eq_ofNat_of_zero_le nonneg
    obtain ⟨-, rfl⟩ := storesExpr_offset.1 stored
    exact .inr (.inl ⟨target, w, isElse, rfl, by exact_mod_cast fits, rfl⟩)
  case expr op args span =>
    obtain ⟨rfl, known⟩ := plain
    obtain ⟨operator, found, proper⟩ := (Option.any_eq_true ..).1 known
    obtain ⟨member, rfl⟩ := Operator.ofName?_eq_some.1 found
    obtain ⟨code, lowered, spells⟩ := stored
    obtain ⟨_, _, _, _, _, rfl⟩ := (lowerExpr_proper member proper).1 lowered
    obtain ⟨bs', rfl, -⟩ := ItemCode.spells_cons.1 spells
    exact .inr (.inr ⟨operator, member, proper, args, rfl, bs', rfl⟩)
  case label => exact plain.elim
  case atom => cases notAtom
  all_goals
    obtain ⟨code, lowered, -⟩ := stored
    rw [lowerExpr] at lowered
    cases lowered

end Placement

theorem Slot.isElse_of_accepts {slot : Slot} (notElse : slot ≠ .elsePointer) {o : Operand}
    (accepted : slot.accepts o = true) : o.isElse = false := by
  cases o <;> first | rfl | skip
  all_goals
    cases slot <;> simp_all [Slot.accepts, Operand.isExpression, Operand.isElse]

theorem Slot.isAtom_of_accepts {slot : Slot} (notSelector : slot.isSelector = false) {o : Operand}
    (accepted : slot.accepts o = true) : o.isAtom = false := by
  cases o <;> first | rfl | skip
  cases slot <;> simp_all [Slot.accepts, Slot.isSelector, Operand.isExpression, Operand.isReference]

def Slot.leadsToCode : Slot → Bool
  | pointer | elsePointer | expr .event => true
  | _ => false

/-- The operand can be read in this slot of a command or an operator, from a buffer of `size`
bytes. -/
structure Slot.Admits (size : Nat) (slot : Slot) (o : Operand) : Prop where
  accepts : slot.accepts o = true
  isRead : o.IsRead
  isElse : slot = .elsePointer → o.isElse = true
  within : slot.leadsToCode = true → o.Within size

namespace Decoder

theorem reads_checked {α : Type} {d : Decoder α} {test : α → Bool} {cause : DecodeCause}
    {place : Nat} {c c' : Cursor} {a : α} :
    (do let a ← d
        if !test a then
          fail cause place
          return a
        else return a : Decoder α).Reads c a c' ↔ test a = true ∧ d.Reads c a c' := by
  simp only [reads_bind]
  constructor
  · rintro ⟨a', c₁, read, h⟩
    cases passed : test a' with
    | false =>
      simp only [passed, Bool.not_false, if_true, reads_bind, reads_fail, false_and,
        exists_false] at h
    | true =>
      simp only [passed, Bool.not_true, Bool.false_eq_true, if_false, reads_pure] at h
      obtain ⟨rfl, rfl⟩ := h
      exact ⟨passed, read⟩
  · rintro ⟨passed, read⟩
    exact ⟨a, c', read, by simp [passed, reads_pure]⟩

def unchecked (size : Nat) (expression : Slot → Decoder Operand) : Slot → Decoder Operand
  | .pointer => pointer size true false
  | .elsePointer => pointer size true true
  | .integer => literal
  | .text => do return .text (← takeUntil 0) none
  | slot => expression slot

theorem reads_operandWith {size : Nat} {expression : Slot → Decoder Operand} {name : String}
    {index : Nat} {slot : Slot} {c c' : Cursor} {o : Operand} :
    (operandWith size expression name index slot).Reads c o c' ↔
      slot.accepts o = true ∧ (unchecked size expression slot).Reads c o c' := by
  unfold operandWith
  simp only [reads_bind, reads_offset]
  have text (bytes : Bytes) : Slot.text.accepts (.text bytes none) = true := rfl
  constructor
  · rintro ⟨_, _, ⟨rfl, rfl⟩, h⟩
    cases slot
    case text =>
      obtain ⟨bytes, c₁, read, same⟩ := reads_bind.1 h
      obtain ⟨rfl, rfl⟩ := reads_pure.1 same
      exact ⟨text bytes, h⟩
    all_goals exact reads_checked.1 h
  · intro h
    refine ⟨_, _, ⟨rfl, rfl⟩, ?_⟩
    cases slot
    case text => exact h.2
    all_goals exact reads_checked.2 h

def ReadsExpressions (size : Nat) (expression : Slot → Decoder Operand) (p : Placement)
    (c : Cursor) : Prop :=
  ∀ slot o c', (expression slot).Reads c o c' ↔ o.IsRead ∧ o.isAtom = false ∧ o.isElse = false ∧
    (slot = .expr .event → o.Within size) ∧ ∃ bs, p.StoresExpr o bs ∧ c.Advances bs c'

section Slots

variable {size : Nat} {expression : Slot → Decoder Operand} {p : Placement} {c c' : Cursor}
  {name : String} {index : Nat} {o : Operand}

theorem readsSlot_of_not_selector {slot : Slot} (plain : slot.isSelector = false) :
    (readingWith size expression name).ReadsSlot index slot c o c' ↔
      slot.accepts o = true ∧ (unchecked size expression slot).Reads c o c' := by
  rw [Reading.readsSlot_operand _ plain]
  exact reads_operandWith

theorem readsSlot_of_selector {slot : Slot} (selector : slot.isSelector = true) :
    (readingWith size expression name).ReadsSlot index slot c o c' ↔ ∃ value width,
      (Bytes.InRange value width.bytes ∧ c.Advances (width.constant value) c') ∧
        slot.selectedBy value width = true ∧
          o = (readingWith size expression name).selected slot value width := by
  rw [Reading.readsSlot_selector _ selector]
  exact exists_congr fun value => exists_congr fun width => and_congr_left' reads_signed

theorem readsSlot_pointer {isElse : Bool} {slot : Slot}
    (kind : slot = .pointer ∧ isElse = false ∨ slot = .elsePointer ∧ isElse = true) :
    (slot.accepts o = true ∧ (pointer size true isElse).Reads c o c') ↔
      slot.Admits size o ∧ ∃ bs, p.Stores slot o bs ∧ c.Advances bs c' := by
  have lowered : p.lowerSlot slot o (p.lowerExpr o) = p.lowerPointer o := by
    rcases kind with ⟨rfl, -⟩ | ⟨rfl, -⟩ <;> rfl
  have leads : slot.leadsToCode = true := by rcases kind with ⟨rfl, -⟩ | ⟨rfl, -⟩ <;> rfl
  simp only [reads_pointer, Placement.Stores, lowered]
  constructor
  · rintro ⟨accepted, target, w, rfl, fits, inside, advance⟩
    refine ⟨⟨accepted, ?_, ?_, ?_⟩, _, ⟨_, Placement.lowerPointer_offset.2 ⟨⟨?_, ?_⟩, rfl⟩,
      ItemCode.spells_singleton.2 rfl⟩, advance⟩
    · rw [Operand.isRead_leaf (by intro _ _ _ h; cases h)]
      exact ⟨rfl, w, rfl, Int.natCast_nonneg _, by exact_mod_cast fits⟩
    · rintro rfl
      rcases kind with ⟨same, -⟩ | ⟨-, rfl⟩
      · cases same
      · rfl
    · exact fun _ => by simpa [Operand.Within] using inside
    · exact Int.natCast_nonneg _
    · exact_mod_cast fits
  · rintro ⟨⟨accepted, isRead, marked, within⟩, bs, ⟨code, stored, spells⟩, advance⟩
    refine ⟨accepted, ?_⟩
    have isRef : o.isReference = true := by
      rcases kind with ⟨rfl, -⟩ | ⟨rfl, -⟩ <;> simp_all [Slot.accepts]
    cases o <;> simp only [Operand.isReference, Bool.false_eq_true] at isRef
    case label => exact (isRead _ (Operand.mem_walk_self _)).elim
    case offset value width e span =>
      obtain ⟨rfl, w, rfl, nonneg, fits⟩ := isRead _ (Operand.mem_walk_self _)
      obtain ⟨target, rfl⟩ := Int.eq_ofNat_of_zero_le nonneg
      obtain ⟨-, rfl⟩ := Placement.lowerPointer_offset.1 stored
      obtain rfl := ItemCode.spells_singleton.1 spells
      refine ⟨target, w, ?_, by exact_mod_cast fits, fun _ => ?_, advance⟩
      · congr 1
        rcases kind with ⟨rfl, rfl⟩ | ⟨rfl, rfl⟩
        · simpa [Slot.accepts, Operand.isReference, Operand.isElse] using accepted
        · exact marked rfl
      · simpa [Operand.Within] using within leads

theorem readsSlot_literal {slot : Slot} (only : ∀ o, slot.accepts o = true → o.isInt = true)
    (lowered : ∀ o, p.lowerSlot slot o (p.lowerExpr o) = p.lowerExpr o)
    (marked : slot ≠ .elsePointer) (leads : slot.leadsToCode = false) :
    (slot.accepts o = true ∧ literal.Reads c o c') ↔
      slot.Admits size o ∧ ∃ bs, p.Stores slot o bs ∧ c.Advances bs c' := by
  have stores (bs : Bytes) : p.Stores slot o bs ↔ p.StoresExpr o bs := by
    simp only [Placement.Stores, lowered, Placement.StoresExpr]
  simp only [reads_literal, stores]
  constructor
  · rintro ⟨accepted, value, w, rfl, inRange, advance⟩
    exact ⟨⟨accepted, Operand.isRead_ofConstant inRange, fun same => absurd same marked,
      by simp [leads]⟩, _, (Placement.storesExpr_ofConstant inRange).2 rfl, advance⟩
  · rintro ⟨⟨accepted, isRead, -, -⟩, bs, stored, advance⟩
    refine ⟨accepted, ?_⟩
    have isInt := only o accepted
    cases o <;> simp only [Operand.isInt, Bool.false_eq_true] at isInt
    case int value width span =>
      have plain := isRead _ (Operand.mem_walk_self _)
      have inRange := plain.2.2
      rw [Operand.eq_ofConstant plain] at stored ⊢
      obtain rfl := (Placement.storesExpr_ofConstant inRange).1 stored
      exact ⟨value, _, rfl, inRange, advance⟩

theorem readsSlot_expression (expressions : ReadsExpressions size expression p c) {slot : Slot}
    (lowered : p.lowerSlot slot o (p.lowerExpr o) = p.lowerExpr o) (notSelector : slot.isSelector = false)
    (marked : slot ≠ .elsePointer) (leads : slot.leadsToCode = true ↔ slot = .expr .event) :
    (slot.accepts o = true ∧ (expression slot).Reads c o c') ↔
      slot.Admits size o ∧ ∃ bs, p.Stores slot o bs ∧ c.Advances bs c' := by
  have stores (bs : Bytes) : p.Stores slot o bs ↔ p.StoresExpr o bs := by
    simp only [Placement.Stores, lowered, Placement.StoresExpr]
  rw [expressions slot o c']
  simp only [stores]
  constructor
  · rintro ⟨accepted, isRead, -, -, within, stored⟩
    exact ⟨⟨accepted, isRead, fun same => absurd same marked, fun code => within (leads.1 code)⟩,
      stored⟩
  · rintro ⟨⟨accepted, isRead, -, within⟩, stored⟩
    exact ⟨accepted, isRead, Slot.isAtom_of_accepts notSelector accepted, Slot.isElse_of_accepts marked accepted,
      fun event => within (leads.2 event), stored⟩

/-- An operand is read in its slot from exactly the bytes that it is stored in there. -/
theorem readsSlot_iff (expressions : ReadsExpressions size expression p c) {slot : Slot} :
    (readingWith size expression name).ReadsSlot index slot c o c' ↔
      slot.Admits size o ∧ ∃ bs, p.Stores slot o bs ∧ c.Advances bs c' := by
  cases slot
  case atom a =>
    rw [readsSlot_of_selector rfl]
    constructor
    · rintro ⟨value, width, ⟨-, advance⟩, selected, rfl⟩
      simp only [Slot.selectedBy, Bool.and_eq_true, beq_iff_eq] at selected
      obtain ⟨rfl, rfl⟩ := selected
      refine ⟨⟨by simp [Reading.selected, Slot.accepts], ?_, by simp, by simp [Slot.leadsToCode]⟩,
        _, ⟨_, rfl, ItemCode.spells_singleton.2 rfl⟩, advance⟩
      rw [Operand.isRead_leaf (by intro _ _ _ h; cases h)]
      rfl
    · rintro ⟨⟨accepted, isRead, -, -⟩, bs, ⟨code, stored, spells⟩, advance⟩
      cases stored
      obtain rfl := ItemCode.spells_singleton.1 spells
      have inRange : Bytes.InRange a.code Width.long.bytes := by
        have bound : a.ctorIdx < 53 := by cases a <;> decide
        simp only [Bytes.InRange, Width.bytes, Atom.code, Atom.firstCode]
        omega
      refine ⟨a.code, .long, ⟨inRange, advance⟩, by simp [Slot.selectedBy], ?_⟩
      cases o <;> simp only [Slot.accepts, Bool.false_eq_true, beq_iff_eq] at accepted
      case atom name span =>
        have plain : span = none := isRead _ (Operand.mem_walk_self _)
        rw [plain, accepted]
        rfl
  case literal v =>
    rw [← readsSlot_literal (fun o accepted => by cases o <;> first | rfl | cases accepted)
      (fun o => rfl) (by simp) rfl, readsSlot_of_selector rfl, reads_literal]
    constructor
    · rintro ⟨value, width, ⟨inRange, advance⟩, selected, rfl⟩
      obtain rfl : value = v := by simpa [Slot.selectedBy] using selected
      exact ⟨by simp [Reading.selected, readingWith, Operand.ofConstant, Slot.accepts],
        value, width, rfl, inRange, advance⟩
    · rintro ⟨accepted, value, w, rfl, inRange, advance⟩
      obtain rfl : value = v := by simpa [Operand.ofConstant, Slot.accepts] using accepted
      exact ⟨value, w, ⟨inRange, advance⟩, by simp [Slot.selectedBy], rfl⟩
  case pointer =>
    rw [readsSlot_of_not_selector rfl]
    exact readsSlot_pointer (.inl ⟨rfl, rfl⟩)
  case elsePointer =>
    rw [readsSlot_of_not_selector rfl]
    exact readsSlot_pointer (.inr ⟨rfl, rfl⟩)
  case integer =>
    rw [readsSlot_of_not_selector rfl]
    exact readsSlot_literal (fun o accepted => by cases o <;> first | rfl | cases accepted)
      (fun o => rfl) (by simp) rfl
  case text =>
    rw [readsSlot_of_not_selector rfl]
    simp only [unchecked, reads_bind, reads_takeUntil, reads_pure]
    constructor
    · rintro ⟨accepted, bytes, _, ⟨noZero, advance⟩, rfl, rfl⟩
      refine ⟨⟨accepted, ?_, by simp, by simp [Slot.leadsToCode]⟩, _, ⟨_, ?_,
        ItemCode.spells_singleton.2 rfl⟩, advance⟩
      · rw [Operand.isRead_leaf (by intro _ _ _ h; cases h)]
        rfl
      · simp [Placement.lowerSlot, noZero]
    · rintro ⟨⟨accepted, isRead, -, -⟩, bs, ⟨code, stored, spells⟩, advance⟩
      refine ⟨accepted, ?_⟩
      cases o <;> simp only [Slot.accepts, Bool.false_eq_true] at accepted
      case text bytes span =>
        obtain rfl : span = none := isRead _ (Operand.mem_walk_self _)
        by_cases zero : 0 ∈ bytes
        · simp [Placement.lowerSlot, zero, Placement.fail] at stored
        · simp only [Placement.lowerSlot, List.contains_iff_mem, zero, if_false, Except.ok.injEq] at stored
          subst stored
          obtain rfl := ItemCode.spells_singleton.1 spells
          exact ⟨bytes, c', ⟨zero, advance⟩, rfl, rfl⟩
  case expr kind =>
    rw [readsSlot_of_not_selector rfl]
    exact readsSlot_expression expressions rfl rfl (by simp) (by cases kind <;> simp [Slot.leadsToCode])
  all_goals
    rw [readsSlot_of_not_selector rfl]
    exact readsSlot_expression expressions rfl rfl (by simp) (by simp [Slot.leadsToCode])

end Slots

theorem Reading.readsSlots_iff {reading : Reading} {admits : Slot → Operand → Prop}
    {stores : Nat → Slot → Operand → Bytes → Prop} {depth : Nat}
    {index : Nat} {slots : List Slot} {c c' : Cursor} {os : List Operand}
    (step : ∀ index, ∀ slot ∈ slots, ∀ c o c', c.rest.length ≤ depth →
      (reading.ReadsSlot index slot c o c' ↔
        admits slot o ∧ ∃ bs, stores index slot o bs ∧ c.Advances bs c'))
    (enough : c.rest.length ≤ depth) :
    reading.ReadsSlots index slots c os c' ↔ List.Forall₂ admits slots os ∧
      ∃ bs, StoresAll stores index slots os bs ∧ c.Advances bs c' := by
  induction slots generalizing index c os with
  | nil =>
    rw [Reading.readsSlots_nil, List.forall₂_nil_left_iff]
    refine and_congr_right fun empty => ?_
    subst empty
    simp [StoresAll, Cursor.advances_nil]
  | cons slot slots ih =>
    rw [Reading.readsSlots_cons]
    have here := step index slot List.mem_cons_self
    have later := fun index slot member => step index slot (List.mem_cons_of_mem _ member)
    constructor
    · rintro ⟨o, os, c₁, rfl, first, rest⟩
      obtain ⟨admitted, b, stored, advance⟩ := (here _ _ _ enough).1 first
      obtain ⟨others, b', stored', advance'⟩ := (ih later (advance.length_le.trans enough)).1 rest
      exact ⟨.cons admitted others, b ++ b', ⟨b, b', rfl, stored, stored'⟩, advance.trans advance'⟩
    · rintro ⟨admitted, bs, stored, advance⟩
      obtain ⟨o, os, first, others, rfl⟩ := List.forall₂_cons_left_iff.1 admitted
      obtain ⟨b, b', rfl, stored, stored'⟩ := stored
      obtain ⟨c₁, advance, advance'⟩ := Cursor.advances_append.1 advance
      exact ⟨o, os, c₁, rfl, (here _ _ _ enough).2 ⟨first, b, stored, advance⟩,
        (ih later (advance.length_le.trans enough)).2 ⟨others, b', stored', advance'⟩⟩

def ReadsArguments (size depth : Nat) (op : Operator) (c : Cursor) (args : List Operand)
    (c' : Cursor) : Prop :=
  let reading := readingWith size (expression size depth) op.name
  if op.isReversed then
    ((op.shapes.head?.getD []).zipIdx.reverse.mapM fun (slot, index) =>
      reading.operand index slot).Reads c args.reverse c'
  else ∃ rest, (walkShapes reading op.name op.shapes).Reads c (args, rest) c'

theorem reads_expression_of_tag {size depth : Nat} {slot : Slot} {c c' : Cursor} {o : Operand}
    (tagged : (c.rest.head?.bind Width.ofTag?).isSome = true) :
    (expression size (depth + 1) slot).Reads c o c' ↔ literal.Reads c o c' := by
  rw [expression]
  simp only [reads_bind, reads_offset, reads_get]
  constructor
  · rintro ⟨_, _, ⟨rfl, rfl⟩, _, _, ⟨rfl, rfl⟩, h⟩
    rwa [if_pos tagged] at h
  · intro h
    exact ⟨_, _, ⟨rfl, rfl⟩, _, _, ⟨rfl, rfl⟩, by rwa [if_pos tagged]⟩

theorem reads_expression_of_code {size depth : Nat} {slot : Slot} {c c' : Cursor} {o : Operand}
    (untagged : ¬ (c.rest.head?.bind Width.ofTag?).isSome = true) :
    (expression size (depth + 1) slot).Reads c o c' ↔ ∃ code c₁, c.Advances [code] c₁ ∧
      if code = Operator.addressCode then (pointer size (slot == .expr .event) false).Reads c₁ o c'
      else ∃ op args, Operator.ofCode? code = some op ∧ o = .expr op.name args none ∧
        ReadsArguments size depth op c₁ args c' := by
  rw [expression]
  simp only [reads_bind, reads_offset, reads_get]
  constructor
  · rintro ⟨_, _, ⟨rfl, rfl⟩, _, _, ⟨rfl, rfl⟩, h⟩
    rw [if_neg untagged] at h
    obtain ⟨code, c₁, first, h⟩ := reads_bind.1 h
    refine ⟨code, c₁, reads_byte.1 first, ?_⟩
    simp only [beq_iff_eq] at h
    split_ifs at h ⊢
    · exact h
    · cases found : Operator.ofCode? code with
      | none => simp only [found, reads_fail] at h
      | some op =>
        simp only [found] at h
        by_cases reversed : op.isReversed = true
        · simp only [reversed, if_true, reads_bind, reads_pure] at h
          obtain ⟨stored, _, read, rfl, rfl⟩ := h
          exact ⟨op, _, rfl, rfl, by simpa [ReadsArguments, reversed] using read⟩
        · rw [if_neg reversed, reads_bind] at h
          simp only [reads_pure, Prod.exists] at h
          obtain ⟨args, rest, _, read, rfl, rfl⟩ := h
          exact ⟨op, args, rfl, rfl, by simpa [ReadsArguments, reversed] using ⟨rest, read⟩⟩
  · rintro ⟨code, c₁, first, h⟩
    refine ⟨_, _, ⟨rfl, rfl⟩, _, _, ⟨rfl, rfl⟩, ?_⟩
    rw [if_neg untagged, reads_bind]
    refine ⟨code, c₁, reads_byte.2 first, ?_⟩
    simp only [beq_iff_eq]
    split_ifs at h ⊢
    · exact h
    · obtain ⟨op, args, found, rfl, read⟩ := h
      simp only [found]
      by_cases reversed : op.isReversed = true
      · simp only [ReadsArguments, reversed, if_true] at read ⊢
        exact reads_bind.2 ⟨_, _, read, reads_pure.2 ⟨by simp, rfl⟩⟩
      · simp only [ReadsArguments, reversed] at read ⊢
        obtain ⟨rest, read⟩ := read
        exact reads_bind.2 ⟨_, _, read, reads_pure.2 ⟨rfl, rfl⟩⟩

theorem admits_argument {size : Nat} {slot : Slot} (argument : slot.isArgument = true)
    {o : Operand} : slot.Admits size o ↔ slot.accepts o = true ∧ o.IsRead := by
  refine ⟨fun h => ⟨h.accepts, h.isRead⟩, fun h => ⟨h.1, h.2, ?_, ?_⟩⟩
  · rintro rfl
    cases argument
  · intro leads
    cases slot <;> simp_all [Slot.isArgument, Slot.leadsToCode]

theorem forall₂_admits_arguments (size : Nat) {slots : List Slot}
    (arguments : ∀ slot ∈ slots, slot.isArgument = true) {os : List Operand} :
    List.Forall₂ (Slot.Admits size) slots os ↔
      List.Forall₂ (fun slot o => slot.accepts o = true) slots os ∧ ∀ o ∈ os, o.IsRead := by
  rw [← forall₂_and_right]
  exact forall₂_congr_left fun slot member o => admits_argument (arguments slot member)

section Arguments

variable {size depth : Nat} {p : Placement} {op : Operator} {c c' : Cursor} {args : List Operand}

theorem readsArguments_reversed (reversed : op.isReversed = true) {slot : Slot}
    (plain : slot.isSelector = false) (form : op.shapes = [[slot, Operator.operand]]) :
    ReadsArguments size depth op c args c' ↔ ∃ a b c₁, args = [a, b] ∧
      (readingWith size (expression size depth) op.name).ReadsSlot 1 Operator.operand c b c₁ ∧
        (readingWith size (expression size depth) op.name).ReadsSlot 0 slot c₁ a c' := by
  have second : Operator.operand.isSelector = false := rfl
  simp only [ReadsArguments, reversed, if_true, form, List.head?_cons, Option.getD_some,
    List.zipIdx_cons, List.zipIdx_nil, List.reverse_cons, List.reverse_nil, List.nil_append,
    List.cons_append, List.mapM_cons, List.mapM_nil, reads_bind, reads_pure,
    Reading.readsSlot_operand _ plain, Reading.readsSlot_operand _ second]
  constructor
  · rintro ⟨b, c₁, read₁, _, _, ⟨a, c₂, read₂, _, _, ⟨rfl, rfl⟩, rfl, rfl⟩, same, rfl⟩
    refine ⟨a, b, c₁, ?_, read₁, read₂⟩
    rw [← List.reverse_reverse args, ← same]
    rfl
  · rintro ⟨a, b, c₁, rfl, read₁, read₂⟩
    exact ⟨b, c₁, read₁, _, _, ⟨a, c', read₂, _, _, ⟨rfl, rfl⟩, rfl, rfl⟩, rfl, rfl⟩

theorem readsArguments_iff (member : op ∈ Operator.all) (proper : op.isProper = true)
    (expressions : ∀ c : Cursor, c.rest.length ≤ depth →
      ReadsExpressions size (expression size depth) p c) (enough : c.rest.length ≤ depth) :
    ReadsArguments size depth op c args c' ↔ (∀ a ∈ args, a.IsRead) ∧
      ∃ bs, p.StoresExpr (.expr op.name args none) (op.code :: bs) ∧ c.Advances bs c' := by
  by_cases reversed : op.isReversed = true
  · obtain ⟨-, slot, plain, form⟩ := Operator.shapes_of_isReversed member reversed
    have argument : slot.isArgument = true :=
      Operator.isArgument_of_mem member proper (by rw [form]; exact List.mem_singleton_self _)
        List.mem_cons_self
    rw [readsArguments_reversed reversed plain form]
    simp only [Placement.storesExpr_reversed member reversed form]
    constructor
    · rintro ⟨a, b, c₁, rfl, second, first⟩
      obtain ⟨admits₂, bs₁, stored₁, advance⟩ := (readsSlot_iff (expressions c enough)).1 second
      have enough' := advance.length_le.trans enough
      obtain ⟨admits₁, bs₂, stored₂, advance'⟩ := (readsSlot_iff (expressions c₁ enough')).1 first
      refine ⟨by simp [admits₁.isRead, admits₂.isRead], bs₁ ++ bs₂, ?_, advance.trans advance'⟩
      exact ⟨a, b, rfl, admits₁.accepts, admits₂.accepts, bs₁, bs₂, rfl, stored₁, stored₂⟩
    · rintro ⟨isRead, bs, ⟨a, b, rfl, accepts₁, accepts₂, bs₁, bs₂, same, stored₁, stored₂⟩, advance⟩
      obtain ⟨-, rfl⟩ := List.cons.inj same
      obtain ⟨c₁, advance, advance'⟩ := Cursor.advances_append.1 advance
      have enough' := advance.length_le.trans enough
      refine ⟨a, b, c₁, rfl, (readsSlot_iff (expressions c enough)).2 ⟨?_, bs₁, stored₁, advance⟩,
        (readsSlot_iff (expressions c₁ enough')).2 ⟨?_, bs₂, stored₂, advance'⟩⟩
      · exact (admits_argument rfl).2 ⟨accepts₂, isRead b (by simp)⟩
      · exact (admits_argument argument).2 ⟨accepts₁, isRead a (by simp)⟩
  · unfold ReadsArguments
    rw [if_neg reversed]
    have inOrder : op.isReversed = false := by simpa using reversed
    simp only [reads_walkShapes (Operator.regular member), Placement.storesExpr_operator member proper inOrder]
    have arguments (slots : Shape) (form : slots ∈ op.shapes) : ∀ slot ∈ slots, slot.isArgument = true :=
      fun slot inside => Operator.isArgument_of_mem member proper form inside
    have slotwise (slots : Shape) (form : slots ∈ op.shapes) :
        (readingWith size (expression size depth) op.name).ReadsSlots 0 slots c args c' ↔
          (List.Forall₂ (fun slot o => slot.accepts o = true) slots args ∧ ∀ a ∈ args, a.IsRead) ∧
            ∃ bs, StoresAll (fun _ => p.Stores) 0 slots args bs ∧ c.Advances bs c' := by
      rw [← forall₂_admits_arguments size (arguments slots form)]
      exact Reading.readsSlots_iff (fun _ _ _ c _ _ bound => readsSlot_iff (expressions c bound)) enough
    constructor
    · rintro ⟨rest, slots, form, tail, fixed, read⟩
      obtain rfl : rest = [] := by
        rcases tail with rfl | rfl
        · rfl
        · have := arguments _ form .variadic (by simp)
          cases this
      rw [List.append_nil] at form
      obtain ⟨⟨accepted, isRead⟩, bs, stored, advance⟩ := (slotwise slots form).1 read
      exact ⟨isRead, bs, ⟨slots, form, accepted, bs, rfl, stored⟩, advance⟩
    · rintro ⟨isRead, bs, ⟨slots, form, accepted, bs', same, stored⟩, advance⟩
      obtain ⟨-, rfl⟩ := List.cons.inj same
      refine ⟨[], slots, by rwa [List.append_nil], .inl rfl, fun variadic => ?_,
        (slotwise slots form).2 ⟨⟨accepted, isRead⟩, bs, stored, advance⟩⟩
      have := arguments slots form .variadic variadic
      cases this

end Arguments

/-- An expression is read from exactly the bytes that it is stored in. -/
theorem reads_expression {size depth : Nat} {p : Placement} {c : Cursor}
    (enough : c.rest.length ≤ depth) : ReadsExpressions size (expression size depth) p c := by
  -- The depth bounds the bytes that are left: an operator takes one, so its arguments need less.
  induction depth generalizing c with
  | zero =>
    intro slot o c'
    refine iff_of_false ?_ ?_
    · rw [expression]
      simp only [reads_bind, reads_fail, and_false, exists_false, not_false_eq_true]
    · rintro ⟨isRead, notAtom, -, -, bs, stored, advance⟩
      have empty : bs = [] := by
        have := advance.rest
        rw [List.length_eq_zero_iff.1 (Nat.le_zero.1 enough)] at this
        exact (List.append_eq_nil_iff.1 this.symm).1
      rcases Placement.storesExpr_cases isRead notAtom stored with
        ⟨_, _, -, -, same⟩ | ⟨_, _, _, -, -, same⟩ | ⟨_, -, -, _, -, _, same⟩ <;>
        simp [empty, Width.constant] at same
  | succ depth ih =>
    intro slot o c'
    have expressions : ∀ c : Cursor, c.rest.length ≤ depth →
        ReadsExpressions size (expression size depth) p c := fun c bound => ih bound
    have shorter {code : UInt8} {c₁ : Cursor} (first : c.Advances [code] c₁) : c₁.rest.length ≤ depth := by
      have := first.length_succ
      omega
    by_cases tagged : (c.rest.head?.bind Width.ofTag?).isSome = true
    · rw [reads_expression_of_tag tagged, reads_literal]
      constructor
      · rintro ⟨value, w, rfl, inRange, advance⟩
        exact ⟨Operand.isRead_ofConstant inRange, rfl, rfl, fun _ => trivial, _,
          (Placement.storesExpr_ofConstant inRange).2 rfl, advance⟩
      · rintro ⟨isRead, notAtom, -, -, bs, stored, advance⟩
        rcases Placement.storesExpr_cases isRead notAtom stored with
          ⟨value, w, rfl, inRange, rfl⟩ | ⟨_, _, _, -, -, rfl⟩ | ⟨op, member, proper, _, -, _, rfl⟩
        · exact ⟨value, w, rfl, inRange, advance⟩
        · simp [advance.rest, Operator.addressCode, Width.ofTag?] at tagged
        · simp [advance.rest, ((Operator.isProper_iff member).1 proper).1] at tagged
    · rw [reads_expression_of_code tagged]
      constructor
      · rintro ⟨code, c₁, first, h⟩
        split_ifs at h with address
        · obtain ⟨target, w, rfl, fits, inside, advance⟩ := reads_pointer.1 h
          refine ⟨?_, rfl, rfl, fun event => ?_, _, Placement.storesExpr_offset.2 ⟨⟨?_, ?_⟩, rfl⟩,
            address ▸ first.trans advance⟩
          · rw [Operand.isRead_leaf (by intro _ _ _ h; cases h)]
            exact ⟨rfl, w, rfl, Int.natCast_nonneg _, by exact_mod_cast fits⟩
          · simpa [Operand.Within] using inside (by simp [event])
          · exact Int.natCast_nonneg _
          · exact_mod_cast fits
        · obtain ⟨op, args, found, rfl, read⟩ := h
          obtain ⟨member, rfl⟩ := Operator.ofCode?_eq_some.1 found
          have untagged : Width.ofTag? op.code = none := by
            simpa [first.rest] using tagged
          have proper := (Operator.isProper_iff member).2 ⟨untagged, address⟩
          obtain ⟨isRead, bs, stored, advance⟩ :=
            (readsArguments_iff member proper expressions (shorter first)).1 read
          refine ⟨Operand.isRead_expr.2 ⟨⟨rfl, ?_⟩, isRead⟩, rfl, rfl, fun _ => trivial, _, stored,
            first.trans advance⟩
          rw [Operator.ofName?_eq_some.2 ⟨member, rfl⟩]
          simpa using proper
      · rintro ⟨isRead, notAtom, notElse, within, bs, stored, advance⟩
        rcases Placement.storesExpr_cases isRead notAtom stored with
          ⟨_, w, -, -, rfl⟩ | ⟨target, w, isElse, rfl, fits, rfl⟩ | ⟨op, member, proper, args, rfl, bs', rfl⟩
        · simp [advance.rest, Width.constant, Width.ofTag?_tag] at tagged
        · obtain ⟨c₁, first, rest⟩ := Cursor.advances_cons.1 advance
          refine ⟨_, c₁, first, ?_⟩
          rw [if_pos rfl]
          obtain rfl : isElse = false := notElse
          refine reads_pointer.2 ⟨target, w, rfl, fits, fun event => ?_, rest⟩
          simpa [Operand.Within] using within (by simpa using event)
        · obtain ⟨c₁, first, rest⟩ := Cursor.advances_cons.1 advance
          refine ⟨op.code, c₁, first, ?_⟩
          rw [if_neg ((Operator.isProper_iff member).1 proper).2]
          exact ⟨op, args, Operator.ofCode?_eq_some.2 ⟨member, rfl⟩, rfl,
            (readsArguments_iff member proper expressions (shorter first)).2
              ⟨(Operand.isRead_expr.1 isRead).2, bs', stored, rest⟩⟩

end Decoder

end EventScript
