import EventScript.Bytecode.Lower
import EventScript.Proofs.Outcome

namespace EventScript

namespace Operand

/-- Induction over expressions; messages are not looked into. -/
theorem expr_induction {P : Operand → Prop}
    (leaf : ∀ o, (∀ op args span, o ≠ .expr op args span) → P o)
    (expr : ∀ op args span, (∀ o ∈ args, P o) → P (.expr op args span)) (o : Operand) : P o := by
  match o with
  | .expr op args span => exact expr op args span fun a _ => expr_induction leaf expr a
  | .int .. | .atom .. | .text .. | .label .. | .offset .. | .message .. =>
    exact leaf _ (by intro _ _ _ h; cases h)
termination_by sizeOf o
decreasing_by
  have := List.sizeOf_lt_of_mem ‹_ ∈ args›
  simp only [Operand.expr.sizeOf_spec]
  omega

theorem isTerminator_expr {op : String} {args : List Operand} {span : Option Span} :
    (expr op args span).isTerminator = true ↔ ∃ value width argSpan,
      args = [int value width argSpan] ∧ op = "i8" ∧ (value = -1 ∨ value = 255) := by
  match args with
  | [] | _ :: _ :: _ => simp [isTerminator]
  | [a] => cases a <;> simp [isTerminator]

theorem isTerminator_reference {o : Operand} (isRef : o.isReference = true) :
    o.isTerminator = false := by
  cases o <;> simp_all [isReference, isTerminator]

theorem mapLeavesAll_eq_map (f : Operand → Operand) (os : List Operand) :
    mapLeavesAll f os = os.map (mapLeaves f) := by
  induction os with
  | nil => rfl
  | cons o os ih => rw [mapLeavesAll, ih, List.map_cons]

theorem walkAll_eq_flatMap (os : List Operand) : walkAll os = os.flatMap walk := by
  induction os with
  | nil => rfl
  | cons o os ih => rw [walkAll, ih, List.flatMap_cons]

theorem mem_walk_self (o : Operand) : o ∈ o.walk := by
  cases o <;> simp [walk]

theorem mem_walk_of_arg {op : String} {args : List Operand} {span : Option Span} {a o : Operand}
    (isArg : a ∈ args) (inArg : o ∈ a.walk) : o ∈ (Operand.expr op args span).walk := by
  rw [walk, walkAll_eq_flatMap]
  exact List.mem_cons_of_mem _ (List.mem_flatMap.2 ⟨a, isArg, inArg⟩)

end Operand

theorem Slot.accepts_reference {o : Operand} (isRef : o.isReference = true) (slot : Slot) :
    slot.accepts o = match slot with
      | .expr _ | .variadic | .pointer => !o.isElse
      | .elsePointer => true
      | _ => false := by
  cases o <;> simp only [Operand.isReference, Bool.false_eq_true] at isRef <;> cases slot <;>
    simp [Slot.accepts, Operand.isExpression, Operand.isReference, Operand.isElse]

/-- A change of references into references that keeps else targets, and all else as it is. -/
structure Relabels (change : Operand → Operand) : Prop where
  other : ∀ o, o.isReference = false → change o = o
  reference : ∀ o, o.isReference = true →
    (change o).isReference = true ∧ (change o).isElse = o.isElse

namespace Relabels

variable {change : Operand → Operand}

/-- A reference is changed, an expression is changed inside, and all else stays. -/
theorem mapLeaves_cases (h : Relabels change) (o : Operand) :
    (o.isReference = true ∧ o.mapLeaves change = change o ∧ (change o).isReference = true ∧
      (change o).isElse = o.isElse) ∨
    (∃ op args span, o = .expr op args span ∧
      o.mapLeaves change = .expr op (args.map (Operand.mapLeaves change)) span) ∨
    (o.isReference = false ∧ o.mapLeaves change = o) := by
  cases o with
  | label name width isElse span => exact .inl ⟨rfl, rfl, h.reference _ rfl⟩
  | offset value width isElse span => exact .inl ⟨rfl, rfl, h.reference _ rfl⟩
  | expr op args span =>
    exact .inr (.inl ⟨op, args, span, rfl, by rw [Operand.mapLeaves, Operand.mapLeavesAll_eq_map]⟩)
  | _ => exact .inr (.inr ⟨rfl, h.other _ rfl⟩)

theorem comp (h : Relabels change) {g : Operand → Operand} (next : Relabels g) :
    Relabels (g ∘ change) where
  other o notRef := by
    rw [Function.comp_apply, h.other o notRef]
    exact next.other o notRef
  reference o isRef := by
    obtain ⟨still, same⟩ := h.reference o isRef
    obtain ⟨still', same'⟩ := next.reference _ still
    exact ⟨still', same'.trans same⟩

theorem mapLeaves_mapLeaves (h : Relabels change) (g : Operand → Operand) (o : Operand) :
    (o.mapLeaves change).mapLeaves g = o.mapLeaves (g ∘ change) := by
  induction o using Operand.expr_induction with
  | leaf o notExpr =>
    have leaf {o : Operand} {f : Operand → Operand} (notExpr : ∀ op args span, o ≠ .expr op args span) :
        o.mapLeaves f = f o := by
      cases o with
      | expr op args span => exact absurd rfl (notExpr op args span)
      | _ => rfl
    rw [leaf notExpr, leaf notExpr, leaf]
    · rfl
    · intro op args span changed
      by_cases isRef : o.isReference = true
      · have still := (h.reference o isRef).1
        simp [changed, Operand.isReference] at still
      · rw [h.other o (by simpa using isRef)] at changed
        exact notExpr op args span changed
  | expr op args span ih =>
    simp only [Operand.mapLeaves, Operand.mapLeavesAll_eq_map, List.map_map]
    congr 1
    exact List.map_congr_left ih

theorem mem_walk_mapLeaves {o leaf : Operand} (isRef : leaf.isReference = true)
    (inside : leaf ∈ o.walk) : change leaf ∈ (o.mapLeaves change).walk := by
  induction o using Operand.expr_induction with
  | leaf o notExpr =>
    cases o with
    | expr op args span => exact absurd rfl (notExpr op args span)
    | _ =>
      simp only [Operand.walk, List.mem_singleton] at inside
      subst inside
      simp only [Operand.mapLeaves]
      exact Operand.mem_walk_self _
  | expr op args span ih =>
    simp only [Operand.walk, Operand.walkAll_eq_flatMap, List.mem_cons, List.mem_flatMap] at inside
    rcases inside with rfl | ⟨a, isArg, inArg⟩
    · simp [Operand.isReference] at isRef
    · rw [Operand.mapLeaves, Operand.mapLeavesAll_eq_map]
      exact Operand.mem_walk_of_arg (List.mem_map_of_mem isArg) (ih a isArg inArg)

theorem isElse (h : Relabels change) (o : Operand) : (o.mapLeaves change).isElse = o.isElse := by
  rcases h.mapLeaves_cases o with ⟨-, mapped, -, same⟩ | ⟨op, args, span, rfl, mapped⟩ | ⟨-, mapped⟩
  · rw [mapped, same]
  · rw [mapped]
    rfl
  · rw [mapped]

end Relabels

def Operand.isField : Operand → Bool
  | int .. | text .. => true
  | _ => false

/-- Arguments that are the same to a message command. -/
inductive Operand.SameField : Operand → Operand → Prop
  | text (bytes : Bytes) (span span' : Option Span) : SameField (.text bytes span) (.text bytes span')
  | int (value : Int) (width : Option Width) (span span' : Option Span) :
      SameField (.int value width span) (.int value width span')
  | other {o o' : Operand} (plain : o.isField = false) (plain' : o'.isField = false) : SameField o o'

structure MessageCommand.Like (c c' : MessageCommand) : Prop where
  op : c.op = c'.op
  args : List.Forall₂ Operand.SameField c.args c'.args

/-- Operands that differ in spans and references only. Which references may stand for each other is
left to `ref`. -/
inductive Operand.Like (ref : Operand → Operand → Prop) : Operand → Operand → Prop
  | int (value : Int) (width : Option Width) (span span' : Option Span) :
      Like ref (.int value width span) (.int value width span')
  | atom (name : String) (span span' : Option Span) : Like ref (.atom name span) (.atom name span')
  | text (bytes : Bytes) (span span' : Option Span) : Like ref (.text bytes span) (.text bytes span')
  | message {commands commands' : List MessageCommand} (span span' : Option Span)
      (like : List.Forall₂ MessageCommand.Like commands commands') :
      Like ref (.message commands span) (.message commands' span')
  | reference {o o' : Operand} (isRef : o.isReference = true) (isRef' : o'.isReference = true)
      (isElse : o'.isElse = o.isElse) (related : ref o o') : Like ref o o'
  | expr (op : String) {args args' : List Operand} (span span' : Option Span)
      (like : List.Forall₂ (Like ref) args args') : Like ref (.expr op args span) (.expr op args' span')

theorem Operand.SameField.refl (o : Operand) : SameField o o := by
  cases o with
  | int value width span => exact .int value width span span
  | text bytes span => exact .text bytes span span
  | _ => exact .other rfl rfl

theorem Operand.SameField.accepts {o o' : Operand} (same : SameField o o') (slot : Slot) :
    slot.acceptsField o = slot.acceptsField o' := by
  cases same with
  | text | int => cases slot <;> rfl
  | other plain plain' =>
    have refused {o : Operand} (plain : o.isField = false) : slot.acceptsField o = false := by
      cases o <;> simp only [isField, Bool.true_eq_false] at plain <;> cases slot <;> rfl
    rw [refused plain, refused plain']

theorem MessageCommand.Like.refl (c : MessageCommand) : c.Like c :=
  ⟨rfl, List.forall₂_same.2 fun o _ => .refl o⟩

theorem Shape.choose_congr {check : Slot → Operand → Bool} {name : String} {shapes : List Shape}
    {os os' : List Operand}
    (same : List.Forall₂ (fun o o' => ∀ slot, check slot o = check slot o') os os') :
    choose check name shapes os = choose check name shapes os' := by
  have narrowed : ∀ live index, narrow check name live index os = narrow check name live index os' := by
    induction same with
    | nil => intros; rfl
    | cons head _ ih =>
      intro live index
      simp only [narrow, head, ih]
  simp only [choose, narrowed, same.length_eq]

namespace Operand.Like

variable {ref : Operand → Operand → Prop} {o o' : Operand} {os os' : List Operand}

theorem exists_expr {op : String} {args : List Operand} {span : Option Span}
    (like : Like ref (.expr op args span) o') :
    ∃ args' span', o' = .expr op args' span' ∧ List.Forall₂ (Like ref) args args' := by
  cases like with
  | reference isRef => cases isRef
  | expr _ _ span' like => exact ⟨_, span', rfl, like⟩

theorem accepts (like : Like ref o o') (slot : Slot) : slot.accepts o = slot.accepts o' := by
  cases like with
  | reference isRef isRef' isElse => rw [Slot.accepts_reference isRef, Slot.accepts_reference isRef', isElse]
  | int | atom | text | message | expr => cases slot <;> rfl

theorem isInt_iff (like : Like ref o o') {value : Int} {width : Option Width} :
    (∃ span, o = .int value width span) ↔ ∃ span, o' = .int value width span := by
  cases like with
  | int => simp
  | reference isRef isRef' =>
    constructor
    · rintro ⟨span, rfl⟩
      cases isRef
    · rintro ⟨span, rfl⟩
      cases isRef'
  | _ => simp

theorem singleton_int_iff (like : List.Forall₂ (Like ref) os os') {value : Int} {width : Option Width} :
    (∃ span, os = [.int value width span]) ↔ ∃ span, os' = [.int value width span] := by
  cases like with
  | nil => simp
  | cons head tail =>
    cases tail with
    | nil => simpa using head.isInt_iff
    | cons => simp

theorem isTerminator (like : Like ref o o') : o.isTerminator = o'.isTerminator := by
  cases like with
  | reference isRef isRef' => rw [isTerminator_reference isRef, isTerminator_reference isRef']
  | expr op _ _ like =>
    rw [Bool.eq_iff_iff, isTerminator_expr, isTerminator_expr]
    constructor
    · rintro ⟨value, width, span, isInt, stored⟩
      obtain ⟨span', isInt'⟩ := (singleton_int_iff like).1 ⟨span, isInt⟩
      exact ⟨value, width, span', isInt', stored⟩
    · rintro ⟨value, width, span, isInt, stored⟩
      obtain ⟨span', isInt'⟩ := (singleton_int_iff like).2 ⟨span, isInt⟩
      exact ⟨value, width, span', isInt', stored⟩
  | int | atom | text | message => rfl

theorem choose (like : List.Forall₂ (Like ref) os os') (name : String) (shapes : List Shape) :
    Shape.choose Slot.accepts name shapes os = Shape.choose Slot.accepts name shapes os' :=
  Shape.choose_congr (like.imp fun _ _ => accepts)

theorem checkExpression (like : Like ref o o') : o.checkExpression = o'.checkExpression := by
  induction o using expr_induction generalizing o' with
  | leaf o notExpr =>
    cases like with
    | expr op span span' => exact absurd rfl (notExpr op _ span)
    | reference isRef isRef' =>
      have trivial {o : Operand} (isRef : o.isReference = true) : o.checkExpression = .ok () := by
        cases o <;> simp only [isReference, Bool.false_eq_true] at isRef <;> rfl
      rw [trivial isRef, trivial isRef']
    | int | atom | text | message => rfl
  | expr op args span ih =>
    obtain ⟨args', span', rfl, inside⟩ := like.exists_expr
    have inner : checkExpressions args = checkExpressions args' := by
      clear like
      induction inside with
      | nil => rfl
      | cons head _ next =>
        rw [checkExpressions, checkExpressions, ih _ List.mem_cons_self head,
          next fun o member => ih o (List.mem_cons_of_mem _ member)]
    rw [Operand.checkExpression, Operand.checkExpression]
    simp only [choose inside, inner]

theorem shapeOf (like : List.Forall₂ (Like ref) os os') (c : Command) : c.shapeOf os = c.shapeOf os' := by
  have checks : ∀ index, Command.checkOperands index os = Command.checkOperands index os' := by
    induction like with
    | nil => intro; rfl
    | cons head _ ih =>
      intro index
      simp only [Command.checkOperands, head.checkExpression, ih]
  simp only [Command.shapeOf, choose like, checks]

theorem mono {ref' : Operand → Operand → Prop} (like : Like ref o o') (weaker : ∀ o o', ref o o' → ref' o o') :
    Like ref' o o' := by
  induction o using expr_induction generalizing o' with
  | leaf o notExpr =>
    cases like with
    | int value width span span' => exact .int value width span span'
    | atom name span span' => exact .atom name span span'
    | text bytes span span' => exact .text bytes span span'
    | message span span' like => exact .message span span' like
    | reference isRef isRef' isElse related => exact .reference isRef isRef' isElse (weaker _ _ related)
    | expr op span span' => exact absurd rfl (notExpr op _ span)
  | expr op args span ih =>
    obtain ⟨args', span', rfl, inside⟩ := like.exists_expr
    refine .expr op span span' ?_
    clear like
    induction inside with
    | nil => exact .nil
    | cons head _ next =>
      exact .cons (ih _ List.mem_cons_self head) (next fun o member => ih o (List.mem_cons_of_mem _ member))

end Operand.Like

namespace Relabels

variable {change : Operand → Operand}

theorem like (h : Relabels change) {ref : Operand → Operand → Prop} {o : Operand}
    (refs : ∀ leaf ∈ o.walk, leaf.isReference = true → ref leaf (change leaf)) :
    Operand.Like ref o (o.mapLeaves change) := by
  induction o using Operand.expr_induction with
  | leaf o notExpr =>
    rcases h.mapLeaves_cases o with ⟨isRef, mapped, still, same⟩ | ⟨op, args, span, rfl, -⟩ | ⟨notRef, mapped⟩
    · rw [mapped]
      exact .reference isRef still same (refs o o.mem_walk_self isRef)
    · exact absurd rfl (notExpr op args span)
    · rw [mapped]
      cases o with
      | int value width span => exact .int value width span span
      | atom name span => exact .atom name span span
      | text bytes span => exact .text bytes span span
      | message commands span => exact .message span span (List.forall₂_same.2 fun c _ => .refl c)
      | label | offset => cases notRef
      | expr op args span => exact absurd rfl (notExpr op args span)
  | expr op args span ih =>
    rw [Operand.mapLeaves, Operand.mapLeavesAll_eq_map]
    refine .expr op span span (List.forall₂_map_right_iff.2 (List.forall₂_same.2 fun o isArg => ih o isArg ?_))
    exact fun leaf inArg => refs leaf (Operand.mem_walk_of_arg isArg inArg)

theorem likeAll (h : Relabels change) {ref : Operand → Operand → Prop} {os : List Operand}
    (refs : ∀ leaf ∈ Operand.walkAll os, leaf.isReference = true → ref leaf (change leaf)) :
    List.Forall₂ (Operand.Like ref) os (os.map (Operand.mapLeaves change)) := by
  refine List.forall₂_map_right_iff.2 (List.forall₂_same.2 fun o member => h.like fun leaf inside => refs leaf ?_)
  rw [Operand.walkAll_eq_flatMap]
  exact List.mem_flatMap.2 ⟨o, member, inside⟩

theorem isTerminator (h : Relabels change) (o : Operand) :
    (o.mapLeaves change).isTerminator = o.isTerminator := by
  have like : Operand.Like (fun _ _ => True) o (o.mapLeaves change) := h.like fun _ _ _ => True.intro
  exact like.isTerminator.symm

theorem shapeOf (h : Relabels change) (c : Command) (os : List Operand) :
    c.shapeOf (os.map (Operand.mapLeaves change)) = c.shapeOf os := by
  have like : List.Forall₂ (Operand.Like fun _ _ => True) os (os.map (Operand.mapLeaves change)) :=
    h.likeAll fun _ _ _ => True.intro
  exact (Operand.Like.shapeOf like c).symm

end Relabels

/-- Failures of one kind: for the same reason, or the same fault. -/
def Error.Alike : Error → Error → Prop
  | encode e, encode e' => e.cause.reason = e'.cause.reason
  | resolution e, resolution e' => e.cause.reason = e'.cause.reason
  | fault f, fault f' => f = f'
  | _, _ => False

namespace Placement

theorem lowerArgs_eq_zipWith (p : Placement) (shape : Shape) (args : List Operand) :
    p.lowerArgs shape args =
      List.zipWith (fun slot o => p.lowerSlot slot o (p.lowerExpr o)) shape args := by
  induction args generalizing shape with
  | nil => cases shape <;> simp [lowerArgs]
  | cons o os ih => cases shape <;> simp [lowerArgs, ih]

theorem lowerExpr_atom_eq_ok {p : Placement} {name : String} {span : Option Span} {code : ItemCode} :
    p.lowerExpr (.atom name span) = .ok code ↔
      ∃ a, Atom.ofName? name = some a ∧ [.bytes (Width.long.constant a.code)] = code := by
  rw [lowerExpr]
  cases Atom.ofName? name <;> simp

theorem lowerExpr_constant (p : Placement) {op : String} {forced : Width}
    (constant : Operator.constantWidth? op = some forced) {value : Int} {width : Option Width}
    {argSpan span : Option Span} :
    p.lowerExpr (.expr op [.int value width argSpan] span) =
      p.lowerInt value (some forced) argSpan := by
  rw [lowerExpr]
  exact constant

theorem lowerExpr_operator (p : Placement) {op : String} {args : List Operand} (span : Option Span)
    (notConstant : ∀ value width argSpan, args = [.int value width argSpan] →
      Operator.constantWidth? op = none) :
    p.lowerExpr (.expr op args span) = match Operator.ofName? op with
      | none => p.fail (.noExpression op) span
      | some operator => match operator.shapeOf args with
        | .error _ => p.fail (.noExpression op) span
        | .ok shape =>
          ((if operator.isReversed then (p.lowerArgs shape args).reverse
            else p.lowerArgs shape args).mapM id).map
              fun stored => .bytes [operator.code] :: stored.flatten := by
  rw [lowerExpr]
  · cases Operator.ofName? op with
    | none => rfl
    | some operator =>
      dsimp only
      cases operator.shapeOf args with
      | error e => rfl
      | ok shape => exact bind_pure_eq_map _ _
  · intro width value argWidth argSpan constant isInt
    simp [notConstant _ _ _ isInt] at constant

theorem lowerExpr_reference (p : Placement) {o : Operand} (isRef : o.isReference = true) :
    p.lowerExpr o = (p.lowerPointer o).map (.bytes [Operator.addressCode] :: ·) := by
  cases o <;> simp only [Operand.isReference, Bool.false_eq_true] at isRef <;> rw [lowerExpr]

section Agreement

variable {labels labels' : LabelTable} {err : Error → Error → Prop} {rel : Piece → Piece → Prop}
  {span span' : Option Span} {o o' : Operand} {os os' : List Operand}

def ReferencesAgree (labels labels' : LabelTable) (err : Error → Error → Prop) (rel : Piece → Piece → Prop)
    (span span' : Option Span) (o o' : Operand) : Prop :=
  ∀ site, AgreeOn err (List.Forall₂ rel) (lowerPointer ⟨labels, site, span⟩ o)
    (lowerPointer ⟨labels', site, span'⟩ o')

/-- What the relations allow in any case: failures of one kind, and pieces that are no pointers. -/
structure Allows (err : Error → Error → Prop) (rel : Piece → Piece → Prop) (span span' : Option Span) : Prop where
  errors : ∀ e e', Error.Alike e e' → err e e'
  bytes : ∀ bs, rel (.bytes bs) (.bytes bs)
  endWord : rel .endWord .endWord
  sizeWord : ∀ site, rel (.sizeWord site span) (.sizeWord site span')

variable (allows : Allows err rel span span')

include allows

theorem fail_agree {α β : Type} {R : α → β → Prop} {p p' : Placement} {cause cause' : EncodeCause}
    (reason : cause.reason = cause'.reason) (s s' : Option Span) :
    AgreeOn err R (p.fail cause s) (p'.fail cause' s') :=
  allows.errors _ _ reason

theorem lowerInt_agree (site : Site) (value : Int) (width : Option Width) (s s' : Option Span) :
    AgreeOn err (List.Forall₂ rel) (lowerInt ⟨labels, site, span⟩ value width s)
      (lowerInt ⟨labels', site, span'⟩ value width s') := by
  unfold lowerInt
  exact .ite (fun _ => .cons (allows.bytes _) .nil) fun _ => fail_agree allows rfl s s'

theorem lowerPointer_agree (like : Operand.Like (ReferencesAgree labels labels' err rel span span') o o')
    (site : Site) : AgreeOn err (List.Forall₂ rel) (lowerPointer ⟨labels, site, span⟩ o)
      (lowerPointer ⟨labels', site, span'⟩ o') := by
  cases like with
  | reference isRef isRef' isElse related => exact related site
  | int | atom | text | message | expr => exact fail_agree allows rfl _ _

theorem lowerSlot_agree (like : Operand.Like (ReferencesAgree labels labels' err rel span span') o o')
    (site : Site) (slot : Slot) {x y : Except Error ItemCode} (expression : AgreeOn err (List.Forall₂ rel) x y) :
    AgreeOn err (List.Forall₂ rel) (lowerSlot ⟨labels, site, span⟩ slot o x)
      (lowerSlot ⟨labels', site, span'⟩ slot o' y) := by
  cases slot with
  | pointer | elsePointer => exact lowerPointer_agree allows like site
  | atom a => exact .cons (allows.bytes _) .nil
  | text =>
    cases like with
    | text bytes s s' =>
      unfold lowerSlot
      exact .ite (fun _ => fail_agree allows rfl s s') fun _ => .cons (allows.bytes _) .nil
    | reference isRef isRef' =>
      have plain {p : Placement} {o : Operand} {z : Except Error ItemCode} (isRef : o.isReference = true) :
          p.lowerSlot .text o z = z := by
        cases o <;> simp only [Operand.isReference, Bool.false_eq_true] at isRef <;> rfl
      rw [plain isRef, plain isRef']
      exact expression
    | int | atom | message | expr => exact expression
  | _ => exact expression

theorem lowerExpr_operator_agree {op : String} (site : Site) (s s' : Option Span)
    (notConstant : ∀ value width argSpan, os = [.int value width argSpan] → Operator.constantWidth? op = none)
    (like : List.Forall₂ (Operand.Like (ReferencesAgree labels labels' err rel span span')) os os')
    (inner : List.Forall₂ (fun o o' => AgreeOn err (List.Forall₂ rel) (lowerExpr ⟨labels, site, span⟩ o)
      (lowerExpr ⟨labels', site, span'⟩ o')) os os') :
    AgreeOn err (List.Forall₂ rel) (lowerExpr ⟨labels, site, span⟩ (.expr op os s))
      (lowerExpr ⟨labels', site, span'⟩ (.expr op os' s')) := by
  have notConstant' : ∀ value width argSpan, os' = [.int value width argSpan] → Operator.constantWidth? op = none := by
    intro value width argSpan isInt
    obtain ⟨argSpan', isInt'⟩ := (Operand.Like.singleton_int_iff like).2 ⟨argSpan, isInt⟩
    exact notConstant value width argSpan' isInt'
  rw [lowerExpr_operator _ _ notConstant, lowerExpr_operator _ _ notConstant']
  cases Operator.ofName? op with
  | none => exact fail_agree allows rfl s s'
  | some operator =>
    have shapes : operator.shapeOf os' = operator.shapeOf os :=
      (Operand.Like.choose like operator.name operator.shapes).symm
    dsimp only
    rw [shapes]
    cases operator.shapeOf os with
    | error e => exact fail_agree allows rfl s s'
    | ok shape =>
      have parts : List.Forall₂ (AgreeOn err (List.Forall₂ rel)) (lowerArgs ⟨labels, site, span⟩ shape os)
          (lowerArgs ⟨labels', site, span'⟩ shape os') := by
        rw [lowerArgs_eq_zipWith, lowerArgs_eq_zipWith]
        clear shapes notConstant notConstant'
        induction like generalizing shape with
        | nil => cases shape <;> exact .nil
        | cons head _ ih =>
          obtain ⟨headInner, tailInner⟩ := List.forall₂_cons.1 inner
          cases shape with
          | nil => exact .nil
          | cons slot slots => exact .cons (lowerSlot_agree allows head site slot headInner) (ih tailInner slots)
      have stored : List.Forall₂ (AgreeOn err (List.Forall₂ rel))
          (if operator.isReversed then (lowerArgs ⟨labels, site, span⟩ shape os).reverse
            else lowerArgs ⟨labels, site, span⟩ shape os)
          (if operator.isReversed then (lowerArgs ⟨labels', site, span'⟩ shape os').reverse
            else lowerArgs ⟨labels', site, span'⟩ shape os') := by
        split
        · exact List.rel_reverse parts
        · exact parts
      exact (AgreeOn.mapM (f := id) (g := id) stored).map fun code code' related =>
        .cons (allows.bytes _) (List.rel_flatten related)

theorem lowerExpr_agree (like : Operand.Like (ReferencesAgree labels labels' err rel span span') o o') (site : Site) :
    AgreeOn err (List.Forall₂ rel) (lowerExpr ⟨labels, site, span⟩ o) (lowerExpr ⟨labels', site, span'⟩ o') := by
  induction o using Operand.expr_induction generalizing o' with
  | leaf o notExpr =>
    cases like with
    | int value width s s' => exact lowerInt_agree allows site value width s s'
    | reference isRef isRef' isElse related =>
      rw [lowerExpr_reference _ isRef, lowerExpr_reference _ isRef']
      exact (related site).map fun code code' related => .cons (allows.bytes _) related
    | expr op s => exact absurd rfl (notExpr op _ s)
    | atom name s s' =>
      rw [lowerExpr, lowerExpr]
      cases Atom.ofName? name with
      | none => exact allows.errors _ _ rfl
      | some a => exact .cons (allows.bytes _) .nil
    | text | message => exact fail_agree allows rfl _ _
  | expr op args s ih =>
    obtain ⟨args', s', rfl, inside⟩ := like.exists_expr
    by_cases constant : ∃ value width argSpan, args = [.int value width argSpan] ∧
        Operator.constantWidth? op ≠ none
    · obtain ⟨value, width, argSpan, rfl, isConstant⟩ := constant
      obtain ⟨stored, isStored⟩ := Option.ne_none_iff_exists'.1 isConstant
      obtain ⟨argSpan', rfl⟩ := (Operand.Like.singleton_int_iff inside).1 ⟨argSpan, rfl⟩
      rw [lowerExpr_constant _ isStored, lowerExpr_constant _ isStored]
      exact lowerInt_agree allows site value (some stored) argSpan argSpan'
    · refine lowerExpr_operator_agree allows site s s' (fun value width argSpan isInt => ?_) inside ?_
      · by_contra isConstant
        exact constant ⟨value, width, argSpan, isInt, isConstant⟩
      · clear constant like
        induction inside with
        | nil => exact .nil
        | cons head _ next =>
          exact .cons (ih _ List.mem_cons_self head) (next fun o member => ih o (List.mem_cons_of_mem _ member))

theorem lowerFixed_agree (like : List.Forall₂ (Operand.Like (ReferencesAgree labels labels' err rel span span')) os os')
    (site : Site) (index : Nat) (shape : Shape) :
    AgreeOn err (List.Forall₂ rel) (lowerFixed ⟨labels, site, span⟩ index shape os)
      (lowerFixed ⟨labels', site, span'⟩ index shape os') := by
  induction like generalizing index shape with
  | nil => cases shape <;> exact .nil
  | cons head _ ih =>
    cases shape with
    | nil => exact .nil
    | cons slot slots =>
      refine (lowerSlot_agree allows head { site with operand := index } slot
        (lowerExpr_agree allows head { site with operand := index })).bind ?_
      intro first first' headRelated
      refine (ih (index + 1) slots).bind ?_
      intro rest rest' tailRelated
      exact List.rel_append headRelated tailRelated

theorem lowerTail_agree (like : List.Forall₂ (Operand.Like (ReferencesAgree labels labels' err rel span span')) os os')
    (site : Site) (terminated : Bool) (index : Nat) :
    AgreeOn err (List.Forall₂ rel) (lowerTail ⟨labels, site, span⟩ terminated index os)
      (lowerTail ⟨labels', site, span'⟩ terminated index os') := by
  induction like generalizing index with
  | nil => exact .nil
  | @cons o o' os os' head _ ih =>
    simp only [lowerTail, ← head.isTerminator]
    by_cases refused : (terminated && o.isTerminator) = true
    · simp only [refused, ↓reduceIte]
      exact fail_agree allows rfl _ _
    · simp only [refused]
      refine (lowerExpr_agree allows head { site with operand := index }).bind ?_
      intro first first' headRelated
      refine (ih (index + 1)).bind ?_
      intro rest rest' tailRelated
      exact List.rel_append headRelated tailRelated

theorem lowerOperands_agree
    (like : List.Forall₂ (Operand.Like (ReferencesAgree labels labels' err rel span span')) os os')
    (site : Site) (c : Command) (shape : Shape) :
    AgreeOn err (List.Forall₂ rel) (lowerOperands ⟨labels, site, span⟩ c shape os)
      (lowerOperands ⟨labels', site, span'⟩ c shape os') := by
  refine (lowerFixed_agree allows like site 0 _).bind ?_
  intro start start' startRelated
  by_cases variadic : shape.isVariadic = true
  · simp only [variadic, Bool.not_true, Bool.false_eq_true, ↓reduceIte, ← like.length_eq]
    refine (lowerTail_agree allows (List.forall₂_drop _ like) site _ _).bind ?_
    intro tail tail' tailRelated
    cases c.layout with
    | counted => exact List.rel_append startRelated (.cons (allows.bytes _) tailRelated)
    | terminated =>
      exact List.rel_append (List.rel_append startRelated tailRelated) (.cons (allows.bytes _) .nil)
    | _ => exact List.rel_append startRelated tailRelated
  · simp only [variadic]
    exact startRelated

theorem lowerMessageArg_agree (same : Operand.SameField o o') (site : Site) (slot : Slot) :
    AgreeOn err Eq (lowerMessageArg ⟨labels, site, span⟩ slot o) (lowerMessageArg ⟨labels', site, span'⟩ slot o') := by
  cases same with
  | text => cases slot <;> exact rfl
  | int value width s s' =>
    cases slot with
    | field f =>
      unfold lowerMessageArg lowerField
      exact .ite (fun _ => rfl) fun _ => fail_agree allows rfl s s'
    | _ => exact rfl
  | other plain plain' =>
    have silent {p : Placement} {o : Operand} (plain : o.isField = false) : p.lowerMessageArg slot o = .ok [] := by
      cases o <;> simp only [Operand.isField, Bool.true_eq_false] at plain <;> cases slot <;> rfl
    rw [silent plain, silent plain']
    rfl

theorem lowerMessageCommand_agree {c c' : MessageCommand} (like : c.Like c') (site : Site) :
    AgreeOn err Eq (lowerMessageCommand ⟨labels, site, span⟩ c) (lowerMessageCommand ⟨labels', site, span'⟩ c') := by
  obtain ⟨op, args, s⟩ := c
  obtain ⟨op', args', s'⟩ := c'
  obtain ⟨sameOp, fields⟩ := like
  obtain rfl : op = op' := sameOp
  replace fields : List.Forall₂ Operand.SameField args args' := fields
  unfold lowerMessageCommand
  dsimp only
  split
  · -- A run of text has its bytes in its first argument.
    cases fields with
    | nil => exact allows.errors _ _ rfl
    | @cons o o' _ _ head =>
      cases head with
      | text bytes => exact .ite (fun _ => rfl) fun _ => fail_agree allows rfl s s'
      | int => exact allows.errors _ _ rfl
      | other plain plain' =>
        cases o <;> simp only [Operand.isField, Bool.true_eq_false] at plain <;>
          cases o' <;> simp only [Operand.isField, Bool.true_eq_false] at plain' <;> exact allows.errors _ _ rfl
  · cases MessageOp.ofName? op with
    | none => exact fail_agree allows rfl s s'
    | some m =>
      dsimp only
      rw [Shape.choose_congr (fields.imp fun _ _ => Operand.SameField.accepts)]
      cases Shape.choose Slot.acceptsField op m.shapes args' with
      | error e => exact fail_agree allows rfl s s'
      | ok shape =>
        have stored : AgreeOn err (List.Forall₂ Eq)
            ((shape.zip args).mapM fun field => lowerMessageArg ⟨labels, site, span⟩ field.1 field.2)
            ((shape.zip args').mapM fun field => lowerMessageArg ⟨labels', site, span'⟩ field.1 field.2) := by
          refine AgreeOn.mapM ?_
          induction fields generalizing shape with
          | nil => cases shape <;> exact .nil
          | cons head _ ih =>
            cases shape with
            | nil => exact .nil
            | cons slot slots => exact .cons (lowerMessageArg_agree allows head site slot) (ih slots)
        refine stored.bind fun bytes bytes' same => ?_
        rw [List.forall₂_eq_eq_eq] at same
        rw [same]
        rfl

theorem lowerMessage_agree {commands commands' : List MessageCommand}
    (like : List.Forall₂ MessageCommand.Like commands commands') (site : Site) (s s' : Option Span) :
    AgreeOn err (List.Forall₂ rel) (lowerMessage ⟨labels, site, span⟩ commands s)
      (lowerMessage ⟨labels', site, span'⟩ commands' s') := by
  have parts : AgreeOn err (List.Forall₂ Eq) (commands.mapM (lowerMessageCommand ⟨labels, site, span⟩))
      (commands'.mapM (lowerMessageCommand ⟨labels', site, span'⟩)) :=
    AgreeOn.mapM (like.imp fun _ _ like => lowerMessageCommand_agree allows like site)
  refine parts.bind fun parts parts' same => ?_
  rw [List.forall₂_eq_eq_eq] at same
  rw [same]
  exact .ite (fun _ => fail_agree allows rfl s s') fun _ => .cons allows.endWord (.cons (allows.bytes _) .nil)

theorem lowerCommand_agree
    (like : List.Forall₂ (Operand.Like (ReferencesAgree labels labels' err rel span span')) os os')
    (site : Site) (c : Command) :
    AgreeOn err (List.Forall₂ rel) (lowerCommand ⟨labels, site, span⟩ c os)
      (lowerCommand ⟨labels', site, span'⟩ c os') := by
  have operands := fun shape => lowerOperands_agree allows like site c shape
  unfold lowerCommand
  rw [← Operand.Like.shapeOf like]
  cases layout : c.layout with
  | message =>
    cases like with
    | nil => exact fail_agree allows rfl _ _
    | @cons o o' _ _ head =>
      cases head with
      | message s s' like => exact lowerMessage_agree allows like site s s'
      | reference isRef isRef' =>
        cases o <;> simp only [Operand.isReference, Bool.false_eq_true] at isRef <;>
          cases o' <;> simp only [Operand.isReference, Bool.false_eq_true] at isRef' <;>
          exact fail_agree allows rfl _ _
      | int | atom | text | expr => exact fail_agree allows rfl _ _
  | assignment =>
    cases c.shapeOf os with
    | error e => exact fail_agree allows rfl _ _
    | ok shape =>
      have operands := operands shape
      rcases like with _ | ⟨first, _ | ⟨second, _ | ⟨third, others⟩⟩⟩
      · exact operands
      · exact operands
      · refine (lowerExpr_agree allows second { site with operand := 1 }).bind ?_
        intro second second' secondRelated
        refine (lowerExpr_agree allows first { site with operand := 0 }).bind ?_
        intro first first' firstRelated
        exact List.rel_append secondRelated firstRelated
      · exact operands
  | sized =>
    cases c.shapeOf os with
    | error e => exact fail_agree allows rfl _ _
    | ok shape => exact (operands shape).map fun code code' related => .cons (allows.sizeWord site) related
  | _ =>
    cases c.shapeOf os with
    | error e => exact fail_agree allows rfl _ _
    | ok shape => exact operands shape

end Agreement

def PointersAgree (labels labels' : LabelTable) (rel : Piece → Piece → Prop)
    (change : Operand → Operand) (o : Operand) : Prop :=
  o.isReference = true → ∀ site span, Agree (List.Forall₂ rel)
    (lowerPointer ⟨labels, site, span⟩ o) (lowerPointer ⟨labels', site, span⟩ (change o))

end Placement

theorem Instruction.lower_like {labels labels' : LabelTable} {err : Error → Error → Prop}
    {rel : Piece → Piece → Prop} {i i' : Instruction} (allows : Placement.Allows err rel i.span i'.span)
    (opcode : i'.opcode = i.opcode) (like : List.Forall₂
      (Operand.Like (Placement.ReferencesAgree labels labels' err rel i.span i'.span)) i.operands i'.operands) :
    AgreeOn err (List.Forall₂ rel) (i.lower labels) (i'.lower labels') := by
  unfold Instruction.lower
  dsimp only
  rw [opcode]
  cases Command.ofName? i.opcode with
  | none => exact Placement.fail_agree allows rfl _ _
  | some c =>
    exact (Placement.lowerCommand_agree allows like _ c).map fun code code' related =>
      .cons (allows.bytes _) related

/-- An instruction with its references changed is lowered to related pieces. -/
theorem Instruction.lower_agree {labels labels' : LabelTable} {rel : Piece → Piece → Prop}
    {change : Operand → Operand} (keeps : Relabels change)
    (fixed : ∀ piece, (∀ q, piece ≠ .pointer q) → rel piece piece) {i : Instruction}
    (pointers : ∀ leaf ∈ Operand.walkAll i.operands,
      Placement.PointersAgree labels labels' rel change leaf) :
    Agree (List.Forall₂ rel) (i.lower labels)
      ({ i with operands := Operand.mapLeavesAll change i.operands }.lower labels') := by
  have plain {piece : Piece} (notPointer : ∀ q, piece ≠ .pointer q) : rel piece piece := fixed piece notPointer
  have allows : Placement.Allows (fun _ _ => True) rel i.span i.span :=
    ⟨fun _ _ _ => True.intro, fun bs => plain (by simp), plain (by simp), fun site => plain (by simp)⟩
  rw [Operand.mapLeavesAll_eq_map]
  exact Instruction.lower_like allows rfl
    (keeps.likeAll fun leaf inside isRef site => pointers leaf inside isRef site i.span)

/-- A pointer as lowering leaves it: it leads to the block of its label, and it is narrow unless its
width is forced. -/
structure Pointer.Fresh (labels : LabelTable) (p : Pointer) : Prop where
  bound : ∃ binding, labels.get? p.label = some binding ∧ p.block = binding.block
  narrow : p.forced = false → p.width = .byte

/-- What lowering leaves in an item: addresses are those of blocks that labels are bound to. -/
def Piece.Fresh (labels : LabelTable) : Piece → Prop
  | pointer q => q.Fresh labels
  | blockWord block => ∃ name binding, labels.get? name = some binding ∧ block = binding.block
  | _ => True

theorem Placement.lowerPointer_fresh (p : Placement) {o : Operand} {code : ItemCode}
    (lowered : p.lowerPointer o = .ok code) {piece : Piece} (inCode : piece ∈ code) : piece.Fresh p.labels := by
  cases o with
  | offset value width isElse span =>
    simp only [lowerPointer] at lowered
    split at lowered
    · cases lowered
      obtain rfl := List.mem_singleton.1 inCode
      exact True.intro
    · cases lowered
  | label name width isElse span =>
    simp only [lowerPointer] at lowered
    split at lowered
    · rename_i binding found
      cases lowered
      obtain rfl := List.mem_singleton.1 inCode
      refine ⟨⟨binding, found, rfl⟩, fun free => ?_⟩
      cases width <;> simp_all
    · cases lowered
  | _ => cases lowered

theorem Instruction.lower_fresh {labels : LabelTable} {i : Instruction} {code : ItemCode}
    (lowered : i.lower labels = .ok code) {piece : Piece} (inCode : piece ∈ code) : piece.Fresh labels := by
  -- Lowering agrees with itself, and the relation can tell where its pointers come from.
  let rel : Piece → Piece → Prop := fun a _ => a.Fresh labels
  have allows : Placement.Allows (fun _ _ => True) rel i.span i.span :=
    ⟨fun _ _ _ => True.intro, fun _ => True.intro, True.intro, fun _ => True.intro⟩
  have keeps : Relabels id := ⟨fun _ _ => rfl, fun _ isRef => ⟨isRef, rfl⟩⟩
  have references (leaf : Operand) :
      Placement.ReferencesAgree labels labels (fun _ _ => True) rel i.span i.span leaf (id leaf) := by
    intro site
    rw [id]
    cases result : Placement.lowerPointer ⟨labels, site, i.span⟩ leaf with
    | error e => exact True.intro
    | ok code => exact List.forall₂_same.2 fun piece inCode => Placement.lowerPointer_fresh _ result inCode
  have agree : Agree (List.Forall₂ rel) (i.lower labels)
      ({ i with operands := i.operands.map (Operand.mapLeaves id) }.lower labels) :=
    Instruction.lower_like allows rfl (keeps.likeAll fun leaf _ _ => references leaf)
  obtain ⟨code', -, related⟩ := agree.of_ok_left lowered
  obtain ⟨_, _, fresh⟩ := exists_right_of_mem related inCode
  exact fresh

theorem Data.lower_no_pointer {labels : LabelTable} {d : Data} {code : ItemCode}
    (lowered : d.lower labels = .ok code) (q : Pointer) : .pointer q ∉ code := by
  intro inCode
  obtain ⟨value, -, lowersTo⟩ := exists_left_of_mem (mapM_eq_ok.1 lowered) inCode
  cases value <;> simp only [Data.lowerValue] at lowersTo
  all_goals (try split at lowersTo) <;> cases lowersTo

theorem Data.lower_fresh {labels : LabelTable} {d : Data} {code : ItemCode}
    (lowered : d.lower labels = .ok code) {piece : Piece} (inCode : piece ∈ code) : piece.Fresh labels := by
  obtain ⟨value, -, lowersTo⟩ := exists_left_of_mem (mapM_eq_ok.1 lowered) inCode
  cases value with
  | label name width isElse span =>
    simp only [Data.lowerValue] at lowersTo
    split at lowersTo <;> cases lowersTo
    exact ⟨name, _, ‹_›, rfl⟩
  | _ =>
    simp only [Data.lowerValue] at lowersTo
    (try split at lowersTo) <;> cases lowersTo <;> exact True.intro

theorem Item.lower_fresh {labels : LabelTable} {item : Item} {code : ItemCode}
    (lowered : item.lower labels = .ok code) {piece : Piece} (inCode : piece ∈ code) : piece.Fresh labels := by
  cases item with
  | instruction i => exact i.lower_fresh lowered inCode
  | data d => exact d.lower_fresh lowered inCode

theorem Code.all_placed {c : Code} : (c.pointers.all fun p => p.forced || decide (p.block < c.length)) = true ↔
    ∀ p ∈ c.pointers, p.forced = false → p.block < c.length := by
  simp only [List.all_eq_true, Bool.or_eq_true, decide_eq_true_eq]
  refine forall₂_congr fun p _ => ?_
  cases p.forced <;> simp

/-- The code of a script is that of its items, if each pointer that may grow leads to a block. -/
theorem Script.lower_eq_ok {s : Script} {c : Code} : s.lower = .ok c ↔
    s.lowerBlocks = .ok c ∧ ∀ p ∈ c.pointers, p.forced = false → p.block < c.length := by
  rw [← Code.all_placed, lower, bind_eq_ok]
  constructor
  · rintro ⟨code, lowered, checked⟩
    split at checked <;> cases checked
    exact ⟨lowered, ‹_›⟩
  · rintro ⟨lowered, placed⟩
    exact ⟨c, lowered, if_pos placed⟩

theorem Script.lower_fresh {s : Script} {c : Code} (lowered : s.lowerBlocks = .ok c)
    {block : List ItemCode} (inCode : block ∈ c) {item : ItemCode} (inBlock : item ∈ block)
    {piece : Piece} (inItem : piece ∈ item) : piece.Fresh s.labels := by
  obtain ⟨b, -, blockLowered⟩ := exists_left_of_mem (mapM_eq_ok.1 lowered) inCode
  obtain ⟨i, -, itemLowered⟩ := exists_left_of_mem (mapM_eq_ok.1 blockLowered) inBlock
  exact i.lower_fresh itemLowered inItem

end EventScript
