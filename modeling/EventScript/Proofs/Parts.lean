import EventScript.Proofs.Instructions

namespace EventScript

theorem Shape.exists_tail {shape : Shape} (inside : .variadic ∉ shape.dropLast) :
    ∃ slots rest : Shape, shape = slots ++ rest ∧ .variadic ∉ slots ∧ IsTail rest := by
  rcases List.eq_nil_or_concat shape with rfl | ⟨front, last, rfl⟩
  · exact ⟨[], [], rfl, by simp, .inl rfl⟩
  · rw [List.concat_eq_append] at inside ⊢
    rw [List.dropLast_concat] at inside
    by_cases variadic : last = .variadic
    · exact ⟨front, [last], rfl, inside, .inr (by rw [variadic])⟩
    · exact ⟨front ++ [last], [], by simp, by simp [inside, Ne.symm variadic], .inl rfl⟩

namespace Command

/-- Operands that fill a form of the command, `first` its slots and `others` its tail. -/
structure Fills (c : Command) (os : List Operand) (slots rest : Shape) (first others : List Operand) :
    Prop where
  split : os = first ++ others
  form : slots ++ rest ∈ c.shapes
  tail : rest.IsTail
  fixed : .variadic ∉ slots
  closed : rest = [] → others = []
  accepts : List.Forall₂ (fun slot o => slot.accepts o = true) slots first
  acceptsTail : ∀ o ∈ others, Slot.variadic.accepts o = true

theorem exists_fills {c : Command} (member : c ∈ all) {os : List Operand} {shape : Shape}
    (chosen : c.shapeOf os = .ok shape) : ∃ slots rest first others, shape = slots ++ rest ∧
      c.Fills os slots rest first others := by
  obtain ⟨form, fits, -⟩ := (shapeOf_eq_ok member).1 chosen
  have inside : .variadic ∉ shape.dropLast := by
    by_cases kind : c.layout = .assignment
    · rw [shapes_of_assignment member kind] at form
      simp only [List.mem_cons, List.not_mem_nil, or_false] at form
      rcases form with rfl | rfl <;> simp
    · exact (regular member kind).tail shape form
  obtain ⟨slots, rest, rfl, fixed, tail⟩ := Shape.exists_tail inside
  obtain ⟨first, others, split, accepts, closed, acceptsTail⟩ := (Shape.fits_iff_split fixed tail).1 fits
  exact ⟨slots, rest, first, others, rfl, split, form, tail, fixed, closed, accepts, acceptsTail⟩

theorem exists_shapeOf {c : Command} (noMessage : c.layout ≠ .message) {p : Placement} {os : List Operand}
    {code : ItemCode} (lowered : p.lowerCommand c os = .ok code) : ∃ shape, c.shapeOf os = .ok shape := by
  unfold Placement.lowerCommand at lowered
  cases chosen : c.shapeOf os with
  | error e => cases layout : c.layout <;> simp_all [Placement.fail]
  | ok shape => exact ⟨shape, rfl⟩

theorem Fills.fits {c : Command} {os : List Operand} {slots rest : Shape} {first others : List Operand}
    (fills : c.Fills os slots rest first others) : Shape.Fits Slot.accepts (slots ++ rest) os :=
  (Shape.fits_iff_split fills.fixed fills.tail).2
    ⟨first, others, fills.split, fills.accepts, fills.closed, fills.acceptsTail⟩

theorem Splits.fills {c : Command} {size : Nat} {os : List Operand} {slots rest : Shape}
    {first others : List Operand} (splits : c.Splits size os slots rest first others) :
    c.Fills os slots rest first others :=
  ⟨splits.split, splits.form, splits.tail, splits.fixed, splits.closed,
    splits.admits.imp fun _ _ admits => admits.accepts, fun o here => by
      obtain ⟨slot, inTail, admits⟩ := exists_left_of_mem splits.admitsTail here
      obtain ⟨_, -, rfl⟩ := List.mem_map.1 inTail
      exact admits.accepts⟩

end Command

namespace Placement

variable {p : Placement} {c : Command} {os first others : List Operand} {slots rest : Shape} {code : ItemCode}

def lowerPart (p : Placement) (part : (Slot × Operand) × Nat) : Except Error ItemCode :=
  (p.atOperand part.2).lowerSlot part.1.1 part.1.2 ((p.atOperand part.2).lowerExpr part.1.2)

def lowerParts (p : Placement) (index : Nat) (slots : Shape) (os : List Operand) :
    Except Error (List ItemCode) :=
  ((slots.zip os).zipIdx index).mapM p.lowerPart

theorem lowerFixed_eq_ok {index : Nat} (same : slots.length = first.length) :
    p.lowerFixed index slots (first ++ others) = .ok code ↔ ∃ parts,
      p.lowerParts index slots first = .ok parts ∧ code = parts.flatten := by
  induction slots generalizing index first code with
  | nil =>
    obtain rfl := List.length_eq_zero_iff.1 same.symm
    simp only [lowerFixed, lowerParts, List.zip_nil_left, List.zipIdx_nil, List.mapM_nil, pure_eq_ok,
      exists_eq_left', List.flatten_nil, Except.ok.injEq]
    exact eq_comm
  | cons slot slots ih =>
    cases first with
    | nil => simp at same
    | cons o first =>
      simp only [List.cons_append, lowerFixed, lowerParts, List.zip_cons_cons, List.zipIdx_cons,
        List.mapM_cons, bind_eq_ok, pure_eq_ok, ih (Nat.succ.inj same)]
      constructor
      · rintro ⟨part, lowered, _, ⟨parts, rest, rfl⟩, rfl⟩
        exact ⟨_, ⟨part, lowered, parts, rest, rfl⟩, by simp⟩
      · rintro ⟨_, ⟨part, lowered, parts, rest, rfl⟩, rfl⟩
        exact ⟨part, lowered, _, ⟨parts, rest, rfl⟩, by simp⟩

theorem lowerTail_eq_ok {terminated : Bool} {index : Nat} :
    p.lowerTail terminated index others = .ok code ↔
      (terminated = true → ∀ o ∈ others, o.isTerminator = false) ∧ ∃ parts,
        p.lowerParts index (tailSlots others) others = .ok parts ∧ code = parts.flatten := by
  induction others generalizing index code with
  | nil =>
    simp only [lowerTail, lowerParts, tailSlots, List.map_nil, List.zip_nil_left, List.zipIdx_nil,
      List.mapM_nil, pure_eq_ok, exists_eq_left', List.flatten_nil, Except.ok.injEq,
      List.not_mem_nil, false_implies, implies_true, true_and]
    exact eq_comm
  | cons o others ih =>
    simp only [lowerTail_cons, lowerParts, tailSlots, List.map_cons, List.zip_cons_cons, List.zipIdx_cons,
      List.mapM_cons, bind_eq_ok, pure_eq_ok, List.forall_mem_cons, ih]
    constructor
    · rintro ⟨allowed, part, lowered, _, ⟨allowed', parts, rest, rfl⟩, rfl⟩
      exact ⟨fun t => ⟨allowed t, allowed' t⟩, _, ⟨part, lowered, parts, rest, rfl⟩, by simp⟩
    · rintro ⟨allowed, _, ⟨part, lowered, parts, rest, rfl⟩, rfl⟩
      exact ⟨fun t => (allowed t).1, part, lowered, _, ⟨fun t => (allowed t).2, parts, rest, rfl⟩, by simp⟩

theorem lowerParts_length {index : Nat} {parts : List ItemCode}
    (lowered : p.lowerParts index slots os = .ok parts) (same : slots.length = os.length) :
    parts.length = os.length := by
  have := (mapM_eq_ok.1 lowered).length_eq
  simp only [List.length_zipIdx, List.length_zip] at this
  omega

end Placement

namespace Command

variable {c : Command} {p : Placement} {os first others : List Operand} {slots rest : Shape} {code : ItemCode}

def arrange (c : Command) (p : Placement) (rest : Shape) (parts tail : List ItemCode) : ItemCode :=
  let body := parts.flatten ++
    if rest = [] then [] else Placement.closeTail c.layout tail.length tail.flatten
  match c.layout with
  | .assignment => parts.reverse.flatten
  | .sized => .sizeWord p.site p.span :: body
  | _ => body

theorem arrange_of_not_assignment (kind : c.layout ≠ .assignment) {parts tail : List ItemCode} :
    c.arrange p rest parts tail = let body := parts.flatten ++
      if rest = [] then [] else Placement.closeTail c.layout tail.length tail.flatten
      if c.layout = .sized then .sizeWord p.site p.span :: body else body := by
  unfold arrange
  cases layout : c.layout <;> simp_all

/-- What an operand list is lowered to: the part of each operand, arranged. -/
structure Lowers (c : Command) (p : Placement) (slots rest : Shape) (first others : List Operand)
    (code : ItemCode) : Prop where
  checked : ∀ o ∈ first ++ others, o.checkExpression = .ok ()
  open_ : c.layout = .terminated → ∀ o ∈ others, o.isTerminator = false
  parts : ∃ parts tail, p.lowerParts 0 slots first = .ok parts ∧
    p.lowerParts slots.length (Placement.tailSlots others) others = .ok tail ∧
      code = c.arrange p rest parts tail

theorem Fills.shapeOf_iff (fills : c.Fills os slots rest first others) (member : c ∈ all) {shape : Shape} :
    c.shapeOf os = .ok shape ↔ shape = slots ++ rest ∧ ∀ o ∈ os, o.checkExpression = .ok () := by
  rw [shapeOf_eq_ok member]
  constructor
  · rintro ⟨form, fits, checked⟩
    exact ⟨fits_unique member _ form _ fills.form fits fills.fits, checked⟩
  · rintro ⟨rfl, checked⟩
    exact ⟨fills.form, fills.fits, checked⟩

theorem Fills.lowers_of_not_assignment (fills : c.Fills os slots rest first others) (member : c ∈ all)
    (noMessage : c.layout ≠ .message) (kind : c.layout ≠ .assignment) :
    p.lowerCommand c os = .ok code ↔ c.Lowers p slots rest first others code := by
  have same := fills.accepts.length_eq
  have tailSame : (Placement.tailSlots others).length = others.length := by simp [Placement.tailSlots]
  rw [Placement.lowerCommand_eq_ok noMessage (fun h => absurd h kind)]
  simp only [fills.shapeOf_iff member]
  obtain rfl := fills.split
  constructor
  · rintro ⟨_, ⟨rfl, checked⟩, body, lowered, rfl⟩
    obtain ⟨start, loweredStart, closed⟩ :=
      (Placement.lowerOperands_eq_ok fills.fixed fills.tail same).1 lowered
    obtain ⟨parts, loweredParts, rfl⟩ := (Placement.lowerFixed_eq_ok same).1 loweredStart
    by_cases noTail : rest = []
    · rw [if_pos noTail] at closed
      obtain rfl := fills.closed noTail
      refine ⟨checked, by simp, parts, [], loweredParts, rfl, ?_⟩
      simp [arrange_of_not_assignment kind, noTail, closed]
    · rw [if_neg noTail] at closed
      obtain ⟨tail, loweredTail, rfl⟩ := closed
      obtain ⟨allowed, others', loweredOthers, rfl⟩ := Placement.lowerTail_eq_ok.1 loweredTail
      refine ⟨checked, by simpa using allowed, parts, others', loweredParts, loweredOthers, ?_⟩
      simp [arrange_of_not_assignment kind, noTail, Placement.lowerParts_length loweredOthers tailSame]
  · rintro ⟨checked, allowed, parts, tail, loweredParts, loweredTail, rfl⟩
    refine ⟨_, ⟨rfl, checked⟩, _, (Placement.lowerOperands_eq_ok fills.fixed fills.tail same).2
      ⟨_, (Placement.lowerFixed_eq_ok same).2 ⟨parts, loweredParts, rfl⟩, ?_⟩,
      arrange_of_not_assignment kind⟩
    by_cases noTail : rest = []
    · simp [noTail]
    · rw [if_neg noTail, if_neg noTail]
      refine ⟨_, Placement.lowerTail_eq_ok.2 ⟨by simpa using allowed, tail, loweredTail, rfl⟩, ?_⟩
      rw [Placement.lowerParts_length loweredTail tailSame]

theorem Fills.assignment (fills : c.Fills os slots rest first others) (member : c ∈ all)
    (kind : c.layout = .assignment) : rest = [] ∧ others = [] ∧ first = os ∧
      ((∃ o, os = [o] ∧ slots = [.update]) ∨
        ∃ destination o, os = [destination, o] ∧ slots = [.assignable, value]) := by
  have form := fills.form
  rw [shapes_of_assignment member kind] at form
  have noTail : rest = [] := by
    rcases fills.tail with rfl | rfl
    · rfl
    · rcases slots with _ | ⟨_, _ | ⟨_, _ | _⟩⟩ <;> simp [value] at form
  have noOthers := fills.closed noTail
  have accepts := fills.accepts
  have split := fills.split
  subst noTail noOthers
  rw [List.append_nil] at split form
  subst split
  simp only [List.mem_cons, List.not_mem_nil, or_false] at form
  refine ⟨rfl, rfl, rfl, ?_⟩
  rcases form with rfl | rfl
  · simp only [List.forall₂_cons_left_iff, List.forall₂_nil_left_iff] at accepts
    obtain ⟨o, _, -, rfl, rfl⟩ := accepts
    exact .inl ⟨o, rfl, rfl⟩
  · simp only [List.forall₂_cons_left_iff, List.forall₂_nil_left_iff] at accepts
    obtain ⟨destination, _, -, ⟨o, _, -, rfl, rfl⟩, rfl⟩ := accepts
    exact .inr ⟨destination, o, rfl, rfl⟩

theorem Fills.lowers_of_assignment (fills : c.Fills os slots rest first others) (member : c ∈ all)
    (kind : c.layout = .assignment) :
    p.lowerCommand c os = .ok code ↔ c.Lowers p slots rest first others code := by
  have noMessage : c.layout ≠ .message := by simp [kind]
  obtain ⟨rfl, rfl, rfl, ⟨o, rfl, rfl⟩ | ⟨destination, o, rfl, rfl⟩⟩ := fills.assignment member kind
  · rw [Placement.lowerCommand_eq_ok noMessage (by simp)]
    simp only [fills.shapeOf_iff member]
    have operands {body : ItemCode} : p.lowerOperands c ([.update] ++ []) ([o] ++ []) = .ok body ↔ _ :=
      Placement.lowerOperands_eq_ok fills.fixed fills.tail rfl
    constructor
    · rintro ⟨_, ⟨rfl, checked⟩, body, lowered, rfl⟩
      obtain ⟨start, loweredStart, rfl⟩ := operands.1 lowered
      obtain ⟨parts, loweredParts, rfl⟩ := (Placement.lowerFixed_eq_ok rfl).1 loweredStart
      have single := Placement.lowerParts_length loweredParts rfl
      obtain ⟨part, rfl⟩ := List.length_eq_one_iff.1 single
      exact ⟨checked, by simp, [part], [], loweredParts, rfl, by simp [arrange, kind]⟩
    · rintro ⟨checked, -, parts, tail, loweredParts, -, rfl⟩
      have single := Placement.lowerParts_length loweredParts rfl
      obtain ⟨part, rfl⟩ := List.length_eq_one_iff.1 single
      exact ⟨_, ⟨rfl, checked⟩, [part].flatten, operands.2
        ⟨_, (Placement.lowerFixed_eq_ok rfl).2 ⟨[part], loweredParts, rfl⟩, rfl⟩, by simp [arrange, kind]⟩
  · simp only [lowerCommand_pair kind, fills.shapeOf_iff member]
    constructor
    · rintro ⟨⟨_, rfl, checked⟩, second, lowered₁, first, lowered₂, rfl⟩
      refine ⟨checked, by simp, [first, second], [], mapM_eq_ok.2 (.cons lowered₂ (.cons lowered₁ .nil)), rfl, ?_⟩
      simp [arrange, kind]
    · rintro ⟨checked, -, parts, tail, loweredParts, -, rfl⟩
      have each := mapM_eq_ok.1 loweredParts
      simp only [List.zip_cons_cons, List.zip_nil_left, List.zipIdx_cons, List.zipIdx_nil,
        List.forall₂_cons_left_iff, List.forall₂_nil_left_iff] at each
      obtain ⟨first, _, lowered₂, ⟨second, _, lowered₁, rfl, rfl⟩, rfl⟩ := each
      exact ⟨⟨_, rfl, checked⟩, second, lowered₁, first, lowered₂, by simp [arrange, kind]⟩

/-- A command is lowered operand by operand. -/
theorem Fills.lowers_iff (fills : c.Fills os slots rest first others) (member : c ∈ all)
    (noMessage : c.layout ≠ .message) :
    p.lowerCommand c os = .ok code ↔ c.Lowers p slots rest first others code := by
  by_cases kind : c.layout = .assignment
  · exact fills.lowers_of_assignment member kind
  · exact fills.lowers_of_not_assignment member noMessage kind

end Command

namespace Operand

def IsProper (o : Operand) : Prop := ∀ op args span, .expr op args span ∈ o.walk →
  ∃ operator ∈ Operator.all, operator.name = op ∧ operator.isProper = true

theorem isProper_expr {op : String} {args : List Operand} {span : Option Span} :
    (expr op args span).IsProper ↔
      (∃ operator ∈ Operator.all, operator.name = op ∧ operator.isProper = true) ∧ ∀ a ∈ args, a.IsProper := by
  simp only [IsProper, walk, walkAll_eq_flatMap, List.mem_cons, List.mem_flatMap]
  constructor
  · intro proper
    exact ⟨proper op args span (.inl rfl), fun a isArg op' args' span' inArg =>
      proper op' args' span' (.inr ⟨a, isArg, inArg⟩)⟩
  · rintro ⟨here, inner⟩ op' args' span' (same | ⟨a, isArg, inArg⟩)
    · cases same
      exact here
    · exact inner a isArg op' args' span' inArg

def target? : Operand → Option (String × Option Width)
  | label name width _ _ => some (name, width)
  | _ => none

def targets (os : List Operand) : List (String × Option Width) := (walkAll os).filterMap target?

theorem targets_cons (o : Operand) (os : List Operand) :
    targets (o :: os) = o.walk.filterMap target? ++ targets os := by
  rw [targets, walkAll, List.filterMap_append, targets]

end Operand

def Pointer.target (q : Pointer) : String × Option Width := (q.label, if q.forced then some q.width else none)

namespace ItemCode

def targets (code : ItemCode) : List (String × Option Width) := code.pointers.map Pointer.target

theorem targets_append (a b : ItemCode) : (a ++ b).targets = a.targets ++ b.targets := by
  simp [targets, pointers]

theorem targets_cons {piece : Piece} (notPointer : ∀ q, piece ≠ .pointer q) (code : ItemCode) :
    targets (piece :: code) = code.targets := by
  cases piece <;> first | rfl | exact absurd rfl (notPointer _)

theorem targets_flatten {os : List Operand} {parts : List ItemCode}
    (each : List.Forall₂ (fun o (part : ItemCode) => part.targets.Perm (o.walk.filterMap Operand.target?))
      os parts) : (targets parts.flatten).Perm (Operand.targets os) := by
  induction each with
  | nil => exact .nil
  | cons head _ ih =>
    rw [List.flatten_cons, targets_append, Operand.targets_cons]
    exact head.append ih

end ItemCode

namespace Placement

variable {p : Placement} {o : Operand} {code : ItemCode} {os : List Operand} {slots : Shape}

theorem lowerPointer_targets (lowered : p.lowerPointer o = .ok code) :
    code.targets = o.walk.filterMap Operand.target? := by
  cases o with
  | offset value width isElse span =>
    simp only [lowerPointer] at lowered
    split at lowered <;> cases lowered
    rfl
  | label name width isElse span =>
    simp only [lowerPointer] at lowered
    split at lowered <;> cases lowered
    cases width <;> rfl
  | _ => cases lowered

theorem lowerSlot_targets {slot : Slot} {expression : Except Error ItemCode}
    (accepted : slot.accepts o = true)
    (inner : expression = .ok code → code.targets.Perm (o.walk.filterMap Operand.target?))
    (lowered : p.lowerSlot slot o expression = .ok code) :
    code.targets.Perm (o.walk.filterMap Operand.target?) := by
  unfold lowerSlot at lowered
  split at lowered
  · rw [lowerPointer_targets lowered]
  · rw [lowerPointer_targets lowered]
  · split at lowered <;> cases lowered
    rfl
  · cases lowered
    cases o <;> simp only [Slot.accepts, Bool.false_eq_true] at accepted
    rfl
  · exact inner lowered

/-- The operator's code and the parts of its arguments. -/
theorem lowerExpr_parts {op : Operator} (member : op ∈ Operator.all) (proper : op.isProper = true)
    {span : Option Span} : p.lowerExpr (.expr op.name os span) = .ok code ↔ ∃ slots ∈ op.shapes,
      List.Forall₂ (fun slot o => slot.accepts o = true) slots os ∧ ∃ parts : List ItemCode,
        (slots.zip os).mapM (fun x => p.lowerSlot x.1 x.2 (p.lowerExpr x.2)) = .ok parts ∧
          code = .bytes [op.code] :: (if op.isReversed then parts.reverse else parts).flatten := by
  rw [lowerExpr_proper member proper]
  refine exists_congr fun slots => and_congr_right fun _ => and_congr_right fun _ => ?_
  have zipped : p.lowerArgs slots os =
      (slots.zip os).map fun x => p.lowerSlot x.1 x.2 (p.lowerExpr x.2) := by
    rw [lowerArgs_eq_zipWith, List.zip, List.map_zipWith]
  simp only [zipped, mapM_eq_ok]
  by_cases reversed : op.isReversed = true
  · simp only [reversed, if_true]
    constructor
    · rintro ⟨parts, stored, rfl⟩
      have := List.rel_reverse stored
      rw [List.reverse_reverse, List.forall₂_map_left_iff] at this
      exact ⟨parts.reverse, this, by rw [List.reverse_reverse]⟩
    · rintro ⟨parts, stored, rfl⟩
      exact ⟨parts.reverse, List.rel_reverse (List.forall₂_map_left_iff.2 stored), rfl⟩
  · simp only [reversed, Bool.false_eq_true, if_false, List.forall₂_map_left_iff, id_eq]

theorem lowerExpr_targets (proper : o.IsProper) (lowered : p.lowerExpr o = .ok code) :
    code.targets.Perm (o.walk.filterMap Operand.target?) := by
  induction o using Operand.expr_induction generalizing code with
  | leaf o notExpr =>
    cases o with
    | int value width span =>
      simp only [lowerExpr, lowerInt] at lowered
      split at lowered <;> cases lowered
      exact .nil
    | label | offset =>
      rw [lowerExpr] at lowered
      obtain ⟨address, pointer, rfl⟩ := map_eq_ok.1 lowered
      rw [ItemCode.targets_cons (by simp), lowerPointer_targets pointer]
    | expr op args span => exact absurd rfl (notExpr op args span)
    | atom name span =>
      obtain ⟨a, -, rfl⟩ := lowerExpr_atom_eq_ok.1 lowered
      exact .nil
    | _ => cases lowered
  | expr op args span ih =>
    obtain ⟨⟨operator, member, rfl, isProper⟩, argsProper⟩ := Operand.isProper_expr.1 proper
    obtain ⟨slots, -, accepted, parts, stored, rfl⟩ := (lowerExpr_parts member isProper).1 lowered
    rw [ItemCode.targets_cons (by simp), Operand.walk, List.filterMap_cons_none rfl]
    have each := forall₂_of_zip accepted (mapM_eq_ok.1 stored) (t := fun o part =>
      ItemCode.targets part |>.Perm (o.walk.filterMap Operand.target?)) fun slot o isArg part accepts done =>
        lowerSlot_targets accepts (ih o isArg (argsProper o isArg)) done
    refine .trans ?_ (ItemCode.targets_flatten each)
    split
    · exact ((parts.reverse_perm.flatten).filterMap _).map _
    · exact .refl _

theorem lowerParts_targets {index : Nat} {parts : List ItemCode} (proper : ∀ o ∈ os, o.IsProper)
    (accepted : List.Forall₂ (fun slot o => slot.accepts o = true) slots os)
    (lowered : p.lowerParts index slots os = .ok parts) :
    (ItemCode.targets parts.flatten).Perm (Operand.targets os) := by
  have each := mapM_eq_ok.1 lowered
  have unindexed : List.Forall₂ (fun x part => ∃ index, p.lowerPart (x, index) = .ok part)
      (slots.zip os) parts := by
    rw [← List.zipIdx_map_fst index (slots.zip os), List.forall₂_map_left_iff]
    exact each.imp fun x part done => ⟨x.2, done⟩
  refine ItemCode.targets_flatten (forall₂_of_zip accepted unindexed ?_)
  rintro slot o isOperand part accepts ⟨index, done⟩
  exact lowerSlot_targets accepts (lowerExpr_targets (proper o isOperand)) done

end Placement

namespace Command

variable {c : Command} {p : Placement} {os first others : List Operand} {slots rest : Shape} {code : ItemCode}

theorem targets_arrange {parts tail : List ItemCode} (closed : rest = [] → tail = [])
    (single : c.layout = .assignment → rest = []) : (c.arrange p rest parts tail).targets.Perm
      (ItemCode.targets parts.flatten ++ ItemCode.targets tail.flatten) := by
  by_cases kind : c.layout = .assignment
  · have empty : tail = [] := closed (single kind)
    have same : c.arrange p rest parts tail = parts.reverse.flatten := by simp only [arrange, kind]
    rw [same, empty]
    exact ((parts.reverse_perm.flatten.filterMap _).map _).trans (by simp [ItemCode.targets, ItemCode.pointers])
  · have closing : (Placement.closeTail c.layout tail.length tail.flatten).targets =
        ItemCode.targets tail.flatten := by
      unfold Placement.closeTail
      split
      · exact ItemCode.targets_cons (by simp) _
      · rw [ItemCode.targets_append]
        exact List.append_nil _
      · rfl
    have body : ItemCode.targets (parts.flatten ++
        if rest = [] then [] else Placement.closeTail c.layout tail.length tail.flatten) =
          ItemCode.targets parts.flatten ++ ItemCode.targets tail.flatten := by
      rw [ItemCode.targets_append]
      split
      · rename_i empty
        rw [closed empty]
        rfl
      · rw [closing]
    rw [arrange_of_not_assignment kind]
    dsimp only
    split
    · rw [ItemCode.targets_cons (by simp), body]
    · rw [body]

theorem Fills.lowerCommand_targets (fills : c.Fills os slots rest first others) (member : c ∈ all)
    (noMessage : c.layout ≠ .message) (proper : ∀ o ∈ os, o.IsProper)
    (lowered : p.lowerCommand c os = .ok code) : code.targets.Perm (Operand.targets os) := by
  obtain ⟨-, -, parts, tail, loweredParts, loweredTail, rfl⟩ :=
    (fills.lowers_iff member noMessage).1 lowered
  obtain rfl := fills.split
  have acceptsTail : List.Forall₂ (fun slot o => slot.accepts o = true) (Placement.tailSlots others) others :=
    List.forall₂_map_left_iff.2 (List.forall₂_same.2 fills.acceptsTail)
  have closed : rest = [] → tail = [] := by
    intro noTail
    rw [fills.closed noTail] at loweredTail
    exact (Except.ok.inj loweredTail).symm
  have whole : Operand.targets (first ++ others) = Operand.targets first ++ Operand.targets others := by
    simp [Operand.targets, Operand.walkAll_eq_flatMap]
  rw [whole]
  refine (targets_arrange closed fun kind => (fills.assignment member kind).1).trans (.append ?_ ?_)
  · exact Placement.lowerParts_targets (fun o inFirst => proper o (List.mem_append_left _ inFirst))
      fills.accepts loweredParts
  · exact Placement.lowerParts_targets (fun o inOthers => proper o (List.mem_append_right _ inOthers))
      acceptsTail loweredTail

end Command

/-- The operators of the instruction are stored as such, and a message stands alone. -/
structure Instruction.IsProper (i : Instruction) : Prop where
  operands : ∀ o ∈ i.operands, o.IsProper
  message : ∀ c ∈ Command.all, c.name = i.opcode → c.layout = .message →
    ∃ commands span, i.operands = [.message commands span]

/-- An instruction is lowered to one pointer for each of its labels. -/
theorem Instruction.lower_targets {labels : LabelTable} {i : Instruction} (proper : i.IsProper)
    {code : ItemCode} (lowered : i.lower labels = .ok code) :
    code.targets.Perm (Operand.targets i.operands) := by
  obtain ⟨c, member, name, body, stored, rfl⟩ := Instruction.lower_eq_ok.1 lowered
  rw [ItemCode.targets_cons (by simp)]
  by_cases kind : c.layout = .message
  · obtain ⟨commands, span, same⟩ := proper.message c member name kind
    rw [same] at stored ⊢
    simp only [Placement.lowerCommand, kind] at stored
    obtain ⟨bs, -, -, rfl⟩ := Placement.lowerMessage_eq_ok.1 stored
    exact .nil
  · obtain ⟨shape, chosen⟩ := Command.exists_shapeOf kind stored
    obtain ⟨slots, rest, first, others, -, fills⟩ := Command.exists_fills member chosen
    exact fills.lowerCommand_targets member kind proper.operands stored

end EventScript
