import EventScript.Proofs.Rereading

namespace EventScript

/-- A list of operands at some depth: those of the command itself, or the arguments of an operator in such a list. A
message body holds no operands of the command. -/
inductive Row (operands : List Operand) : Option String → List Operand → Prop
  | outer : Row operands none operands
  | inner {parent : Option String} {row args : List Operand} {op : String} {span : Option Span} :
    Row operands parent row → .expr op args span ∈ row → Row operands (some op) args

namespace Operand

theorem mem_walk_arg {o a : Operand} {op : String} {args : List Operand} {span : Option Span}
    (inside : .expr op args span ∈ o.walk) (isArg : a ∈ args) : a ∈ o.walk := by
  induction o using expr_induction with
  | leaf o notExpr =>
    cases o with
    | expr op args span => exact absurd rfl (notExpr op args span)
    | _ => simp [walk] at inside
  | expr op' args' span' ih =>
    rw [walk, walkAll_eq_flatMap, List.mem_cons, List.mem_flatMap] at inside ⊢
    rcases inside with same | ⟨b, inArgs, inB⟩
    · cases same
      exact .inr ⟨a, isArg, mem_walk_self a⟩
    · exact .inr ⟨b, inArgs, ih b inArgs inB⟩

theorem exists_row_of_mem_walk {operands row : List Operand} {parent : Option String} (isRow : Row operands parent row)
    {o inner : Operand} (inRow : o ∈ row) (inside : inner ∈ o.walk) :
    ∃ parent row, Row operands parent row ∧ inner ∈ row := by
  induction o using expr_induction generalizing parent row with
  | leaf o notExpr =>
    cases o with
    | expr op args span => exact absurd rfl (notExpr op args span)
    | _ => exact ⟨parent, row, isRow, List.mem_singleton.1 inside ▸ inRow⟩
  | expr op args span ih =>
    rw [walk, walkAll_eq_flatMap, List.mem_cons, List.mem_flatMap] at inside
    rcases inside with rfl | ⟨a, isArg, inArg⟩
    · exact ⟨parent, row, isRow, inRow⟩
    · exact ih a isArg (.inner isRow inRow) isArg inArg

theorem mem_walkAll_iff {operands : List Operand} {o : Operand} :
    o ∈ walkAll operands ↔ ∃ parent row, Row operands parent row ∧ o ∈ row := by
  rw [walkAll_eq_flatMap, List.mem_flatMap]
  constructor
  · rintro ⟨a, inOperands, inside⟩
    exact exists_row_of_mem_walk .outer inOperands inside
  · rintro ⟨parent, row, isRow, inRow⟩
    induction isRow generalizing o with
    | outer => exact ⟨o, inRow, mem_walk_self o⟩
    | inner _ isExpr ih =>
      obtain ⟨a, inOperands, inside⟩ := ih isExpr
      exact ⟨a, inOperands, mem_walk_arg inside inRow⟩

end Operand

def Operand.isAccessor : Operand → Bool
  | expr op _ _ => Operator.isAssignable op
  | _ => false

namespace Slot

theorem eq_update_of_accepts {slot : Slot} {op : String} {args : List Operand} {span : Option Span}
    (isAssignment : Operator.isAssignment op = true) (accepted : slot.accepts (.expr op args span) = true) :
    slot = .update := by
  cases slot with
  | update => rfl
  | expr | variadic => simp [accepts, Operand.isExpression, isAssignment] at accepted
  | assignable =>
    have table : ∀ o ∈ Operator.all, o.role = .assignment → o.assignable = false := by decide +kernel
    simp only [accepts, Operator.isAssignable, Operator.isAssignment, Option.any_eq_true, beq_iff_eq]
      at accepted isAssignment
    obtain ⟨o, found, role⟩ := isAssignment
    obtain ⟨o', found', assignable⟩ := accepted
    cases found.symm.trans found'
    rw [table o (Operator.ofName?_eq_some.1 found).1 role] at assignable
    cases assignable
  | _ => cases accepted

theorem exists_atom_of_accepts {slot : Slot} {name : String} {span : Option Span}
    (accepted : slot.accepts (.atom name span) = true) : ∃ a : Atom, slot = .atom a ∧ a.name = name := by
  cases slot with
  | atom a => exact ⟨a, rfl, (beq_iff_eq.1 accepted).symm⟩
  | _ => cases accepted

end Slot

theorem Operator.shapes_of_isAssignment {op : String} (isAssignment : isAssignment op = true) :
    ∃ o, ofName? op = some o ∧ o.shapes = [[.assignable, operand]] := by
  have table : ∀ o ∈ all, o.role = .assignment → o.shapes = [[.assignable, operand]] := by decide +kernel
  obtain ⟨o, found, role⟩ := (Option.any_eq_true ..).1 isAssignment
  exact ⟨o, found, table o (ofName?_eq_some.1 found).1 (by simpa using role)⟩

theorem Operator.update_not_mem {o : Operator} (member : o ∈ all) {form : Shape} (inForms : form ∈ o.shapes) :
    .update ∉ form := by
  have table : ∀ o ∈ all, ∀ form ∈ o.shapes, .update ∉ form := by decide +kernel
  exact table o member form inForms

namespace Command

theorem eq_set_of_update {c : Command} (member : c ∈ all) {form : Shape} (inForms : form ∈ c.shapes)
    (updates : .update ∈ form) : c.name = "set" ∧ form = [.update] := by
  have table : ∀ c ∈ all, ∀ form ∈ c.shapes, .update ∈ form → c.name = "set" ∧ form = [.update] := by decide +kernel
  exact table c member form inForms updates

theorem shapes_set {c : Command} (member : c ∈ all) (isSet : c.name = "set") :
    c.shapes = [[.update], [.assignable, value]] := by
  have table : ∀ c ∈ all, c.name = "set" → c.shapes = [[.update], [.assignable, value]] := by decide +kernel
  exact table c member isSet

def Chosen (shape : Shape) (parent : Option String) (row : List Operand) (form : Shape) : Prop :=
  match parent with
  | none => form = shape
  | some op => ∃ o, Operator.ofName? op = some o ∧ o.shapeOf row = .ok form

/-- The restrictions of the language on the operands of a command, at every depth. -/
structure Obeys (c : Command) (shape : Shape) (operands : List Operand) : Prop where
  update : ∀ parent row op args span, Row operands parent row → .expr op args span ∈ row →
    Operator.isAssignment op = true → c.name = "set" ∧ parent = none ∧ operands = [.expr op args span]
  updated : ∀ parent row op args span, Row operands parent row → .expr op args span ∈ row →
    Operator.isAssignment op = true → ∃ place rest, args = place :: rest ∧ place.isAccessor = true
  assigned : ∀ place value, c.name = "set" → operands = [place, value] → place.isAccessor = true
  atoms : ∀ parent row i name span, Row operands parent row → row[i]? = some (.atom name span) →
    ∃ form a, Chosen shape parent row form ∧ form.slotAt i = some (.atom a) ∧ a.name = name
  elses : ∀ parent row i o, Row operands parent row → row[i]? = some o → o.isElse = true →
    parent = none ∧ shape.slotAt i = some .elsePointer
  strings : ∀ op row o, Row operands (some op) row → o ∈ row →
    (∀ bytes span, o ≠ .text bytes span) ∧ ∀ commands span, o ≠ .message commands span
  operators : ∀ parent row op args span, Row operands parent row → .expr op args span ∈ row →
    ∃ o, Operator.ofName? op = some o ∧ ∃ form ∈ o.shapes, Shape.Fits Slot.accepts form args

section Accepted

variable {c : Command} {shape : Shape} {operands row : List Operand} {parent : Option String}

theorem fits_row (member : c ∈ all) (accepted : c.shapeOf operands = .ok shape) (isRow : Row operands parent row) :
    (∀ o ∈ row, o.checkExpression = .ok ()) ∧
      ∃ form, Chosen shape parent row form ∧ Shape.Fits Slot.accepts form row ∧
        match parent with
        | none => row = operands ∧ form ∈ c.shapes
        | some op => ∃ o ∈ Operator.all, o.name = op ∧ form ∈ o.shapes := by
  induction isRow with
  | outer =>
    obtain ⟨inForms, fits, checked⟩ := (shapeOf_eq_ok member).1 accepted
    exact ⟨checked, shape, rfl, fits, rfl, inForms⟩
  | inner _ inRow ih =>
    obtain ⟨o, known, rfl, ⟨form, chosen⟩, checked⟩ := Operand.checkExpression_expr (ih.1 _ inRow)
    obtain ⟨inForms, fits⟩ :=
      (Shape.choose_eq_ok (Operator.regular known).separate Slot.not_accepts_of_exclusive).1 chosen
    exact ⟨checked, form, ⟨o, Operator.ofName?_eq_some.2 ⟨known, rfl⟩, chosen⟩, fits, o, known, rfl, inForms⟩

theorem exists_slot_row (member : c ∈ all) (accepted : c.shapeOf operands = .ok shape) (isRow : Row operands parent row)
    {i : Nat} {o : Operand} (here : row[i]? = some o) :
    ∃ form slot, Chosen shape parent row form ∧ form.slotAt i = some slot ∧ slot.accepts o = true ∧
      match parent with
      | none => row = operands ∧ form = shape ∧ shape ∈ c.shapes
      | some _ => slot.takesTerm = true ∧ slot ≠ .update := by
  obtain ⟨-, form, chosen, fits, forms⟩ := fits_row member accepted isRow
  obtain ⟨inside, rfl⟩ := List.getElem?_eq_some_iff.1 here
  obtain ⟨slot, isSlot, accepts⟩ := (Option.any_eq_true ..).1 (fits.each i inside)
  refine ⟨form, slot, chosen, isSlot, accepts, ?_⟩
  cases parent with
  | none =>
    cases chosen
    exact ⟨forms.1, rfl, forms.2⟩
  | some op =>
    obtain ⟨o, known, -, inForms⟩ := forms
    rcases Shape.mem_of_slotAt isSlot with inForm | rfl
    · refine ⟨Operator.takesTerm_of_mem known inForms inForm, ?_⟩
      rintro rfl
      exact Operator.update_not_mem known inForms inForm
    · exact ⟨rfl, by simp⟩

theorem update_row (member : c ∈ all) (accepted : c.shapeOf operands = .ok shape) (isRow : Row operands parent row)
    {op : String} {args : List Operand} {span : Option Span} (inRow : .expr op args span ∈ row)
    (isAssignment : Operator.isAssignment op = true) :
    c.name = "set" ∧ parent = none ∧ operands = [.expr op args span] := by
  obtain ⟨i, here⟩ := List.mem_iff_getElem?.1 inRow
  obtain ⟨form, slot, -, isSlot, accepts, place⟩ := exists_slot_row member accepted isRow here
  cases Slot.eq_update_of_accepts isAssignment accepts
  cases parent with
  | some op => exact absurd rfl place.2
  | none =>
    obtain ⟨rfl, rfl, inForms⟩ := place
    have updates : .update ∈ form := (Shape.mem_of_slotAt isSlot).resolve_right (by simp)
    obtain ⟨isSet, rfl⟩ := eq_set_of_update member inForms updates
    obtain ⟨-, fits, -⟩ := (shapeOf_eq_ok member).1 accepted
    have single := ((Shape.fits_fixed (by simp)).1 fits).length_eq
    obtain ⟨only, rfl⟩ := List.length_eq_one_iff.1 single.symm
    rw [List.mem_singleton.1 inRow]
    exact ⟨isSet, rfl, rfl⟩

theorem isAccessor_of_fits {kind : ExprKind} {os : List Operand}
    (fits : Shape.Fits Slot.accepts [.assignable, .expr kind] os) :
    ∃ place rest, os = place :: rest ∧ place.isAccessor = true := by
  cases (Shape.fits_fixed (by simp)).1 fits with
  | cons accepts _ =>
    rename_i place rest _
    refine ⟨place, rest, rfl, ?_⟩
    cases place <;> exact accepts

end Accepted

/-- The operands of every accepted command obey the restrictions of the language, at every depth that a walk over them
reaches. -/
theorem obeys_of_shapeOf {opcode : String} {c : Command} {operands : List Operand} {shape : Shape}
    (known : ofName? opcode = some c) (accepted : c.shapeOf operands = .ok shape) :
    (∀ o, o ∈ Operand.walkAll operands ↔ ∃ parent row, Row operands parent row ∧ o ∈ row) ∧ c.Obeys shape operands := by
  have member := (ofName?_eq_some.1 known).1
  have operators (parent : Option String) (row : List Operand) (op : String) (args : List Operand) (span : Option Span)
      (isRow : Row operands parent row) (inRow : .expr op args span ∈ row) :
      ∃ o, Operator.ofName? op = some o ∧ ∃ form ∈ o.shapes, Shape.Fits Slot.accepts form args := by
    obtain ⟨-, form, -, fits, o, inAll, rfl, inForms⟩ := fits_row member accepted (.inner isRow inRow)
    exact ⟨o, Operator.ofName?_eq_some.2 ⟨inAll, rfl⟩, form, inForms, fits⟩
  refine ⟨fun o => Operand.mem_walkAll_iff, ?_, ?_, ?_, ?_, ?_, ?_, operators⟩
  · intro parent row op args span isRow inRow isAssignment
    exact update_row member accepted isRow inRow isAssignment
  · intro parent row op args span isRow inRow isAssignment
    obtain ⟨o, found, form, inForms, fits⟩ := operators parent row op args span isRow inRow
    obtain ⟨o', found', shapes⟩ := Operator.shapes_of_isAssignment isAssignment
    cases found.symm.trans found'
    rw [shapes, List.mem_singleton] at inForms
    exact isAccessor_of_fits (inForms ▸ fits)
  · intro place value isSet two
    obtain ⟨inForms, fits, -⟩ := (shapeOf_eq_ok member).1 accepted
    rw [shapes_set member isSet] at inForms
    subst two
    rcases List.mem_pair.1 inForms with rfl | rfl
    · cases ((Shape.fits_fixed (by simp)).1 fits).length_eq
    · obtain ⟨_, _, same, isAccessor⟩ := isAccessor_of_fits fits
      cases same
      exact isAccessor
  · intro parent row i name span isRow here
    obtain ⟨form, slot, chosen, isSlot, accepts, -⟩ := exists_slot_row member accepted isRow here
    obtain ⟨a, rfl, named⟩ := Slot.exists_atom_of_accepts accepts
    exact ⟨form, a, chosen, isSlot, named⟩
  · intro parent row i o isRow here isElse
    obtain ⟨form, slot, -, isSlot, accepts, place⟩ := exists_slot_row member accepted isRow here
    have elseSlot : slot = .elsePointer := by
      by_contra other
      rw [Slot.isElse_of_accepts other accepts] at isElse
      cases isElse
    subst elseSlot
    cases parent with
    | none => exact ⟨rfl, place.2.1 ▸ isSlot⟩
    | some op => cases place.1
  · intro op row o isRow inRow
    obtain ⟨i, here⟩ := List.mem_iff_getElem?.1 inRow
    obtain ⟨form, slot, -, -, accepts, takes, -⟩ := exists_slot_row member accepted isRow here
    have isTerm := Slot.isTerm_of_accepts takes accepts
    constructor
    · rintro bytes span rfl
      cases isTerm
    · rintro commands span rfl
      cases isTerm

def movedBy : List Operand :=
  [.expr "adda" [.expr "var" [.int 3 none none] none,
    .expr "obj" [.atom "pos_x" none, .int 1 none none] none] none]

theorem obeys_of_shapeOf_movedBy : ∃ c, ofName? "set" = some c ∧ c.shapeOf movedBy = .ok [.update] ∧
    (∀ o, o ∈ Operand.walkAll movedBy ↔ ∃ parent row, Row movedBy parent row ∧ o ∈ row) ∧
      c.Obeys [.update] movedBy := by
  have table : (ofName? "set").any (fun c => (c.shapeOf movedBy).toOption == some [.update]) = true := by decide +kernel
  obtain ⟨c, known, found⟩ := (Option.any_eq_true ..).1 table
  have accepted : c.shapeOf movedBy = .ok [.update] := toOption_eq_some.1 (beq_iff_eq.1 found)
  exact ⟨c, known, accepted, obeys_of_shapeOf known accepted⟩

end Command

end EventScript
