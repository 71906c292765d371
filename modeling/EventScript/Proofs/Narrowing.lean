import EventScript.Proofs.Reassembly

/-!
Encoding what was decoded.

The walk over the forms of a command keeps, of each form, the slots that are still to be read. Here the forms are kept
whole, so that the walk says which form it ends with. That form is the one that the operands are matched to when they
are lowered again, and lowering gives back the bytes that they were read from, whether references are left as offsets
or named.
-/

namespace EventScript

namespace Decoder

def walkForm (reading : Reading) (name : String) : Nat → Nat → List Shape → Decoder (List Operand × Shape)
  | 0, _, live => return ([], live.head?.getD [])
  | limit + 1, index, live =>
    match live.find? fun form => Shape.isFinished (form.drop index) with
    | some form => return ([], form)
    | none => do
      let slots := live.filterMap (·[index]?)
      if slots.any Slot.isSelector then
        let start ← offset
        let (value, width) ← reading.selector
        let chosen := live.filter fun form => form[index]?.any (Slot.selectedBy value width)
        match chosen.head?.bind (·[index]?) with
        | none => fail (.selector value index name) start
        | some slot =>
          let (operands, form) ← walkForm reading name limit (index + 1) chosen
          return (reading.selected slot value width :: operands, form)
      else
        match slots.head? with
        | none => return ([], [])
        | some slot =>
          let operand ← reading.operand index slot
          let (operands, form) ← walkForm reading name limit (index + 1) live
          return (operand :: operands, form)

variable {reading : Reading} {name : String} {c c' : Cursor} {os : List Operand}

theorem walk_eq_walkForm (limit index : Nat) (live : List Shape) :
    walk reading name limit index (live.map (List.drop index)) = (do
      let read ← walkForm reading name limit index live
      return (read.1, read.2.drop (index + read.1.length))) := by
  -- One side keeps the forms whole and counts the slots that were read, the other cuts them off.
  induction limit generalizing index live with
  | zero =>
    cases live with
    | nil => simp [walk, walkForm]
    | cons form live => simp [walk, walkForm]
  | succ limit ih =>
    have finish : finished (live.map (List.drop index)) =
        (live.find? fun form => Shape.isFinished (form.drop index)).map (List.drop index) := by
      rw [finished_eq_find?, List.find?_map]
      rfl
    have heads : (live.map (List.drop index)).filterMap List.head? = live.filterMap (·[index]?) := by
      simp [List.filterMap_map, List.head?_drop]
    have tails (forms : List Shape) :
        (forms.map (List.drop index)).map List.tail = forms.map (List.drop (index + 1)) := by
      simp [Function.comp_def]
    have chosen (value : Int) (width : Width) : (live.map (List.drop index)).filter (fun shape =>
        shape.head?.any (Slot.selectedBy value width)) =
          (live.filter fun form => form[index]?.any (Slot.selectedBy value width)).map (List.drop index) := by
      simp [List.filter_map, Function.comp_def, List.head?_drop]
    have first (forms : List Shape) : (forms.map (List.drop index)).head?.bind List.head? =
        forms.head?.bind (·[index]?) := by
      cases forms <;> simp [List.head?_drop]
    have next (operand : Operand) (forms : List Shape) : (do
        let read ← walk reading name limit (index + 1) ((forms.map (List.drop index)).map List.tail)
        return (operand :: read.1, read.2) : Decoder (List Operand × Shape)) = (do
          let read ← walkForm reading name limit (index + 1) forms
          return (operand :: read.1, read.2.drop (index + (operand :: read.1).length))) := by
      rw [tails, ih, bind_assoc]
      refine bind_congr fun read => ?_
      have count : index + 1 + read.1.length = index + (operand :: read.1).length := by
        rw [List.length_cons]
        omega
      rw [pure_bind, count]
    unfold walk walkForm
    rw [finish, heads]
    cases live.find? fun form => Shape.isFinished (form.drop index) with
    | some form => simp
    | none =>
      dsimp only [Option.map_none]
      split
      · simp only [bind_assoc]
        refine bind_congr fun start => bind_congr fun read => ?_
        obtain ⟨value, width⟩ := read
        dsimp only
        rw [chosen, first]
        cases (live.filter fun form => form[index]?.any (Slot.selectedBy value width)).head?.bind (·[index]?) with
        | none => rfl
        | some slot =>
          dsimp only
          rw [bind_assoc]
          exact next (reading.selected slot value width) _
      · cases (live.filterMap (·[index]?)).head? with
        | none => simp
        | some slot =>
          simp only [bind_assoc]
          refine bind_congr fun operand => ?_
          exact next operand live

section Slots

variable {limit : Nat} {before : List Slot} {live : List Shape} {form : Shape}

theorem head?_append_getElem? (before : List Slot) (shape : Shape) :
    (before ++ shape)[before.length]? = shape.head? := by
  rw [List.getElem?_append_right (Nat.le_refl _), Nat.sub_self, ← List.head?_eq_getElem?]

theorem walkForm_succ (limit : Nat) (before : List Slot) (live : List Shape) :
    walkForm reading name (limit + 1) before.length (live.map (before ++ ·)) =
      match live.find? Shape.isFinished with
      | some shape => return ([], before ++ shape)
      | none => do
        let slots := live.filterMap List.head?
        if slots.any Slot.isSelector then
          let start ← offset
          let (value, width) ← reading.selector
          match (chosenBy live value width).head?.bind List.head? with
          | none => fail (.selector value before.length name) start
          | some slot =>
            let (operands, form) ← walkForm reading name limit (before.length + 1)
              ((chosenBy live value width).map (before ++ ·))
            return (reading.selected slot value width :: operands, form)
        else
          match slots.head? with
          | none => return ([], [])
          | some slot =>
            let operand ← reading.operand before.length slot
            let (operands, form) ← walkForm reading name limit (before.length + 1) (live.map (before ++ ·))
            return (operand :: operands, form) := by
  have finish : (live.map (before ++ ·)).find? (fun form => Shape.isFinished (form.drop before.length)) =
      (live.find? Shape.isFinished).map (before ++ ·) := by
    simp only [List.find?_map, Function.comp_def, List.drop_left]
  have heads : (live.map (before ++ ·)).filterMap (·[before.length]?) = live.filterMap List.head? := by
    simp only [List.filterMap_map, Function.comp_def, head?_append_getElem?]
  have chosen (value : Int) (width : Width) : (live.map (before ++ ·)).filter (fun form =>
      form[before.length]?.any (Slot.selectedBy value width)) = (chosenBy live value width).map (before ++ ·) := by
    simp only [List.filter_map, Function.comp_def, head?_append_getElem?, chosenBy]
  have first (forms : List Shape) : (forms.map (before ++ ·)).head?.bind (·[before.length]?) =
      forms.head?.bind List.head? := by
    cases forms with
    | nil => rfl
    | cons shape forms => simp only [List.map_cons, List.head?_cons, Option.bind_some, head?_append_getElem?]
  rw [walkForm, finish, heads]
  simp only [chosen, first]
  cases live.find? Shape.isFinished <;> rfl

theorem map_append_cons {slot : Slot} (common : ∀ shape ∈ live, ∃ rest, shape = slot :: rest) :
    live.map (before ++ ·) = (live.map List.tail).map ((before ++ [slot]) ++ ·) := by
  rw [List.map_map]
  apply List.map_congr_left
  intro shape member
  obtain ⟨rest, rfl⟩ := common shape member
  simp

theorem exists_common_slot (separate : Shape.Separate live) (some : live ≠ [])
    (unfinished : ∀ shape ∈ live, shape.isFinished = false)
    (noSelector : ¬ (live.filterMap List.head?).any Slot.isSelector = true) :
    ∃ slot, (live.filterMap List.head?).head? = .some slot ∧ slot.isSelector = false ∧
      ∀ shape ∈ live, ∃ rest, shape = slot :: rest := by
  obtain ⟨shape, others, rfl⟩ := List.exists_cons_of_ne_nil some
  rcases Shape.heads_of_unfinished separate unfinished with ⟨slot, plain, -, common⟩ | selectors
  · obtain ⟨rest, rfl⟩ := common shape List.mem_cons_self
    exact ⟨slot, rfl, plain, common⟩
  · obtain ⟨slot, rest, rfl, selector⟩ := selectors shape List.mem_cons_self
    simp [selector] at noSelector

theorem slots_of_walkForm (separate : Shape.Separate live) (some : live ≠ [])
    (short : ∀ shape ∈ live, shape.length ≤ limit)
    (read : (walkForm reading name limit before.length (live.map (before ++ ·))).Reads c (os, form) c') :
    ∃ slots rest, form = before ++ (slots ++ rest) ∧ slots ++ rest ∈ live ∧
      reading.ReadsSlots before.length slots c os c' := by
  induction limit generalizing before live c os with
  | zero =>
    obtain ⟨shape, others, rfl⟩ := List.exists_cons_of_ne_nil some
    have empty : shape = [] := List.length_eq_zero_iff.1 (Nat.le_zero.1 (short shape List.mem_cons_self))
    obtain ⟨same, rfl⟩ := reads_pure.1 read
    obtain ⟨rfl, rfl⟩ := Prod.mk.inj same
    exact ⟨[], shape, rfl, List.mem_cons_self, rfl⟩
  | succ limit ih =>
    have next {slot : Slot} {forms : List Shape} {c₁ : Cursor} {os' : List Operand}
        (subset : ∀ shape ∈ forms, shape ∈ live) (some' : forms ≠ [])
        (common : ∀ shape ∈ forms, ∃ rest, shape = slot :: rest)
        (read' : (walkForm reading name limit (before.length + 1) (forms.map (before ++ ·))).Reads c₁ (os', form) c') :
        ∃ slots rest, form = before ++ (slot :: slots ++ rest) ∧ slot :: slots ++ rest ∈ live ∧
          reading.ReadsSlots (before.length + 1) slots c₁ os' c' := by
      have shorter : ∀ shape ∈ forms.map List.tail, shape.length ≤ limit := by
        intro tail member
        obtain ⟨shape, inForms, rfl⟩ := List.mem_map.1 member
        have bound := short shape (subset shape inForms)
        rw [List.length_tail]
        omega
      have length : (before ++ [slot]).length = before.length + 1 := by simp
      rw [map_append_cons common, ← length] at read'
      obtain ⟨slots, rest, isForm, member, reads⟩ :=
        ih (separate.tails subset common) (by simpa using some') shorter read'
      obtain ⟨shape, inForms, same⟩ := List.mem_map.1 member
      obtain ⟨_, rfl⟩ := common shape inForms
      rw [List.tail_cons] at same
      subst same
      rw [length] at reads
      exact ⟨slots, rest, by simpa using isForm, subset _ inForms, reads⟩
    rw [walkForm_succ] at read
    cases found : live.find? Shape.isFinished with
    | some shape =>
      rw [found] at read
      obtain ⟨same, rfl⟩ := reads_pure.1 read
      obtain ⟨rfl, rfl⟩ := Prod.mk.inj same
      exact ⟨[], shape, rfl, List.mem_of_find?_eq_some found, rfl⟩
    | none =>
      have unfinished : ∀ shape ∈ live, shape.isFinished = false := by
        intro shape member
        simpa using List.find?_eq_none.1 found shape member
      rw [found] at read
      dsimp only at read
      split at read
      · -- The forms that stay are those whose selector has the value that is read.
        simp only [reads_bind, reads_offset, Prod.exists] at read
        obtain ⟨_, _, ⟨rfl, rfl⟩, value, width, c₁, selector, read⟩ := read
        cases first : (chosenBy live value width).head?.bind List.head? with
        | none => simp only [first, reads_fail] at read
        | some slot =>
          obtain ⟨selected, common⟩ := chosenBy_common separate first
          have some' : chosenBy live value width ≠ [] := by
            intro empty
            simp [empty] at first
          simp only [first, reads_bind, Prod.exists, reads_pure, Prod.mk.injEq] at read
          obtain ⟨os', _, _, others, ⟨rfl, rfl⟩, rfl⟩ := read
          obtain ⟨slots, rest, isForm, member, reads⟩ := next chosenBy_subset some' common others
          have here : reading.ReadsSlot before.length slot c (reading.selected slot value width) c₁ :=
            (reading.readsSlot_selector (Slot.isSelector_of_selectedBy selected)).2
              ⟨value, width, selector, selected, rfl⟩
          exact ⟨slot :: slots, rest, isForm, member, c₁, here, reads⟩
      · -- All forms go on with the same slot, so none drops out.
        rename_i noSelector
        obtain ⟨slot, first, plain, common⟩ := exists_common_slot separate some unfinished noSelector
        simp only [first, reads_bind, Prod.exists, reads_pure, Prod.mk.injEq] at read
        obtain ⟨o, c₁, here, os', _, _, others, ⟨rfl, rfl⟩, rfl⟩ := read
        obtain ⟨slots, rest, isForm, inLive, reads⟩ := next (fun _ inside => inside) some common others
        exact ⟨slot :: slots, rest, isForm, inLive, c₁, (reading.readsSlot_operand plain).2 here, reads⟩

end Slots

def walkForms (reading : Reading) (name : String) (shapes : List Shape) : Decoder (List Operand × Shape) :=
  walkForm reading name ((shapes.map List.length).foldl max 0) 0 shapes

theorem Reading.length_eq_of_readsSlots {index : Nat} {slots : List Slot}
    (read : reading.ReadsSlots index slots c os c') : slots.length = os.length := by
  induction slots generalizing index c os with
  | nil =>
    obtain ⟨rfl, -⟩ := Reading.readsSlots_nil.1 read
    rfl
  | cons slot slots ih =>
    obtain ⟨o, os', c₁, rfl, -, others⟩ := Reading.readsSlots_cons.1 read
    rw [List.length_cons, List.length_cons, ih others]

theorem exists_form_of_walkShapes {shapes : List Shape} (regular : Shape.Regular shapes) {rest : Shape}
    (read : (walkShapes reading name shapes).Reads c (os, rest) c') :
    ∃ form slots, (walkForms reading name shapes).Reads c (os, form) c' ∧ form = slots ++ rest ∧ form ∈ shapes ∧
      reading.ReadsSlots 0 slots c os c' := by
  have whole : shapes.map (List.drop 0) = shapes := List.map_id shapes
  unfold walkShapes at read
  rw [← whole, walk_eq_walkForm, whole] at read
  simp only [reads_bind, Prod.exists, reads_pure, Prod.mk.injEq, Nat.zero_add] at read
  obtain ⟨first, form, c₁, walked, ⟨rfl, left⟩, rfl⟩ := read
  have start : (walkForm reading name ((shapes.map List.length).foldl max 0) ([] : List Slot).length
      (shapes.map ([] ++ ·))).Reads c (first, form) c₁ := by
    simpa using walked
  obtain ⟨slots, rest', rfl, member, reads⟩ := slots_of_walkForm regular.separate regular.nonempty
    (fun shape => length_le_foldl_max) start
  have count : slots.length = first.length := Reading.length_eq_of_readsSlots reads
  rw [List.nil_append, ← count, List.drop_left] at left
  subst left
  exact ⟨_, slots, walked, rfl, member, reads⟩

end Decoder

theorem Shape.eq_of_fits {shapes : List Shape} (separate : Separate shapes) {slots : List Slot} {rest shape : Shape}
    {first others : List Operand} (form : slots ++ rest ∈ shapes) (tail : IsTail rest)
    (accepts : List.Forall₂ (fun slot o => slot.accepts o = true) slots first) (member : shape ∈ shapes)
    (fits : Fits Slot.accepts shape (first ++ others)) : slots ++ rest = shape := by
  by_contra differ
  obtain ⟨i, s, t, here, there, exclusive⟩ := exists_of_apart (separate _ form _ member differ)
  have selector : s.isSelector = true := Slot.isSelector_of_exclusive exclusive
  have inside : i < slots.length := by
    by_contra after
    rw [List.getElem?_append_right (Nat.le_of_not_lt after)] at here
    have inRest := List.mem_of_getElem? here
    rcases tail with rfl | rfl
    · cases inRest
    · rw [List.mem_singleton.1 inRest] at selector
      cases selector
  have bound : i < first.length := accepts.length_eq ▸ inside
  have accepted : s.accepts first[i] = true := by
    have each := accepts.get inside bound
    rw [List.getElem?_append_left inside, List.getElem?_eq_getElem inside, Option.some.injEq] at here
    simpa [← here] using each
  have slot := (slotAt_of_selector there
    (Slot.isSelector_of_exclusive ((Slot.exclusive_comm s t).symm.trans exclusive))).2
  have accepted' := fits.each i (by rw [List.length_append]; omega)
  rw [slot, Option.any_some, List.getElem_append_left bound,
    Slot.not_accepts_of_exclusive exclusive accepted] at accepted'
  cases accepted'

namespace Decoder

variable {size : Nat} {command : Command} {c c' : Cursor} {os : List Operand}

def walkStart (command : Command) (c : Cursor) : Cursor :=
  if command.layout = .sized then ⟨c.rest.drop 2, c.offset + 2⟩ else c

theorem exists_walk_of_tailed {reading : Reading} {more : List Operand × Shape → Decoder (List Operand)}
    (appends : ∀ first rest c₁, (more (first, rest)).Reads c₁ os c' → first <+: os)
    (read : (do let read ← walkShapes reading command.name command.shapes
                if read.2.isEmpty then return read.1
                more read : Decoder (List Operand)).Reads c os c') :
    ∃ first rest c₁, (walkShapes reading command.name command.shapes).Reads c (first, rest) c₁ ∧ first <+: os := by
  obtain ⟨⟨first, rest⟩, c₁, walked, read⟩ := reads_bind.1 read
  refine ⟨first, rest, c₁, walked, ?_⟩
  split at read
  · obtain ⟨rfl, -⟩ := reads_pure.1 read
    exact List.prefix_refl _
  · exact appends first rest c₁ read

theorem exists_walk_of_operands (noMessage : command.layout ≠ .message) (noAssignment : command.layout ≠ .assignment)
    (read : (operands size command).Reads c os c') : ∃ first rest c₁,
      (walkShapes (readingWith size (expression size c.rest.length) command.name) command.name command.shapes).Reads
        (walkStart command c) (first, rest) c₁ ∧ first <+: os := by
  unfold operands at read
  rw [reads_start] at read
  unfold walkStart
  cases kind : command.layout with
  | message => exact absurd kind noMessage
  | assignment => exact absurd kind noAssignment
  | plain =>
    simp only [kind, reads_bind, Prod.exists, reads_pure] at read
    obtain ⟨first, rest, c₁, walked, rfl, rfl⟩ := read
    exact ⟨first, rest, c₁, walked, List.prefix_refl _⟩
  | counted =>
    simp only [kind] at read
    apply exists_walk_of_tailed _ read
    intro first rest c₁ more
    obtain ⟨others, -, split, -⟩ := reads_counted.1 more
    exact ⟨others, split.symm⟩
  | terminated =>
    simp only [kind] at read
    apply exists_walk_of_tailed _ read
    intro first rest c₁ more
    obtain ⟨others, c₂, -, last⟩ := reads_bind.1 more
    exact ⟨others, (reads_pure.1 last).1⟩
  | sized =>
    simp only [kind] at read
    obtain ⟨word, c₀, taken, read⟩ := reads_bind.1 read
    obtain ⟨two, advance⟩ := reads_take.1 taken
    have start : c₀ = ⟨c.rest.drop 2, c.offset + 2⟩ := by
      rw [advance.rest, ← two, List.drop_left, ← advance.offset]
    subst start
    apply exists_walk_of_tailed _ read
    intro first rest c₁ more
    by_cases large : Piece.maxArgumentSize < word.unsigned
    · simp only [large, if_true, reads_bind, reads_fail, false_and, exists_false] at more
    · rw [if_neg large] at more
      obtain ⟨others, c₂, -, more⟩ := reads_bind.1 more
      obtain ⟨stop, c₃, -, more⟩ := reads_bind.1 more
      by_cases there : (stop != c.offset + word.unsigned) = true
      · simp only [there, if_true, reads_bind, reads_fail, false_and, exists_false] at more
      · rw [if_neg there] at more
        exact ⟨others, (reads_pure.1 more).1⟩

end Decoder

namespace Command

open Decoder

/-- The walk over the forms of a command whose code stands at `offset`: the operands before a variadic tail, the form,
and what is left after them. -/
def walkAt (c : Command) (data : Bytes) (offset : Nat) : Except DecodeError ((List Operand × Shape) × Cursor) :=
  (walkForms (readingWith data.length (expression data.length (data.length - (offset + 1))) c.name) c.name c.shapes).run
    (walkStart c ⟨data.drop (offset + 1), offset + 1⟩)

end Command

theorem Instruction.exists_operands_of_decode {data : Bytes} {offset n : Nat} {i : Instruction}
    (decoded : Instruction.decode data offset = .ok (i, n)) : ∃ c ∈ Command.all, c.name = i.opcode ∧ ∃ c',
      (Decoder.operands data.length c).Reads ⟨data.drop (offset + 1), offset + 1⟩ i.operands c' := by
  unfold Instruction.decode at decoded
  obtain ⟨⟨_, c'⟩, read, done⟩ := bind_eq_ok.1 decoded
  cases done
  replace read : (Decoder.instruction data.length).Reads ⟨data.drop offset, offset⟩ i c' := read
  unfold Decoder.instruction at read
  simp only [Decoder.reads_bind, Decoder.reads_offset, Decoder.reads_byte] at read
  obtain ⟨_, _, ⟨rfl, rfl⟩, code, c₁, first, read⟩ := read
  have next : c₁ = ⟨data.drop (offset + 1), offset + 1⟩ := by
    have here : data.drop offset = code :: c₁.rest := first.rest
    have rest : data.drop (offset + 1) = c₁.rest := by rw [← List.drop_drop, here, List.drop_one, List.tail_cons]
    have place : c₁.offset = offset + 1 := first.offset
    rw [rest, ← place]
  subst next
  cases found : Command.ofCode? code with
  | none =>
    rw [found] at read
    exact (Decoder.reads_fail.1 read).elim
  | some c =>
    rw [found] at read
    obtain ⟨os, c₂, operands, last⟩ := Decoder.reads_bind.1 read
    obtain ⟨rfl, rfl⟩ := Decoder.reads_pure.1 last
    exact ⟨c, (Command.ofCode?_eq_some.1 found).1, rfl, c₂, operands⟩

namespace Command

open Decoder

theorem exists_walkAt {c : Command} (member : c ∈ all) (noMessage : c.layout ≠ .message)
    (noAssignment : c.layout ≠ .assignment) {data : Bytes} {offset : Nat} {os : List Operand} {c' : Cursor}
    (read : (operands data.length c).Reads ⟨data.drop (offset + 1), offset + 1⟩ os c') {shape : Shape}
    (chosen : c.shapeOf os = .ok shape) :
    ∃ first c₁, c.walkAt data offset = .ok ((first, shape), c₁) ∧ first <+: os := by
  have regular := Command.regular member noAssignment
  obtain ⟨first, rest, c₁, walked, others, rfl⟩ := exists_walk_of_operands noMessage noAssignment read
  obtain ⟨-, -, tail, -⟩ := (reads_walkShapes regular).1 walked
  obtain ⟨form, slots, ended, rfl, inShapes, reads⟩ := exists_form_of_walkShapes regular walked
  have short : (walkStart c ⟨data.drop (offset + 1), offset + 1⟩).rest.length ≤ (data.drop (offset + 1)).length := by
    unfold walkStart
    split
    · rw [List.length_drop]
      exact Nat.sub_le _ _
    · exact Nat.le_refl _
  let p : Placement := ⟨{}, ⟨"", 0⟩, none⟩
  obtain ⟨admits, -⟩ := (readsSlots_stored (p := p) short).1 reads
  obtain ⟨isForm, fits, -⟩ := (shapeOf_eq_ok member).1 chosen
  have accepts := admits.imp fun _ _ admitted => admitted.accepts
  have same := Shape.eq_of_fits regular.separate inShapes tail accepts isForm fits
  rw [← same]
  rw [List.length_drop] at ended
  exact ⟨first, c₁, ended, others, rfl⟩

end Command

/-- A change of references into labels that stand where they lead, in the width that they have. -/
structure NamesTargets (labels : LabelTable) (addresses : List Nat) (change : Operand → Operand) : Prop extends
    Relabels change where
  target : ∀ (t : Nat) (w : Width) (isElse : Bool),
    change (.offset t (some w) isElse none) = .offset t (some w) isElse none ∨ ∃ name span binding,
      change (.offset t (some w) isElse none) = .label name (some w) isElse span ∧
        labels.get? name = some binding ∧ addresses[binding.block]? = some t

theorem NamesTargets.pointersAgree {labels : LabelTable} {addresses : List Nat} {change : Operand → Operand}
    (names : NamesTargets labels addresses change) {size : Nat} {i : Instruction} (readable : i.Readable size)
    {leaf : Operand} (inside : leaf ∈ Operand.walkAll i.operands) :
    Placement.PointersAgree {} labels (Piece.Resolves (addresses.getD · 0) fun q w =>
      q.width = w ∧ q.block < addresses.length) change leaf := by
  intro isRef site span
  obtain ⟨t, w, isElse, rfl, fits⟩ := readable.reference inside isRef
  have stored (labels : LabelTable) : Placement.lowerPointer ⟨labels, site, span⟩ (.offset t (some w) isElse none) =
      .ok [.bytes (w.constant t)] :=
    Placement.lowerPointer_offset.2 ⟨⟨Int.natCast_nonneg t, by exact_mod_cast fits⟩, rfl⟩
  rw [stored]
  rcases names.target t w isElse with same | ⟨name, labelSpan, binding, named, found, placed⟩
  · rw [same, stored]
    exact .cons (.same _ (by simp)) .nil
  · obtain ⟨within, -⟩ := List.getElem?_eq_some_iff.1 placed
    obtain rfl : addresses.getD binding.block 0 = t := by rw [List.getD_eq_getElem?_getD, placed, Option.getD_some]
    rw [named]
    simp only [Placement.lowerPointer, found]
    exact .cons (.pointer ⟨name, binding.block, w, true, site, labelSpan.or span⟩ w fits ⟨rfl, within⟩) .nil

theorem Placement.exists_shape_of_lowerCommand {p : Placement} {c : Command} {os : List Operand} {code : ItemCode}
    (noMessage : c.layout ≠ .message) (lowered : p.lowerCommand c os = .ok code) :
    ∃ shape, c.shapeOf os = .ok shape := by
  unfold lowerCommand at lowered
  cases chosen : c.shapeOf os with
  | ok shape => exact ⟨shape, rfl⟩
  | error e =>
    rw [chosen] at lowered
    cases kind : c.layout <;> simp [kind, fail] at lowered noMessage

/-- Encoding undoes decoding. A decoded instruction, with its references left as they are or named, is lowered to code
that has the size of what was decoded and emits the same bytes. Its operands are matched to the form that the decoder
has ended with. -/
theorem Instruction.lower_decode {data : Bytes} {offset n : Nat} {i : Instruction}
    (decoded : Instruction.decode data offset = .ok (i, n)) :
    offset + n ≤ data.length ∧
    (∀ labels addresses change, NamesTargets labels addresses change → ∃ code,
      Instruction.lower labels { i with operands := Operand.mapLeavesAll change i.operands } = .ok code ∧
        code.size = n ∧ code.emit addresses (offset + n) offset = .ok ((data.drop offset).take n)) ∧
    ∃ c ∈ Command.all, c.name = i.opcode ∧ (c.layout ≠ .message → ∃ form, c.shapeOf i.operands = .ok form ∧
      (c.layout ≠ .assignment →
        ∃ first c', c.walkAt data offset = .ok ((first, form), c') ∧ first <+: i.operands)) := by
  refine ⟨?_, fun labels addresses change names => ?_, ?_⟩
  · exact (Instruction.decode_bounds decoded).2
  · obtain ⟨readable, code, bs, lowered, emitted, rfl, inside⟩ := (Instruction.decode_eq_ok {} addresses).1 decoded
    obtain ⟨code', lowered', resolves⟩ := (Instruction.lower_agree names.toRelabels (fun _ => .same _)
      fun leaf => names.pointersAgree readable).of_ok_left lowered
    have widths := resolves.imp fun _ _ h => h.mono fun _ _ => And.left
    have placed (q : Pointer) (inCode : .pointer q ∈ code') :
        addresses[q.block]? = some (addresses.getD q.block 0) := by
      obtain ⟨_, -, related⟩ := exists_left_of_mem resolves inCode
      obtain ⟨w, -, within⟩ := related.exists_stored
      exact getElem?_of_lt within
    refine ⟨code', lowered', ?_, ?_⟩
    · rw [← size_of_resolves widths, ItemCode.length_emit emitted]
    · rw [← emit_of_resolves widths placed, emitted, ← List.prefix_iff_eq_take.1 inside]
  · obtain ⟨c, member, named, c', read⟩ := Instruction.exists_operands_of_decode decoded
    refine ⟨c, member, named, fun noMessage => ?_⟩
    obtain ⟨-, code, bs, lowered, -⟩ := (Instruction.decode_eq_ok {} []).1 decoded
    obtain ⟨d, inAll, same, code', stored, -⟩ := Instruction.lower_eq_ok.1 lowered
    obtain rfl := Command.eq_of_name inAll member (same.trans named.symm)
    obtain ⟨shape, chosen⟩ := Placement.exists_shape_of_lowerCommand noMessage stored
    exact ⟨shape, chosen, fun noAssignment => Command.exists_walkAt member noMessage noAssignment read chosen⟩

def Command.particles : Command where
  name := "ptcl"
  code := 38
  category := .direction
  layout := .counted
  shapes := [value :: .atom .pos :: values 7, value :: .atom .obj :: object :: values 7, [value, .atom .unk210],
    [value, .atom .lead, object, .variadic]]

theorem Command.particles_mem : particles ∈ all := by decide +kernel

def particleBytes : Bytes := [2, 38, 33, 1, 24, 220, 0, 0, 0, 33, 1, 33, 2, 30, 25, 33, 0]

def nameOrigin : Operand → Operand
  | .offset 0 width isElse _ => .label "origin" width isElse none
  | o => o

theorem namesTargets_nameOrigin : NamesTargets ⟨[("origin", ⟨0, 0⟩)], []⟩ [0] nameOrigin where
  other o notRef := by
    cases o with
    | offset => cases notRef
    | _ => rfl
  reference o isRef := by
    unfold nameOrigin
    split
    · exact ⟨rfl, rfl⟩
    · exact ⟨isRef, rfl⟩
  target t w isElse := by
    cases t with
    | zero => exact .inr ⟨"origin", none, ⟨0, 0⟩, rfl, rfl, rfl⟩
    | succ t => exact .inl rfl

/-- The list is encoded to the bytes that it was decoded from, with a label for the address, and in the one of the four
forms that the decoder has found. -/
theorem Instruction.lower_decode_particles :
    let os := [.int 1 none none, .atom "lead" none, .int 1 none none, .expr "result" [] none,
      .offset 0 (some .byte) false none]
    Instruction.decode particleBytes 1 = .ok (⟨"ptcl", os, none⟩, 16) ∧
    (∃ code, Instruction.lower ⟨[("origin", ⟨0, 0⟩)], []⟩ ⟨"ptcl", os.map (Operand.mapLeaves nameOrigin), none⟩ =
      .ok code ∧ code.emit [0] 17 1 = .ok (particleBytes.drop 1)) ∧
    ∃ form, Command.particles.shapeOf os = .ok form ∧ Command.particles.shapes[3]? = some form ∧
      ∃ first c', Command.particles.walkAt particleBytes 1 = .ok ((first, form), c') ∧ first <+: os := by
  intro os
  have decoded : Instruction.decode particleBytes 1 = .ok (⟨"ptcl", os, none⟩, 16) := rfl
  obtain ⟨-, encodes, c, member, named, matched⟩ := Instruction.lower_decode decoded
  obtain ⟨code, lowered, -, emitted⟩ := encodes _ _ _ namesTargets_nameOrigin
  rw [Operand.mapLeavesAll_eq_map] at lowered
  obtain rfl : c = Command.particles := Command.eq_of_name member Command.particles_mem named
  obtain ⟨form, chosen, walks⟩ := matched (by decide)
  have last : Command.particles.shapeOf os = .ok [Command.value, .atom .lead, Command.object, .variadic] := rfl
  obtain rfl := Except.ok.inj (chosen.symm.trans last)
  exact ⟨decoded, ⟨code, lowered, emitted⟩, _, chosen, rfl, walks (by decide)⟩

end EventScript
