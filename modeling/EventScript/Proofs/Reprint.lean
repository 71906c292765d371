import EventScript.Proofs.BlockStructure
import EventScript.Proofs.Flattening
import EventScript.Proofs.Rebuilding

namespace EventScript

theorem forall₂_of_map_eq {α β γ : Type} {f : α → γ} {g : β → γ} {xs : List α} {ys : List β}
    (same : xs.map f = ys.map g) : List.Forall₂ (fun x y => f x = g y) xs ys := by
  rwa [← List.forall₂_eq_eq_eq, List.forall₂_map_left_iff, List.forall₂_map_right_iff] at same

theorem Operand.sameField_of_setSpan {o o' : Operand} (same : o.setSpan none = o'.setSpan none) : o.SameField o' := by
  cases o with
  | int value width span =>
    cases o' <;> cases same
    exact .int value width span _
  | text bytes span =>
    cases o' <;> cases same
    exact .text bytes span _
  | _ =>
    cases o' with
    | int | text => cases same
    | _ => exact .other rfl rfl

theorem MessageCommand.like_of_withoutSpans {c c' : MessageCommand} (same : c.withoutSpans = c'.withoutSpans) :
    c.Like c' := by
  simp only [withoutSpans, mk.injEq, and_true] at same
  exact ⟨same.1, (forall₂_of_map_eq same.2).imp fun _ _ => Operand.sameField_of_setSpan⟩

theorem Operand.like_of_withoutSpans {ref : Operand → Operand → Prop}
    (related : ∀ o o', o.isReference = true → o.withoutSpans = o'.withoutSpans → ref o o') {o o' : Operand}
    (same : o.withoutSpans = o'.withoutSpans) : Operand.Like ref o o' := by
  induction o using expr_induction generalizing o' with
  | leaf o notExpr =>
    cases o with
    | expr op args span => exact absurd rfl (notExpr op args span)
    | int value width span =>
      cases o' <;> cases same
      exact .int value width span _
    | atom name span =>
      cases o' <;> cases same
      exact .atom name span _
    | text bytes span =>
      cases o' <;> cases same
      exact .text bytes span _
    | message commands span =>
      cases o' <;> simp only [withoutSpans, reduceCtorEq, message.injEq, and_true] at same
      exact .message _ _ ((forall₂_of_map_eq same).imp fun _ _ => MessageCommand.like_of_withoutSpans)
    | label name width isElse span =>
      have here := related _ o' rfl same
      cases o' <;> cases same
      exact .reference rfl rfl rfl here
    | offset value width isElse span =>
      have here := related _ o' rfl same
      cases o' <;> cases same
      exact .reference rfl rfl rfl here
  | expr op args span ih =>
    cases o' <;> simp only [withoutSpans, allWithoutSpans_eq_map, reduceCtorEq, expr.injEq, and_true] at same
    obtain ⟨rfl, args⟩ := same
    have inside := (List.forall₂_and_left _ _).2 ⟨fun a (member : a ∈ _) => member, forall₂_of_map_eq args⟩
    exact .expr op _ _ (inside.imp fun a a' h => ih a h.1 h.2)

namespace Script

variable {s t : Script}

theorem itemsBefore_congr (same : s.blocks.map Block.withoutSpans = t.blocks.map Block.withoutSpans) (block : Nat) :
    s.itemsBefore block = t.itemsBefore block := by
  have lengths : s.blocks.map (·.items.length) = t.blocks.map (·.items.length) := by
    have counted := congrArg (List.map (·.items.length)) same
    simpa [Function.comp_def, Block.withoutSpans] using counted
  unfold itemsBefore
  rw [List.length_flatMap, List.length_flatMap, List.map_take, List.map_take, lengths]

theorem samePlace_of_blocks (distinct : (s.blocks.map (·.label)).Nodup)
    (bindings : s.labels.bindings = s.blocks.mapIdx fun k b => (b.label, ⟨k, 0⟩))
    (bindings' : t.labels.bindings = t.blocks.mapIdx fun k b => (b.label, ⟨k, 0⟩))
    (same : s.blocks.map Block.withoutSpans = t.blocks.map Block.withoutSpans) (name : String) :
    s.SamePlace t name name := by
  have names : s.blocks.map (·.label) = t.blocks.map (·.label) := by
    have labels := congrArg (List.map (·.label)) same
    simpa [Function.comp_def, Block.withoutSpans] using labels
  have count : s.blocks.length = t.blocks.length := by simpa using congrArg List.length names
  by_cases declared : ∃ b ∈ s.blocks, b.label = name
  · obtain ⟨b, member, rfl⟩ := declared
    obtain ⟨k, here⟩ := List.mem_iff_getElem?.1 member
    have inside : k < s.blocks.length := (List.getElem?_eq_some_iff.1 here).1
    have label : (t.blocks.map (·.label))[k]? = some b.label := by rw [← names, List.getElem?_map, here]; rfl
    rw [List.getElem?_map, Option.map_eq_some_iff] at label
    obtain ⟨b', here', label⟩ := label
    have found := get?_of_bindings bindings distinct here
    have found' := get?_of_bindings bindings' (names ▸ distinct) here'
    rw [label] at found'
    exact .inr ⟨s.itemsBefore k, ⟨⟨k, 0⟩, found, inside, rfl⟩, ⟨k, 0⟩, found', count ▸ inside,
      (itemsBefore_congr same k).symm⟩
  · have free : ∀ b ∈ s.blocks, b.label ≠ name := fun b member isName => declared ⟨b, member, isName⟩
    have free' : ∀ b ∈ t.blocks, b.label ≠ name := by
      intro b member isName
      have inNames : b.label ∈ s.blocks.map (·.label) := names ▸ List.mem_map_of_mem member
      obtain ⟨b', member', label⟩ := List.mem_map.1 inNames
      exact free b' member' (label.trans isName)
    exact .inl ⟨(get?_eq_none_of_bindings bindings).2 free, (get?_eq_none_of_bindings bindings').2 free'⟩

theorem sameProgram_of_blocks (distinct : (s.blocks.map (·.label)).Nodup)
    (bindings : s.labels.bindings = s.blocks.mapIdx fun k b => (b.label, ⟨k, 0⟩))
    (bindings' : t.labels.bindings = t.blocks.mapIdx fun k b => (b.label, ⟨k, 0⟩))
    (same : s.blocks.map Block.withoutSpans = t.blocks.map Block.withoutSpans) : s.SameProgram t := by
  have references : ∀ o o', o.isReference = true → o.withoutSpans = o'.withoutSpans → s.SameReference t o o' := by
    intro o o' isRef same'
    cases o with
    | label name width isElse span =>
      cases o' <;> cases same'
      exact .label width isElse span _ (samePlace_of_blocks distinct bindings bindings' same name)
    | offset value width isElse span =>
      cases o' <;> cases same'
      exact .offset value width isElse span _
    | _ => cases isRef
  have items : s.items.map Item.withoutSpans = t.items.map Item.withoutSpans := by
    have flat := congrArg (List.flatMap (·.items)) same
    simpa [Script.items, List.flatMap_map, List.map_flatMap, Block.withoutSpans] using flat
  refine (forall₂_of_map_eq items).imp fun item item' same => ?_
  cases item with
  | instruction i =>
    cases item' with
    | data => cases same
    | instruction i' =>
      simp only [Item.withoutSpans, Item.instruction.injEq, Instruction.mk.injEq, and_true] at same
      exact .instruction same.1.symm ((forall₂_of_map_eq same.2).imp fun _ _ => Operand.like_of_withoutSpans references)
  | data d =>
    cases item' with
    | instruction => cases same
    | data d' =>
      simp only [Item.withoutSpans, Item.data.injEq, Data.mk.injEq, and_true] at same
      exact .data same.1.symm ((forall₂_of_map_eq same.2).imp fun _ _ => Operand.like_of_withoutSpans references)

/-- The text of a script is read as the same program. -/
theorem WellFormed.exists_sameProgram (wellFormed : s.WellFormed) :
    ∃ t, parse s.toText = .ok t ∧ s.SameProgram t ∧ t.entries = s.entryPoints ∧
      s.items.map Item.withoutSpans = t.items.map Item.withoutSpans := by
  obtain ⟨t, read, rebuilds⟩ := wellFormed.exists_parse
  have same := rebuilds.blocks.symm
  refine ⟨t, read, sameProgram_of_blocks wellFormed.distinct wellFormed.bindings rebuilds.bindings same,
    rebuilds.entries, ?_⟩
  have flat := congrArg (List.flatMap (·.items)) same
  simpa [Script.items, List.flatMap_map, List.map_flatMap, Block.withoutSpans] using flat

end Script

end EventScript
