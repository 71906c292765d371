import EventScript.Proofs.WellFormed
import Mathlib.Data.List.Nodup

namespace EventScript

/-- Why a call on a script fails. -/
inductive EditError where
  | resolution (error : ResolutionError)
  | noBlock (index : Nat)

abbrev Call := EStateM EditError Script Unit

namespace Call

def update (change : Script → Except ResolutionError Script) : Call := do
  let s ← get
  match change s with
  | .ok s' => set s'
  | .error e => throw (.resolution e)

def updateBlock (index : Nat) (change : Script → Script) : Call := do
  let s ← get
  if index < s.blocks.length then set (change s) else throw (.noBlock index)

end Call

/-- A call that builds a script. -/
inductive Edit where
  | block (label : String) (span : Option Span)
  | item (index : Nat) (item : Item)
  | clear (index : Nat)
  | entry (role : EntryPoint) (label : String) (span : Option Span)
  | reference (name : String) (span : Option Span)
  | resolveAll

namespace Edit

def call : Edit → Call
  | block label span => do
    Call.update fun s => return { s with labels := ← s.labels.declare label ⟨s.blocks.length, 0⟩ span }
    modify fun s => { s with blocks := s.blocks ++ [⟨label, []⟩] }
  | item index added => Call.updateBlock index (·.addItem index added)
  | clear index => Call.updateBlock index (·.clearBlock index)
  | entry role label span => Call.update (·.addEntry role label span)
  | reference name span => modify (·.addReference name span)
  | resolveAll => Call.update fun s => s.labels.resolveAll.map fun _ => s

def answer (s : Script) : Edit → Except EditError Script
  | block label span => (s.addBlock label span).mapError .resolution
  | item index added => if index < s.blocks.length then .ok (s.addItem index added) else .error (.noBlock index)
  | clear index => if index < s.blocks.length then .ok (s.clearBlock index) else .error (.noBlock index)
  | entry role label span => (s.addEntry role label span).mapError .resolution
  | reference name span => .ok (s.addReference name span)
  | resolveAll => (s.labels.resolveAll.map fun _ => s).mapError .resolution

def reference? : Edit → Option (String × Option Span)
  | reference name span => some (name, span)
  | _ => none

end Edit

def Call.settle (s : Script) : Except EditError Script → EStateM.Result EditError Script Unit
  | .ok s' => .ok () s'
  | .error e => .error e s

theorem Call.run_update (change : Script → Except ResolutionError Script) (s : Script) :
    (update change).run s = settle s ((change s).mapError .resolution) := by
  rw [update, EStateM.run_bind, EStateM.run_get]
  dsimp only
  cases change s with
  | ok s' => exact EStateM.run_set s' s
  | error e => exact EStateM.run_throw (EditError.resolution e) s

theorem Call.run_update_modify (change : Script → Except ResolutionError Script) (next : Script → Script) (s : Script) :
    (do update change; modify next : Call).run s = settle s (((change s).map next).mapError .resolution) := by
  rw [EStateM.run_bind, run_update]
  cases change s with
  | ok s' => exact EStateM.run_modify next s'
  | error e => rfl

theorem Call.run_updateBlock (index : Nat) (change : Script → Script) (s : Script) :
    (updateBlock index change).run s =
      settle s (if index < s.blocks.length then .ok (change s) else .error (.noBlock index)) := by
  rw [updateBlock, EStateM.run_bind, EStateM.run_get]
  dsimp only
  by_cases inside : index < s.blocks.length
  · rw [if_pos inside, if_pos inside]
    exact EStateM.run_set (change s) s
  · rw [if_neg inside, if_neg inside]
    exact EStateM.run_throw (EditError.noBlock index) s

theorem Edit.run_call (edit : Edit) (s : Script) : edit.call.run s = Call.settle s (edit.answer s) := by
  cases edit with
  | block label span =>
    rw [call, Call.run_update_modify, answer, Script.addBlock]
    cases s.labels.declare label ⟨s.blocks.length, 0⟩ span <;> rfl
  | item index added => exact Call.run_updateBlock index _ s
  | clear index => exact Call.run_updateBlock index _ s
  | entry role label span => exact Call.run_update _ s
  | reference name span => rfl
  | resolveAll => exact Call.run_update _ s

theorem Edit.eq_of_error {edit : Edit} {s s' : Script} {error : EditError}
    (failed : edit.call.run s = .error error s') : s' = s := by
  rw [run_call] at failed
  cases answered : edit.answer s with
  | ok made =>
    rw [answered] at failed
    cases failed
  | error e =>
    rw [answered] at failed
    cases failed
    rfl

namespace Script

def perform (s : Script) (edit : Edit) : Script :=
  match edit.call.run s with
  | .ok _ s' | .error _ s' => s'

/-- The script that calls make of an empty one. -/
def edited (target : Target) (edits : List Edit) : Script := edits.foldl perform { target }

theorem perform_of_ok {s s' : Script} {edit : Edit} (answered : edit.answer s = .ok s') : s.perform edit = s' := by
  rw [perform, edit.run_call, answered]
  rfl

theorem perform_of_error {s : Script} {edit : Edit} {error : EditError} (answered : edit.answer s = .error error) :
    s.perform edit = s := by
  rw [perform, edit.run_call, answered]
  rfl

/-- The labels are those of the blocks, each bound to its own; the roles of the entry points belong to the target and
are given once; and all that was declared, referred to or given is there. -/
structure EditedBy (target : Target) (edits : List Edit) (s : Script) : Prop where
  sameTarget : s.target = target
  bindings : s.labels.bindings = s.blocks.mapIdx fun k b => (b.label, ⟨k, 0⟩)
  distinct : (s.blocks.map (·.label)).Nodup
  declared : ∀ name, name ∈ s.blocks.map (·.label) ↔ ∃ span, .block name span ∈ edits
  references : s.labels.references = edits.filterMap Edit.reference?
  roles : (s.entries.map Prod.fst).Nodup
  given : ∀ role, role ∈ s.entries.map Prod.fst ↔
    role.isStageEvent = !target.isGlobals ∧ ∃ label span, .entry role label span ∈ edits

namespace EditedBy

variable {target : Target} {edits : List Edit} {s : Script}

theorem empty (target : Target) : EditedBy target [] { target } where
  sameTarget := rfl
  bindings := rfl
  distinct := .nil
  declared := by simp
  references := rfl
  roles := .nil
  given := by simp

theorem contains_iff (editedBy : s.EditedBy target edits) {name : String} :
    s.labels.contains name = true ↔ ∃ span, .block name span ∈ edits := by
  rw [← editedBy.declared, LabelTable.contains, ← not_iff_not, Bool.not_eq_true, Option.isSome_eq_false_iff,
    Option.isNone_iff_eq_none, get?_eq_none_of_bindings editedBy.bindings]
  simp

theorem unchanged (editedBy : s.EditedBy target edits) {edit : Edit} (noReference : edit.reference? = none)
    (block : ∀ name span, edit = .block name span → name ∈ s.blocks.map (·.label))
    (entry : ∀ role label span, edit = .entry role label span → role.isStageEvent = !target.isGlobals →
      role ∈ s.entries.map Prod.fst) : s.EditedBy target (edits ++ [edit]) where
  sameTarget := editedBy.sameTarget
  bindings := editedBy.bindings
  distinct := editedBy.distinct
  declared name := by
    refine ⟨fun member => ?_, ?_⟩
    · obtain ⟨span, earlier⟩ := (editedBy.declared name).1 member
      exact ⟨span, List.mem_append_left _ earlier⟩
    · rintro ⟨span, made⟩
      rcases List.mem_append.1 made with earlier | now
      · exact (editedBy.declared name).2 ⟨span, earlier⟩
      · exact block name span (List.mem_singleton.1 now).symm
  references := by simp [editedBy.references, noReference]
  roles := editedBy.roles
  given role := by
    refine ⟨fun member => ?_, ?_⟩
    · obtain ⟨scope, label, span, earlier⟩ := (editedBy.given role).1 member
      exact ⟨scope, label, span, List.mem_append_left _ earlier⟩
    · rintro ⟨scope, label, span, made⟩
      rcases List.mem_append.1 made with earlier | now
      · exact (editedBy.given role).2 ⟨scope, label, span, earlier⟩
      · exact entry role label span (List.mem_singleton.1 now).symm scope

theorem changeItems (editedBy : s.EditedBy target edits) (index : Nat) (change : Block → List Item) :
    EditedBy target edits { s with blocks := s.blocks.modify index fun b => { b with items := change b } } := by
  have labels : (s.blocks.modify index fun b => { b with items := change b }).map (·.label) =
      s.blocks.map (·.label) := by
    refine List.ext_getElem? fun k => ?_
    simp only [List.getElem?_map, List.getElem?_modify]
    cases s.blocks[k]? with
    | none => rfl
    | some b => by_cases here : index = k <;> simp [here]
  have bindings : (s.blocks.modify index fun b => { b with items := change b }).mapIdx
      (fun k b => (b.label, (⟨k, 0⟩ : Binding))) = s.blocks.mapIdx fun k b => (b.label, ⟨k, 0⟩) := by
    refine List.ext_getElem? fun k => ?_
    simp only [List.getElem?_mapIdx, List.getElem?_modify]
    cases s.blocks[k]? with
    | none => rfl
    | some b => by_cases here : index = k <;> simp [here]
  exact { editedBy with
    bindings := editedBy.bindings.trans bindings.symm
    distinct := by rw [labels]; exact editedBy.distinct
    declared := by rw [labels]; exact editedBy.declared }

theorem performBlock (editedBy : s.EditedBy target edits) (label : String) (span : Option Span) :
    (s.perform (.block label span)).EditedBy target (edits ++ [.block label span]) := by
  by_cases fresh : s.labels.get? label = none
  · have added : (Edit.block label span).answer s = .ok _ := mapError_eq_ok.2 (addBlock_eq_ok.2 ⟨fresh, rfl⟩)
    rw [perform_of_ok added]
    have notKnown : label ∉ s.blocks.map (·.label) := by
      rw [get?_eq_none_of_bindings editedBy.bindings] at fresh
      simpa using fresh
    refine ⟨editedBy.sameTarget, ?_, ?_, fun name => ?_, ?_, editedBy.roles, fun role => ?_⟩
    · simp [editedBy.bindings]
    · rw [List.map_append, List.map_singleton, ← List.concat_eq_append, List.nodup_concat]
      exact ⟨notKnown, editedBy.distinct⟩
    · rw [List.map_append, List.mem_append, editedBy.declared]
      simp [exists_or, eq_comm]
    · simp [editedBy.references, Edit.reference?]
    · rw [editedBy.given]
      simp
  · obtain ⟨e, refused⟩ : ∃ e, (Edit.block label span).answer s = .error e := by
      cases answered : (Edit.block label span).answer s with
      | ok s' => exact absurd (addBlock_eq_ok.1 (mapError_eq_ok.1 answered)).1 fresh
      | error e => exact ⟨e, rfl⟩
    rw [perform_of_error refused]
    refine editedBy.unchanged rfl ?_ nofun
    rintro name _ ⟨⟩
    rw [get?_eq_none_of_bindings editedBy.bindings] at fresh
    simpa using fresh

theorem performEntry (editedBy : s.EditedBy target edits) (role : EntryPoint) (label : String) (span : Option Span) :
    (s.perform (.entry role label span)).EditedBy target (edits ++ [.entry role label span]) := by
  cases answered : (Edit.entry role label span).answer s with
  | ok s' =>
    rw [perform_of_ok answered]
    obtain ⟨fresh, scope, rfl⟩ := addEntry_eq_ok.1 (mapError_eq_ok.1 answered)
    rw [editedBy.sameTarget] at scope
    have notGiven : role ∉ s.entries.map Prod.fst := by
      intro member
      obtain ⟨e, isEntry, same⟩ := List.mem_map.1 member
      exact fresh e isEntry same
    refine ⟨editedBy.sameTarget, editedBy.bindings, editedBy.distinct, fun name => ?_, ?_, ?_, fun other => ?_⟩
    · rw [editedBy.declared]
      simp
    · simp [editedBy.references, Edit.reference?]
    · rw [List.map_append, List.map_singleton, ← List.concat_eq_append, List.nodup_concat]
      exact ⟨notGiven, editedBy.roles⟩
    · rw [List.map_append, List.mem_append, editedBy.given]
      constructor
      · rintro (⟨scope, label, span, earlier⟩ | now)
        · exact ⟨scope, label, span, List.mem_append_left _ earlier⟩
        · obtain rfl := List.mem_singleton.1 now
          exact ⟨scope, label, span, List.mem_append_right _ (List.mem_singleton_self _)⟩
      · rintro ⟨scope, label, span, made⟩
        rcases List.mem_append.1 made with earlier | now
        · exact .inl ⟨scope, label, span, earlier⟩
        · cases List.mem_singleton.1 now
          exact .inr (List.mem_singleton_self _)
  | error e =>
    rw [perform_of_error answered]
    refine editedBy.unchanged rfl nofun ?_
    rintro _ _ _ ⟨⟩ scope
    by_contra notGiven
    have fresh : ∀ e ∈ s.entries, e.1 ≠ role := fun e member same => notGiven (List.mem_map.2 ⟨e, member, same⟩)
    rw [← editedBy.sameTarget] at scope
    have added : (Edit.entry role label span).answer s = .ok _ :=
      mapError_eq_ok.2 (addEntry_eq_ok.2 ⟨fresh, scope, rfl⟩)
    rw [added] at answered
    cases answered

theorem performReference (editedBy : s.EditedBy target edits) (name : String) (span : Option Span) :
    (s.perform (.reference name span)).EditedBy target (edits ++ [.reference name span]) := by
  have recorded : (Edit.reference name span).answer s = .ok (s.addReference name span) := rfl
  rw [perform_of_ok recorded]
  refine ⟨editedBy.sameTarget, editedBy.bindings, editedBy.distinct, fun other => ?_, ?_, editedBy.roles,
    fun role => ?_⟩
  · have same := editedBy.declared other
    simpa [addReference] using same
  · rw [addReference, LabelTable.reference, editedBy.references]
    simp [Edit.reference?]
  · have same := editedBy.given role
    simpa [addReference] using same

theorem performItems (editedBy : s.EditedBy target edits) {edit : Edit} {index : Nat} {change : Block → List Item}
    (answer : edit.answer s = if index < s.blocks.length then
      .ok { s with blocks := s.blocks.modify index fun b => { b with items := change b } }
      else .error (.noBlock index)) : (s.perform edit).EditedBy target edits := by
  by_cases inside : index < s.blocks.length
  · rw [perform_of_ok (answer.trans (if_pos inside))]
    exact editedBy.changeItems index change
  · rwa [perform_of_error (answer.trans (if_neg inside))]

theorem perform (editedBy : s.EditedBy target edits) (edit : Edit) :
    (s.perform edit).EditedBy target (edits ++ [edit]) := by
  cases edit with
  | block label span => exact editedBy.performBlock label span
  | item index added =>
    have same : s.EditedBy target (edits ++ [.item index added]) := editedBy.unchanged rfl nofun nofun
    exact same.performItems rfl
  | clear index =>
    have same : s.EditedBy target (edits ++ [.clear index]) := editedBy.unchanged rfl nofun nofun
    exact same.performItems rfl
  | entry role label span => exact editedBy.performEntry role label span
  | reference name span => exact editedBy.performReference name span
  | resolveAll =>
    have same : s.perform .resolveAll = s := by
      rw [Script.perform, Edit.run_call, Edit.answer]
      cases s.labels.resolveAll <;> rfl
    rw [same]
    exact editedBy.unchanged rfl nofun nofun

end EditedBy

theorem editedBy_edited (target : Target) (edits : List Edit) : (edited target edits).EditedBy target edits := by
  induction edits using List.reverseRecOn with
  | nil => exact .empty target
  | append_singleton edits edit ih =>
    rw [edited, List.foldl_append]
    exact ih.perform edit

end Script

theorem LabelTable.resolveAll_eq_error {t : LabelTable} {error : ResolutionError} :
    t.resolveAll = .error error ↔ ∃ before name span after, t.references = before ++ (name, span) :: after ∧
      (∀ r ∈ before, t.contains r.1 = true) ∧ t.contains name = false ∧ error = ⟨.undefinedLabel name, span⟩ := by
  unfold resolveAll
  constructor
  · intro failed
    split at failed
    · rename_i name span found
      obtain ⟨undeclared, before, after, split, earlier⟩ := List.find?_eq_some_iff_append.1 found
      cases failed
      exact ⟨before, name, span, after, split, by simpa using earlier, by simpa using undeclared, rfl⟩
    · cases failed
  · rintro ⟨before, name, span, after, split, earlier, undeclared, rfl⟩
    rw [List.find?_eq_some_iff_append.2 ⟨by simpa using undeclared, before, after, split, by simpa using earlier⟩]

namespace Script

/-- The first of the references that no call has declared. -/
def FirstUndeclared (edits : List Edit) (name : String) (span : Option Span) : Prop :=
  ∃ before after, edits.filterMap Edit.reference? = before ++ (name, span) :: after ∧
    (∀ r ∈ before, ∃ span, .block r.1 span ∈ edits) ∧ ∀ span, .block name span ∉ edits

theorem EditedBy.resolveAll_eq_error {target : Target} {edits : List Edit} {s : Script}
    (editedBy : s.EditedBy target edits) {error : ResolutionError} : s.labels.resolveAll = .error error ↔
      ∃ name span, FirstUndeclared edits name span ∧ error = ⟨.undefinedLabel name, span⟩ := by
  have undeclared {name : String} : s.labels.contains name = false ↔ ∀ span, .block name span ∉ edits := by
    rw [← Bool.not_eq_true, editedBy.contains_iff, not_exists]
  simp only [LabelTable.resolveAll_eq_error, editedBy.references, editedBy.contains_iff, undeclared, FirstUndeclared]
  constructor
  · rintro ⟨before, name, span, after, split, earlier, notIn, rfl⟩
    exact ⟨name, span, ⟨before, after, split, earlier, notIn⟩, rfl⟩
  · rintro ⟨name, span, ⟨before, after, split, earlier, notIn⟩, rfl⟩
    exact ⟨before, name, span, after, split, earlier, notIn, rfl⟩

theorem run_resolveAll_eq_error {s s' : Script} {error : EditError} : Edit.resolveAll.call.run s = .error error s' ↔
    ∃ e, s.labels.resolveAll = .error e ∧ error = .resolution e ∧ s' = s := by
  rw [Edit.run_call, Edit.answer]
  cases s.labels.resolveAll with
  | ok _ => exact iff_of_false nofun nofun
  | error e =>
    constructor
    · rintro ⟨⟩
      exact ⟨e, rfl, rfl, rfl⟩
    · rintro ⟨_, ⟨⟩, rfl, rfl⟩
      rfl

/-- However an empty script is edited, its labels, blocks and entry points agree with each other and with the calls. No
call that fails changes it. The references are resolved unless one of them was never declared, before or after it was
made, and the first such one is named. -/
theorem edited_safe (target : Target) (edits : List Edit) :
    (edited target edits).EditedBy target edits ∧
    (∀ (edit : Edit) error s', edit.call.run (edited target edits) = .error error s' → s' = edited target edits) ∧
    ((∃ error s', Edit.resolveAll.call.run (edited target edits) = .error error s') ↔
      ∃ r ∈ edits.filterMap Edit.reference?, ∀ span, .block r.1 span ∉ edits) ∧
    ∀ error s', Edit.resolveAll.call.run (edited target edits) = .error error s' →
      ∃ name span, FirstUndeclared edits name span ∧ error = .resolution ⟨.undefinedLabel name, span⟩ := by
  have editedBy := editedBy_edited target edits
  refine ⟨editedBy, fun edit error s' failed => Edit.eq_of_error failed, ⟨?_, ?_⟩, fun error s' failed => ?_⟩
  · rintro ⟨error, s', failed⟩
    obtain ⟨e, unresolved, -, -⟩ := run_resolveAll_eq_error.1 failed
    obtain ⟨name, span, ⟨before, after, split, -, undeclared⟩, -⟩ := editedBy.resolveAll_eq_error.1 unresolved
    exact ⟨(name, span), by simp [split], undeclared⟩
  · rintro ⟨r, member, undeclared⟩
    cases resolved : (edited target edits).labels.resolveAll with
    | error e => exact ⟨_, _, run_resolveAll_eq_error.2 ⟨e, resolved, rfl, rfl⟩⟩
    | ok _ =>
      rw [← editedBy.references] at member
      obtain ⟨binding, found⟩ := LabelTable.resolveAll_eq_ok.1 resolved r member
      obtain ⟨span, declared⟩ := editedBy.contains_iff.1 (Option.isSome_of_mem found)
      exact absurd declared (undeclared span)
  · obtain ⟨e, unresolved, rfl, -⟩ := run_resolveAll_eq_error.1 failed
    obtain ⟨name, span, first, rfl⟩ := editedBy.resolveAll_eq_error.1 unresolved
    exact ⟨name, span, first, rfl⟩

end Script

end EventScript
