import EventScript.Proofs.Digits
import EventScript.Proofs.Tiling

namespace EventScript

namespace Marks

theorem labelName_injective {kind kind' : LabelKind} {offset offset' : Nat}
    (same : labelName kind offset = labelName kind' offset') : offset = offset' := by
  have stems : ∀ kind : LabelKind, (kind.stem ++ "_").toList.length = 4 := by
    intro kind
    cases kind <;> rfl
  have lists := congrArg String.toList same
  simp only [labelName, String.toList_append] at lists stems
  have tails := (List.append_inj lists (by rw [stems, stems])).2
  exact Text.hex_injective (String.toList_inj.1 tails)

theorem nameAt?_injective {marks : Marks} {offset offset' : Nat} {name : String}
    (named : marks.nameAt? offset = some name) (named' : marks.nameAt? offset' = some name) :
    offset = offset' := by
  obtain ⟨kind, -, rfl⟩ := Option.map_eq_some_iff.1 named
  obtain ⟨kind', -, same⟩ := Option.map_eq_some_iff.1 named'
  exact labelName_injective same.symm

end Marks

theorem LabelTable.declare_eq_ok {t t' : LabelTable} {name : String} {binding : Binding}
    {span : Option Span} : t.declare name binding span = .ok t' ↔ t.get? name = none ∧
      t' = { t with bindings := t.bindings ++ [(name, binding)] } := by
  unfold declare contains
  split
  · rename_i declared
    refine iff_of_false (fun h => by cases h) fun ⟨fresh, _⟩ => ?_
    simp [fresh] at declared
  · rename_i fresh
    simp only [Option.not_isSome_iff_eq_none] at fresh
    rw [Except.ok.injEq, and_iff_right fresh, eq_comm]

theorem LabelTable.resolveAll_eq_ok {t : LabelTable} :
    t.resolveAll = .ok () ↔ ∀ reference ∈ t.references, ∃ binding, t.get? reference.1 = some binding := by
  unfold resolveAll
  split
  · rename_i name span found
    refine iff_of_false (fun h => by cases h) fun h => ?_
    obtain ⟨binding, declared⟩ := h _ (List.mem_of_find?_eq_some found)
    have := List.find?_some found
    simp [contains, declared] at this
  · rename_i found
    refine iff_of_true rfl fun reference member => ?_
    have := List.find?_eq_none.1 found reference member
    exact Option.ne_none_iff_exists'.1 (by simpa [contains] using this)

namespace Script

variable {s s' : Script}

theorem addBlock_eq_ok {name : String} {span : Option Span} :
    s.addBlock name span = .ok s' ↔ s.labels.get? name = none ∧
      s' = { s with
        labels := { s.labels with bindings := s.labels.bindings ++ [(name, ⟨s.blocks.length, 0⟩)] }
        blocks := s.blocks ++ [⟨name, []⟩] } := by
  simp only [addBlock, bind_eq_ok, pure_eq_ok, LabelTable.declare_eq_ok]
  constructor
  · rintro ⟨_, ⟨fresh, rfl⟩, rfl⟩
    exact ⟨fresh, rfl⟩
  · rintro ⟨fresh, rfl⟩
    exact ⟨_, ⟨fresh, rfl⟩, rfl⟩

theorem addItem_last {front : List Block} {last : Block} (item : Item)
    (split : s.blocks = front ++ [last]) :
    s.addItem (s.blocks.length - 1) item =
      { s with blocks := front ++ [{ last with items := last.items ++ [item] }] } := by
  unfold addItem
  congr 1
  rw [split]
  simp [List.modify_eq_take_drop]

/-- An entry point is given once and belongs to the scope of the script. -/
theorem addEntry_eq_ok {entry : EntryPoint} {label : String} {span : Option Span} :
    s.addEntry entry label span = .ok s' ↔ (∀ e ∈ s.entries, e.1 ≠ entry) ∧
      entry.isStageEvent = !s.target.isGlobals ∧
        s' = { s with entries := s.entries ++ [(entry, label)] } := by
  unfold addEntry
  split_ifs with duplicate stageEvent library
  · simp only [List.any_eq_true, beq_iff_eq] at duplicate
    obtain ⟨e, member, same⟩ := duplicate
    exact iff_of_false (fun h => by cases h) fun h => h.1 e member same
  · simp_all
  · simp_all
  · simp only [List.any_eq_true, beq_iff_eq, not_exists, not_and] at duplicate
    rw [Except.ok.injEq, and_iff_right duplicate, eq_comm, iff_and_self]
    intro
    cases h : entry.isStageEvent <;> cases h' : s.target.isGlobals <;> simp_all

theorem get?_eq_none_of_bindings {s : Script}
    (bindings : s.labels.bindings = s.blocks.mapIdx fun k b => (b.label, ⟨k, 0⟩)) {name : String} :
    s.labels.get? name = none ↔ ∀ b ∈ s.blocks, b.label ≠ name := by
  simp only [LabelTable.get?, bindings, Option.map_eq_none_iff, List.find?_eq_none, List.mem_mapIdx]
  constructor
  · intro fresh b member same
    obtain ⟨k, bound, rfl⟩ := List.getElem_of_mem member
    exact fresh _ ⟨k, bound, rfl⟩ (by simpa using same)
  · rintro fresh _ ⟨k, bound, rfl⟩
    simpa using fresh _ (List.getElem_mem bound)

theorem block_lt_of_bindings {s : Script}
    (bindings : s.labels.bindings = s.blocks.mapIdx fun k b => (b.label, ⟨k, 0⟩)) {name : String} {binding : Binding}
    (found : s.labels.get? name = some binding) : binding.block < s.blocks.length := by
  obtain ⟨pair, isFound, rfl⟩ := Option.map_eq_some_iff.1 found
  have member := List.mem_of_find?_eq_some isFound
  rw [bindings, List.mem_mapIdx] at member
  obtain ⟨k, bound, rfl⟩ := member
  exact bound

theorem exists_block_of_bindings {s : Script}
    (bindings : s.labels.bindings = s.blocks.mapIdx fun k b => (b.label, ⟨k, 0⟩)) {name : String} {binding : Binding}
    (found : s.labels.get? name = some binding) : ∃ b ∈ s.blocks, b.label = name := by
  by_contra fresh
  have none := (get?_eq_none_of_bindings bindings).2 fun b member same => fresh ⟨b, member, same⟩
  rw [none] at found
  cases found

end Script

namespace Marks

variable {marks : Marks} {s s' : Script} {units : List (Nat × Item)} {offsets : List Nat}

theorem addItem_eq_ok {offset : Nat} {item : Item} :
    marks.addItem s (offset, item) = .ok s' ↔
      (∃ name, marks.nameAt? offset = some name ∧ s.labels.get? name = none ∧ s' = { s with
        labels := { s.labels with bindings := s.labels.bindings ++ [(name, ⟨s.blocks.length, 0⟩)] }
        blocks := s.blocks ++ [⟨name, [item]⟩] }) ∨
      (marks.nameAt? offset = none ∧ ∃ front last, s.blocks = front ++ [last] ∧
        s' = { s with blocks := front ++ [{ last with items := last.items ++ [item] }] }) := by
  have place {s₁ : Script} {front : List Block} {last : Block} (split : s₁.blocks = front ++ [last]) :
      (if s₁.blocks.isEmpty then throw (.fault .strayItem)
        else pure (s₁.addItem (s₁.blocks.length - 1) item) : Except Error Script) = .ok s' ↔
          s' = { s₁ with blocks := front ++ [{ last with items := last.items ++ [item] }] } := by
    rw [if_neg (by simp [split]), pure_eq_ok, Script.addItem_last item split, eq_comm]
  cases named : marks.nameAt? offset with
  | none =>
    have step : marks.addItem s (offset, item) = if s.blocks.isEmpty then throw (.fault .strayItem)
        else pure (s.addItem (s.blocks.length - 1) item) := by
      simp only [addItem, named]
      rfl
    rw [step]
    simp only [reduceCtorEq, false_and, exists_false, false_or, true_and]
    constructor
    · intro h
      rcases List.eq_nil_or_concat s.blocks with empty | ⟨front, last, split⟩
      · rw [if_pos (by simp [empty])] at h
        cases h
      · rw [List.concat_eq_append] at split
        exact ⟨front, last, split, (place split).1 h⟩
    · rintro ⟨front, last, split, same⟩
      exact (place split).2 same
  | some name =>
    have step : marks.addItem s (offset, item) = ((s.addBlock name).mapError .ofResolution >>= fun s₁ =>
        if s₁.blocks.isEmpty then throw (.fault .strayItem)
        else pure (s₁.addItem (s₁.blocks.length - 1) item)) := by
      simp only [addItem, named]
      rfl
    rw [step, bind_eq_ok]
    simp only [mapError_eq_ok, Script.addBlock_eq_ok, Option.some.injEq, exists_eq_left', reduceCtorEq,
      false_and, or_false]
    constructor
    · rintro ⟨s₁, ⟨fresh, rfl⟩, h⟩
      exact ⟨fresh, (place rfl).1 h⟩
    · rintro ⟨fresh, same⟩
      exact ⟨_, ⟨fresh, rfl⟩, (place rfl).2 same⟩

/-- The blocks hold the items of `units` in order, each starting at one of `offsets` and named after
it, and the labels are bound to them. -/
structure Builds (marks : Marks) (units : List (Nat × Item)) (offsets : List Nat) (s : Script) :
    Prop where
  items : s.items = units.map (·.2)
  bindings : s.labels.bindings = s.blocks.mapIdx fun k b => (b.label, ⟨k, 0⟩)
  starts : ∀ k b, s.blocks[k]? = some b → ∃ n offset, offsets[n]? = some offset ∧
    marks.nameAt? offset = some b.label ∧
      (s.blocks.take k).flatMap (·.items) = (units.take n).map (·.2)
  named : ∀ offset ∈ offsets, ∀ name, marks.nameAt? offset = some name →
    ∃ b ∈ s.blocks, b.label = name
  distinct : (s.blocks.map (·.label)).Nodup

theorem builds_nil (target : Target) : Builds marks [] [] ⟨target, [], [], {}⟩ :=
  ⟨rfl, rfl, by simp, by simp, .nil⟩

theorem Builds.open (builds : Builds marks units offsets s) (same : offsets.length = units.length)
    {offset : Nat} {name : String} (named : marks.nameAt? offset = some name)
    (fresh : s.labels.get? name = none) (more : List (Nat × Item)) :
    Builds marks (units ++ more) (offsets ++ [offset]) { s with
      labels := { s.labels with bindings := s.labels.bindings ++ [(name, ⟨s.blocks.length, 0⟩)] }
      blocks := s.blocks ++ [⟨name, more.map (·.2)⟩] } where
  items := by
    have items := builds.items
    simp only [Script.items] at items ⊢
    simp [items]
  bindings := by simp [builds.bindings]
  starts := by
    intro k b found
    rcases Nat.lt_or_ge k s.blocks.length with before | after
    · rw [List.getElem?_append_left before] at found
      obtain ⟨n, o, here, name, items⟩ := builds.starts k b found
      have bound := (List.getElem?_eq_some_iff.1 here).1
      refine ⟨n, o, by rw [List.getElem?_append_left bound, here], name, ?_⟩
      rw [List.take_append_of_le_length before.le, items,
        List.take_append_of_le_length (by omega)]
    · rw [List.getElem?_append_right after] at found
      obtain ⟨bound, rfl⟩ := List.getElem?_eq_some_iff.1 found
      simp only [List.length_singleton, Nat.lt_one_iff] at bound
      have here : k = s.blocks.length := by omega
      refine ⟨offsets.length, offset, by simp, by simpa [bound] using named, ?_⟩
      have items := builds.items
      simp only [Script.items] at items
      rw [here, List.take_left, same, List.take_left, items]
  named := by
    intro o member name' named'
    rcases List.mem_append.1 member with before | here
    · obtain ⟨b, inBlocks, label⟩ := builds.named o before name' named'
      exact ⟨b, List.mem_append_left _ inBlocks, label⟩
    · obtain rfl := List.mem_singleton.1 here
      rw [named, Option.some.injEq] at named'
      exact ⟨_, List.mem_append_right _ (List.mem_singleton.2 rfl), named'⟩
  distinct := by
    rw [List.map_append, List.nodup_append]
    refine ⟨builds.distinct, by simp, fun label inBlocks label' isNew => ?_⟩
    obtain ⟨b, member, rfl⟩ := List.mem_map.1 inBlocks
    obtain rfl : label' = name := by simpa using isNew
    exact (Script.get?_eq_none_of_bindings builds.bindings).1 fresh b member

theorem Builds.extend (builds : Builds marks units offsets s) (same : offsets.length = units.length)
    {offset : Nat} (unnamed : marks.nameAt? offset = none) {front : List Block} {last : Block}
    (split : s.blocks = front ++ [last]) (item : Item) :
    Builds marks (units ++ [(offset, item)]) (offsets ++ [offset])
      { s with blocks := front ++ [{ last with items := last.items ++ [item] }] } where
  items := by
    have items := builds.items
    simp only [Script.items, split] at items ⊢
    simp only [List.flatMap_append, List.flatMap_singleton, List.map_append, List.map_singleton,
      ← List.append_assoc] at items ⊢
    rw [items]
  bindings := by
    have bindings := builds.bindings
    simp only [split, List.mapIdx_append] at bindings ⊢
    simpa using bindings
  starts := by
    intro k b found
    have old : ∃ b', s.blocks[k]? = some b' ∧ b'.label = b.label := by
      rw [split]
      rcases Nat.lt_or_ge k front.length with before | after
      · rw [List.getElem?_append_left before] at found ⊢
        exact ⟨b, found, rfl⟩
      · rw [List.getElem?_append_right after] at found ⊢
        obtain ⟨bound, rfl⟩ := List.getElem?_eq_some_iff.1 found
        have only : k - front.length = 0 := by simpa using bound
        exact ⟨last, by simp [only], by simp⟩
    obtain ⟨b', found', label⟩ := old
    have bound := (List.getElem?_eq_some_iff.1 found').1
    obtain ⟨n, o, here, name, items⟩ := builds.starts k b' found'
    have bound' := (List.getElem?_eq_some_iff.1 here).1
    refine ⟨n, o, by rw [List.getElem?_append_left bound', here], by rw [name, label], ?_⟩
    have inFront : k ≤ front.length := by
      rw [split, List.length_append, List.length_singleton] at bound
      omega
    rw [split, List.take_append_of_le_length inFront] at items
    rw [List.take_append_of_le_length inFront, items, List.take_append_of_le_length (by omega)]
  named := by
    intro o member name' named'
    rcases List.mem_append.1 member with before | here
    · obtain ⟨b, inBlocks, label⟩ := builds.named o before name' named'
      rw [split] at inBlocks
      rcases List.mem_append.1 inBlocks with inFront | isLast
      · exact ⟨b, List.mem_append_left _ inFront, label⟩
      · obtain rfl := List.mem_singleton.1 isLast
        exact ⟨_, List.mem_append_right _ (List.mem_singleton.2 rfl), label⟩
    · obtain rfl := List.mem_singleton.1 here
      rw [unnamed] at named'
      cases named'
  distinct := by
    have distinct := builds.distinct
    rw [split, List.map_append] at distinct
    rw [List.map_append]
    exact distinct

theorem Builds.foldlM (builds : Builds marks units (units.map (·.1)) s) {more : List (Nat × Item)}
    (added : more.foldlM marks.addItem s = .ok s') :
    Builds marks (units ++ more) ((units ++ more).map (·.1)) s' ∧ s'.target = s.target ∧
      s'.entries = s.entries ∧ s'.labels.references = s.labels.references := by
  induction more generalizing units s with
  | nil =>
    cases added
    simpa using builds
  | cons unit more ih =>
    rw [List.foldlM_cons] at added
    obtain ⟨s₁, step, rest⟩ := bind_eq_ok.1 added
    have next : Builds marks (units ++ [unit]) ((units ++ [unit]).map (·.1)) s₁ ∧
        s₁.target = s.target ∧ s₁.entries = s.entries ∧
          s₁.labels.references = s.labels.references := by
      rw [List.map_append]
      rcases addItem_eq_ok.1 step with ⟨name, named, fresh, rfl⟩ | ⟨unnamed, front, last, split, rfl⟩
      · exact ⟨builds.open (by simp) named fresh [unit], rfl, rfl, rfl⟩
      · exact ⟨builds.extend (by simp) unnamed split unit.2, rfl, rfl, rfl⟩
    have done := ih next.1 rest
    rw [List.append_assoc, List.singleton_append, next.2.1, next.2.2.1, next.2.2.2] at done
    exact done

theorem Builds.unnamed (builds : Builds marks units offsets s) {offset : Nat}
    (unnamed : marks.nameAt? offset = none) : Builds marks units (offsets ++ [offset]) s where
  items := builds.items
  bindings := builds.bindings
  starts k b found := by
    obtain ⟨n, o, here, name, items⟩ := builds.starts k b found
    exact ⟨n, o, by rw [List.getElem?_append_left (List.getElem?_eq_some_iff.1 here).1, here], name, items⟩
  named o member name named := by
    rcases List.mem_append.1 member with before | here
    · exact builds.named o before name named
    · rw [List.mem_singleton.1 here, unnamed] at named
      cases named
  distinct := builds.distinct

theorem Builds.congr (builds : Builds marks units offsets s) (blocks : s'.blocks = s.blocks)
    (bindings : s'.labels.bindings = s.labels.bindings) : Builds marks units offsets s' where
  items := by rw [Script.items, blocks, ← builds.items, Script.items]
  bindings := by rw [bindings, blocks, builds.bindings]
  starts := by rw [blocks]; exact builds.starts
  named := by rw [blocks]; exact builds.named
  distinct := by rw [blocks]; exact builds.distinct

theorem Builds.get? (builds : Builds marks units offsets s) {name : String} {binding : Binding}
    (found : s.labels.get? name = some binding) : ∃ n offset, offsets[n]? = some offset ∧
      marks.nameAt? offset = some name ∧
        (s.blocks.take binding.block).flatMap (·.items) = (units.take n).map (·.2) ∧
          binding.block < s.blocks.length := by
  obtain ⟨⟨name', _⟩, inBindings, rfl⟩ := Option.map_eq_some_iff.1 found
  have same : name' = name := by simpa using List.find?_some inBindings
  have member := List.mem_of_find?_eq_some inBindings
  rw [builds.bindings, List.mem_mapIdx] at member
  obtain ⟨k, bound, pair⟩ := member
  cases pair
  obtain ⟨n, offset, here, named, items⟩ := builds.starts k _ (List.getElem?_eq_getElem bound)
  exact ⟨n, offset, here, by rw [named, same], items, bound⟩

theorem Builds.declared (builds : Builds marks units offsets s) {offset : Nat} {name : String}
    (member : offset ∈ offsets) (named : marks.nameAt? offset = some name) :
    ∃ binding, s.labels.get? name = some binding := by
  obtain ⟨b, inBlocks, rfl⟩ := builds.named offset member name named
  obtain ⟨k, bound, rfl⟩ := List.getElem_of_mem inBlocks
  rw [← Option.isSome_iff_exists, LabelTable.get?, Option.isSome_map, List.find?_isSome,
    builds.bindings]
  exact ⟨_, List.mem_mapIdx.2 ⟨k, bound, rfl⟩, by simp⟩

theorem addEntry_eq_ok {entry : EntryPoint} {offset : Nat} :
    marks.addEntry s (entry, offset) = .ok s' ↔
      ∃ name, marks.nameAt? offset = some name ∧ s.addEntry entry name = .ok s' := by
  unfold addEntry
  cases marks.nameAt? offset with
  | none => simp [throw, throwThe, MonadExceptOf.throw]
  | some name =>
    have lifted : (monadLift (s.addEntry entry name) : Except Error Script) =
        (s.addEntry entry name).mapError .ofResolution := rfl
    simp only [liftM, lifted, mapError_eq_ok, Option.some.injEq, exists_eq_left']

theorem foldlM_addEntry {entries : List (EntryPoint × Nat)}
    (added : entries.foldlM marks.addEntry s = .ok s') : ∃ named, s' = { s with
      entries := s.entries ++ named } ∧
      List.Forall₂ (fun e e' => e'.1 = e.1 ∧ marks.nameAt? e.2 = some e'.2) entries named ∧
        ((s.entries.map Prod.fst).Nodup → (s'.entries.map Prod.fst).Nodup) ∧
          ∀ e ∈ named, e.1.isStageEvent = !s.target.isGlobals := by
  induction entries generalizing s with
  | nil =>
    cases added
    exact ⟨[], by simp, .nil, id, by simp⟩
  | cons entry entries ih =>
    rw [List.foldlM_cons] at added
    obtain ⟨s₁, step, rest⟩ := bind_eq_ok.1 added
    obtain ⟨name, nameHere, step⟩ := addEntry_eq_ok.1 step
    obtain ⟨fresh, scope, rfl⟩ := Script.addEntry_eq_ok.1 step
    obtain ⟨named, rfl, related, distinct, scopes⟩ := ih rest
    refine ⟨(entry.1, name) :: named, by simp, .cons ⟨rfl, nameHere⟩ related, fun before => distinct ?_,
      List.forall_mem_cons.2 ⟨scope, scopes⟩⟩
    rw [List.map_append, List.nodup_append]
    exact ⟨before, by simp, by simpa using fresh⟩

end Marks

namespace Recovery

variable {r : Recovery} {s : Script} {target : Target} {entries : List (EntryPoint × Nat)}

def scriptUnits (r : Recovery) : List (Nat × Item) := r.regions.flatMap (r.units r.marks)

/-- What the script of a recovery is made of. -/
structure Scripts (r : Recovery) (target : Target) (entries : List (EntryPoint × Nat)) (s : Script) :
    Prop where
  target : s.target = target
  builds : r.marks.Builds r.scriptUnits (r.scriptUnits.map (·.1) ++ [r.data.length]) s
  targets : ∀ t ∈ r.targets, r.isRaw t = false → ∃ name binding,
    r.marks.nameAt? t = some name ∧ s.labels.get? name = some binding
  entries : List.Forall₂ (fun e e' => e'.1 = e.1 ∧ r.marks.nameAt? e.2 = some e'.2) entries s.entries
  distinct : (s.entries.map Prod.fst).Nodup
  scope : ∀ e ∈ s.entries, e.1.isStageEvent = !s.target.isGlobals

theorem foldl_addReference (name : Nat → String) (ts : List Nat) (s : Script) :
    ts.foldl (fun s t => s.addReference (name t)) s = { s with labels := { s.labels with
      references := s.labels.references ++ ts.map fun t => (name t, none) } } := by
  induction ts generalizing s with
  | nil => simp
  | cons t ts ih =>
    rw [List.foldl_cons, ih]
    simp [Script.addReference, LabelTable.reference]

theorem script_finish {s₁ : Script} {units : List (Nat × Item)} {offsets : List Nat}
    (builds : r.marks.Builds units offsets s₁) (noEntries : s₁.entries = [])
    (names : ∀ t ∈ r.targets, r.isRaw t = false → ∃ name, r.marks.nameAt? t = some name)
    (built : (do
      let s ← entries.foldlM r.marks.addEntry
        ((r.targets.filter fun t => !r.isRaw t).foldl
          (fun s t => s.addReference ((r.marks.nameAt? t).getD "")) s₁)
      s.labels.resolveAll
      return s : Except Error Script) = .ok s) : r.marks.Builds units offsets s ∧ s.target = s₁.target ∧
      (∀ t ∈ r.targets, r.isRaw t = false → ∃ name binding,
        r.marks.nameAt? t = some name ∧ s.labels.get? name = some binding) ∧
      List.Forall₂ (fun e e' => e'.1 = e.1 ∧ r.marks.nameAt? e.2 = some e'.2) entries s.entries ∧
      (s.entries.map Prod.fst).Nodup ∧ ∀ e ∈ s.entries, e.1.isStageEvent = !s.target.isGlobals := by
  rw [foldl_addReference] at built
  obtain ⟨s₂, entered, built⟩ := bind_eq_ok.1 built
  obtain ⟨_, resolved, built⟩ := bind_eq_ok.1 built
  cases built
  obtain ⟨named, rfl, related, distinct, scope⟩ := Marks.foldlM_addEntry entered
  refine ⟨builds.congr rfl rfl, rfl, fun t member notRaw => ?_, by simpa [noEntries] using related,
    distinct (by simp [noEntries]), by simpa [noEntries] using scope⟩
  obtain ⟨name, here⟩ := names t member notRaw
  have referenced : (name, none) ∈ s₁.labels.references ++ (r.targets.filter fun t => !r.isRaw t).map
      fun t => ((r.marks.nameAt? t).getD "", none) :=
    List.mem_append_right _ (List.mem_map.2 ⟨t, List.mem_filter.2 ⟨member, by simp [notRaw]⟩, by simp [here]⟩)
  obtain ⟨binding, found⟩ := LabelTable.resolveAll_eq_ok.1 (mapError_eq_ok.1 resolved) _ referenced
  exact ⟨name, binding, here, found⟩

theorem script_eq_ok (built : r.script target entries = .ok s) : r.Scripts target entries s := by
  unfold script at built
  dsimp only at built
  cases unnamed : (r.targets.filter fun t => !r.isRaw t).find? fun t => (r.marks.nameAt? t).isNone with
  | some t =>
    rw [unnamed] at built
    cases built
  | none =>
    rw [unnamed] at built
    obtain ⟨s₁, folded, rest⟩ := bind_eq_ok.1 built
    obtain ⟨builds, sameTarget, noEntries, -⟩ := (Marks.builds_nil target).foldlM folded
    have names : ∀ t ∈ r.targets, r.isRaw t = false → ∃ name, r.marks.nameAt? t = some name := by
      intro t member notRaw
      have := List.find?_eq_none.1 unnamed t (List.mem_filter.2 ⟨member, by simp [notRaw]⟩)
      exact Option.ne_none_iff_exists'.1 (by simpa using this)
    cases atEnd : r.marks.nameAt? r.data.length with
    | none =>
      rw [atEnd] at rest
      obtain ⟨builds, same, targets, entries, distinct, scope⟩ :=
        script_finish (builds.unnamed atEnd) noEntries names rest
      exact ⟨same.trans sameTarget, builds, targets, entries, distinct, scope⟩
    | some name =>
      rw [atEnd] at rest
      obtain ⟨s₂, opened, rest⟩ := bind_eq_ok.1 rest
      obtain ⟨fresh, rfl⟩ := Script.addBlock_eq_ok.1 (mapError_eq_ok.1 opened)
      have closed := builds.open (by simp) atEnd fresh []
      rw [List.append_nil] at closed
      obtain ⟨builds, same, targets, entries, distinct, scope⟩ := script_finish closed noEntries names rest
      exact ⟨same.trans sameTarget, builds, targets, entries, distinct, scope⟩

end Recovery

end EventScript
