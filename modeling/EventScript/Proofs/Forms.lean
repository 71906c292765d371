import EventScript.Proofs.Reading

namespace EventScript

namespace Atom

theorem code_injective {a b : Atom} (h : a.code = b.code) : a = b := by
  have index : a.ctorIdx = b.ctorIdx := Nat.add_left_cancel h
  rw [← ofNat_ctorIdx a, index, ofNat_ctorIdx]

theorem find?_name (a : Atom) :
    ((List.range 53).map ofNat).find? (fun b => b.name == a.name) = some a := by
  have table : ∀ n < 53, ((List.range 53).map ofNat).find? (fun b => b.name == (ofNat n).name) = some (ofNat n) := by
    decide +kernel
  have here := table a.ctorIdx (by cases a <;> decide)
  rwa [ofNat_ctorIdx] at here

theorem name_injective {a b : Atom} (h : a.name = b.name) : a = b := by
  have found := find?_name a
  rw [h, find?_name] at found
  exact (Option.some.inj found).symm

end Atom

namespace Slot

def exclusive : Slot → Slot → Bool
  | atom a, atom b => a != b
  | literal v, literal w => v != w
  | atom a, literal v | literal v, atom a => v != a.code
  | _, _ => false

theorem exclusive_comm (s t : Slot) : exclusive s t = exclusive t s := by
  cases s <;> cases t <;> simp [exclusive, bne_comm]

theorem isSelector_of_exclusive {s t : Slot} (h : exclusive s t = true) : s.isSelector = true := by
  cases s <;> cases t <;> simp_all [exclusive, isSelector]

theorem isSelector_of_selectedBy {s : Slot} {value : Int} {width : Width}
    (h : s.selectedBy value width = true) : s.isSelector = true := by
  cases s <;> first | rfl | cases h

theorem not_accepts_of_exclusive {s t : Slot} (h : exclusive s t = true) {o : Operand}
    (first : s.accepts o = true) : t.accepts o = false := by
  cases s <;> cases t <;> simp only [exclusive, Bool.false_eq_true, bne_iff_ne, ne_eq] at h <;>
    cases o <;> simp_all [accepts]
  exact fun same => h (Atom.name_injective same)

theorem not_acceptsField_of_exclusive {s t : Slot} (h : exclusive s t = true) {o : Operand}
    (first : s.acceptsField o = true) : t.acceptsField o = false := by
  cases s <;> cases t <;> simp only [exclusive, Bool.false_eq_true, bne_iff_ne, ne_eq] at h <;>
    cases o <;> simp_all [acceptsField]

theorem not_selectedBy_of_exclusive {s t : Slot} (h : exclusive s t = true) {value : Int}
    {width : Width} (first : s.selectedBy value width = true) :
    t.selectedBy value width = false := by
  cases s <;> cases t <;> simp only [exclusive, Bool.false_eq_true, bne_iff_ne, ne_eq] at h <;>
    simp_all [selectedBy]
  · exact fun same => h (Atom.code_injective same)
  · exact Ne.symm h

end Slot

namespace Shape

def apart : Shape → Shape → Bool
  | s :: a, t :: b => if s = t then s != .variadic && apart a b else s.exclusive t
  | _, _ => false

def Separate (shapes : List Shape) : Prop := ∀ a ∈ shapes, ∀ b ∈ shapes, a ≠ b → a.apart b = true

instance (shapes : List Shape) : Decidable (Separate shapes) :=
  inferInstanceAs (Decidable (∀ a ∈ shapes, ∀ b ∈ shapes, a ≠ b → _))

theorem exists_of_apart {a b : Shape} (h : apart a b = true) :
    ∃ (i : Nat) (s t : Slot), a[i]? = some s ∧ b[i]? = some t ∧ s.exclusive t = true := by
  induction a generalizing b with
  | nil => simp [apart] at h
  | cons s a ih =>
    cases b with
    | nil => simp [apart] at h
    | cons t b =>
      by_cases same : s = t
      · simp only [apart, same, if_true, Bool.and_eq_true] at h
        obtain ⟨i, s', t', first, second, exclusive⟩ := ih h.2
        exact ⟨i + 1, s', t', first, second, exclusive⟩
      · simp only [apart, same, if_false] at h
        exact ⟨0, s, t, rfl, rfl, h⟩

/-- The form takes all of the operands, and no more. -/
structure Fits (check : Slot → Operand → Bool) (shape : Shape) (os : List Operand) : Prop where
  enough : shape.minOperands ≤ os.length
  each : ∀ i (h : i < os.length), (shape.slotAt i).any (check · os[i]) = true

theorem mem_of_slotAt {shape : Shape} {i : Nat} {slot : Slot} (isSlot : shape.slotAt i = some slot) :
    slot ∈ shape ∨ slot = .variadic := by
  unfold slotAt at isSlot
  split at isSlot
  · exact .inr (Option.some.inj isSlot).symm
  · exact .inl (List.mem_of_getElem? isSlot)

theorem Fits.exists_slot {check : Slot → Operand → Bool} {shape : Shape} {os : List Operand}
    (fits : Fits check shape os) {o : Operand} (member : o ∈ os) : ∃ slot, (slot ∈ shape ∨ slot = .variadic) ∧ check slot o = true := by
  obtain ⟨i, bound, rfl⟩ := List.getElem_of_mem member
  obtain ⟨slot, isSlot, accepted⟩ := (Option.any_eq_true ..).1 (fits.each i bound)
  exact ⟨slot, mem_of_slotAt isSlot, accepted⟩

theorem slotAt_of_selector {shape : Shape} {i : Nat} {s : Slot} (h : shape[i]? = some s)
    (selector : s.isSelector = true) : i < shape.minOperands ∧ shape.slotAt i = some s := by
  obtain ⟨bound, here⟩ := List.getElem?_eq_some_iff.1 h
  unfold minOperands slotAt
  cases variadic : shape.isVariadic with
  | false => simpa using ⟨bound, h⟩
  | true =>
    have notLast : i ≠ shape.length - 1 := by
      rintro rfl
      simp only [isVariadic, List.getLast?_eq_getElem?, h, beq_iff_eq, Option.some.injEq] at variadic
      simp [variadic, Slot.isSelector] at selector
    have before : i < shape.length - 1 := by omega
    have notAfter : ¬ shape.length ≤ i + 1 := by omega
    simp [before, notAfter, h]

theorem Fits.unique {check : Slot → Operand → Bool} {shapes : List Shape} {os : List Operand}
    (separate : Separate shapes)
    (exclusive : ∀ {s t : Slot}, s.exclusive t = true → ∀ {o}, check s o = true → check t o = false)
    {a b : Shape} (inA : a ∈ shapes) (inB : b ∈ shapes) (fitsA : Fits check a os)
    (fitsB : Fits check b os) : a = b := by
  by_contra differ
  obtain ⟨i, s, t, atA, atB, apart⟩ := exists_of_apart (separate a inA b inB differ)
  obtain ⟨bound, slotA⟩ := slotAt_of_selector atA (Slot.isSelector_of_exclusive apart)
  obtain ⟨-, slotB⟩ := slotAt_of_selector atB
    (Slot.isSelector_of_exclusive ((Slot.exclusive_comm s t).symm.trans apart))
  have first := fitsA.each i (bound.trans_le fitsA.enough)
  have second := fitsB.each i (bound.trans_le fitsA.enough)
  simp only [slotA, slotB, Option.any_some] at first second
  rw [exclusive apart first] at second
  contradiction

theorem narrow_eq_ok {check : Slot → Operand → Bool} {name : String} {live survivors : List Shape}
    {index : Nat} {os : List Operand} (h : narrow check name live index os = .ok survivors) :
    survivors = live.filter fun shape =>
      os.zipIdx index |>.all fun (o, i) => (shape.slotAt i).any (check · o) := by
  induction os generalizing live index with
  | nil =>
    cases h
    simp
  | cons o os ih =>
    simp only [narrow] at h
    split at h
    · cases h
    · split at h
      · cases h
      · rw [ih h, List.filter_filter]
        simp [Bool.and_comm]

theorem narrow_ok_of_mem {check : Slot → Operand → Bool} (name : String) {live : List Shape}
    {index : Nat} {os : List Operand} {shape : Shape} (member : shape ∈ live)
    (each : os.zipIdx index |>.all fun (o, i) => (shape.slotAt i).any (check · o)) :
    ∃ survivors, narrow check name live index os = .ok survivors := by
  induction os generalizing live index with
  | nil => exact ⟨live, rfl⟩
  | cons o os ih =>
    simp only [List.zipIdx_cons, List.all_cons, Bool.and_eq_true] at each
    have survives : shape ∈ live.filter fun shape => (shape.slotAt index).any (check · o) :=
      List.mem_filter.2 ⟨member, each.1⟩
    have slots : ¬ (live.map (slotAt · index)).all Option.isNone = true := by
      intro none
      have here := List.all_eq_true.1 none _ (List.mem_map_of_mem member)
      rw [Option.isNone_iff_eq_none.1 here] at each
      simp at each
    have some : ¬ (live.filter fun shape => (shape.slotAt index).any (check · o)).isEmpty = true := by
      rw [List.isEmpty_iff]
      exact List.ne_nil_of_mem survives
    simp only [narrow, slots, some]
    exact ih survives each.2

theorem fits_iff {check : Slot → Operand → Bool} {shape : Shape} {os : List Operand} :
    Fits check shape os ↔ shape.minOperands ≤ os.length ∧
      (os.zipIdx.all fun (o, i) => (shape.slotAt i).any (check · o)) = true := by
  constructor
  · rintro ⟨enough, each⟩
    refine ⟨enough, List.all_eq_true.2 ?_⟩
    rintro ⟨o, i⟩ member
    obtain ⟨bound, here⟩ := List.getElem?_eq_some_iff.1 (List.mem_zipIdx_iff_getElem?.1 member)
    dsimp only at bound here ⊢
    exact here ▸ each i bound
  · rintro ⟨enough, each⟩
    refine ⟨enough, fun i bound => List.all_eq_true.1 each (os[i], i) ?_⟩
    exact List.mem_zipIdx_iff_getElem?.2 (List.getElem?_eq_getElem bound)

theorem choose_eq_ok_of_unique {check : Slot → Operand → Bool} {name : String} {shapes : List Shape}
    {os : List Operand} (unique : ∀ a ∈ shapes, ∀ b ∈ shapes, Fits check a os → Fits check b os → a = b)
    {shape : Shape} :
    choose check name shapes os = .ok shape ↔ shape ∈ shapes ∧ Fits check shape os := by
  constructor
  · intro h
    obtain ⟨live, narrowed, h⟩ := bind_eq_ok.1 h
    rw [narrow_eq_ok narrowed] at h
    split at h
    · rename_i found
      cases h
      have member := List.mem_of_find?_eq_some found
      have enough := List.find?_some found
      simp only [List.mem_filter] at member
      exact ⟨member.1, fits_iff.2 ⟨by simpa using enough, member.2⟩⟩
    · cases h
  · rintro ⟨member, fits⟩
    obtain ⟨enough, each⟩ := fits_iff.1 fits
    obtain ⟨live, narrowed⟩ := narrow_ok_of_mem name member each
    refine bind_eq_ok.2 ⟨live, narrowed, ?_⟩
    obtain rfl := narrow_eq_ok narrowed
    have survives : shape ∈ shapes.filter fun shape =>
        os.zipIdx.all fun (o, i) => (shape.slotAt i).any (check · o) :=
      List.mem_filter.2 ⟨member, each⟩
    split
    · rename_i other found
      have member' := List.mem_of_find?_eq_some found
      have enough' := List.find?_some found
      simp only [List.mem_filter] at member'
      have same := unique _ member'.1 _ member (fits_iff.2 ⟨by simpa using enough', member'.2⟩) fits
      rw [same]
    · rename_i missing
      have here := List.find?_eq_none.1 missing _ survives
      simp [enough] at here

/-- Of separate forms the one that fits is chosen. -/
theorem choose_eq_ok {check : Slot → Operand → Bool} {name : String} {shapes : List Shape}
    (separate : Separate shapes)
    (exclusive : ∀ {s t : Slot}, s.exclusive t = true → ∀ {o}, check s o = true → check t o = false)
    {os : List Operand} {shape : Shape} :
    choose check name shapes os = .ok shape ↔ shape ∈ shapes ∧ Fits check shape os :=
  choose_eq_ok_of_unique fun _ inA _ inB => Fits.unique separate exclusive inA inB

section Tail

variable {slots rest : Shape}

def IsTail (rest : Shape) : Prop := rest = [] ∨ rest = [.variadic]

theorem isVariadic_append (fixed : .variadic ∉ slots) (tail : IsTail rest) :
    isVariadic (slots ++ rest) = !rest.isEmpty := by
  rcases tail with rfl | rfl
  · simp only [isVariadic, List.append_nil, List.isEmpty_nil, Bool.not_true, beq_eq_false_iff_ne]
    exact fun last => fixed (List.mem_of_getLast? last)
  · simp [isVariadic]

theorem minOperands_append (fixed : .variadic ∉ slots) (tail : IsTail rest) :
    minOperands (slots ++ rest) = slots.length := by
  rw [minOperands, isVariadic_append fixed tail]
  rcases tail with rfl | rfl <;> simp

theorem slotAt_append (fixed : .variadic ∉ slots) (tail : IsTail rest) (i : Nat) :
    slotAt (slots ++ rest) i = if i < slots.length then slots[i]? else rest.head? := by
  rw [slotAt, isVariadic_append fixed tail]
  rcases tail with rfl | rfl
  · by_cases before : i < slots.length
    · simp [before]
    · simp [before]
  · by_cases before : i < slots.length
    · simp [before, Nat.not_le.2 before, List.getElem?_append_left before]
    · simp [before, Nat.not_lt.1 before]

theorem fits_append {check : Slot → Operand → Bool} (fixed : .variadic ∉ slots) (tail : IsTail rest)
    {os others : List Operand} (same : os.length = slots.length) :
    Fits check (slots ++ rest) (os ++ others) ↔
      List.Forall₂ (fun slot o => check slot o = true) slots os ∧
        (rest = [] → others = []) ∧ ∀ o ∈ others, check .variadic o = true := by
  constructor
  · rintro ⟨-, each⟩
    refine ⟨List.forall₂_iff_get.2 ⟨same.symm, fun i inSlots inOs => ?_⟩, ?_, ?_⟩
    · have here := each i (by simp; omega)
      simpa [slotAt_append fixed tail, inSlots, List.getElem_append_left inOs] using here
    · rintro rfl
      cases others with
      | nil => rfl
      | cons o others =>
        have here := each os.length (by simp)
        rw [slotAt_append fixed tail] at here
        simp [same] at here
    · intro o member
      obtain ⟨i, bound, rfl⟩ := List.getElem_of_mem member
      have here := each (os.length + i) (by simpa using bound)
      have after : ¬ os.length + i < slots.length := by omega
      rw [slotAt_append fixed tail, if_neg after] at here
      rcases tail with rfl | rfl
      · simp at here
      · simpa using here
  · rintro ⟨each, none, others_⟩
    rw [List.forall₂_iff_get] at each
    refine ⟨by rw [minOperands_append fixed tail]; simp; omega, fun i bound => ?_⟩
    rw [slotAt_append fixed tail]
    by_cases before : i < slots.length
    · have here := each.2 i before (by omega)
      simpa [before, List.getElem_append_left (show i < os.length by omega)] using here
    · have later : os.length ≤ i := by omega
      have inOthers : (os ++ others)[i] ∈ others := by
        rw [List.getElem_append_right later]
        exact List.getElem_mem _
      rcases tail with rfl | rfl
      · exact absurd (none rfl) (List.ne_nil_of_mem inOthers)
      · simpa [before] using others_ _ inOthers

theorem fits_iff_split {check : Slot → Operand → Bool} (fixed : .variadic ∉ slots)
    (tail : IsTail rest) {os : List Operand} :
    Fits check (slots ++ rest) os ↔ ∃ first others, os = first ++ others ∧
      List.Forall₂ (fun slot o => check slot o = true) slots first ∧
        (rest = [] → others = []) ∧ ∀ o ∈ others, check .variadic o = true := by
  constructor
  · intro fits
    have enough := fits.enough
    rw [minOperands_append fixed tail] at enough
    have same : (os.take slots.length).length = slots.length := by simpa using enough
    rw [← List.take_append_drop slots.length os, fits_append fixed tail same] at fits
    exact ⟨_, _, (List.take_append_drop slots.length os).symm, fits⟩
  · rintro ⟨first, others, rfl, fits⟩
    exact (fits_append fixed tail fits.1.length_eq.symm).2 fits

theorem fits_fixed {check : Slot → Operand → Bool} (fixed : .variadic ∉ slots)
    {os : List Operand} :
    Fits check slots os ↔ List.Forall₂ (fun slot o => check slot o = true) slots os := by
  have split : Fits check (slots ++ []) os ↔ _ := fits_iff_split fixed (.inl rfl)
  rw [List.append_nil] at split
  rw [split]
  constructor
  · rintro ⟨first, others, rfl, each, none, -⟩
    rwa [none rfl, List.append_nil]
  · intro each
    exact ⟨os, [], by simp, each, by simp⟩

end Tail

def isFinished : Shape → Bool
  | [] | .variadic :: _ => true
  | _ => false

theorem eq_of_isFinished {live : List Shape} (separate : Separate live) {shape : Shape}
    (member : shape ∈ live) (finished : shape.isFinished = true) {other : Shape}
    (member' : other ∈ live) : other = shape := by
  by_contra differ
  have parted := separate shape member other member' (Ne.symm differ)
  match shape, other, finished, parted with
  | .variadic :: _, t :: _, _, parted =>
    by_cases same : Slot.variadic = t
    · simp [apart, same] at parted
    · simp [apart, same, Slot.exclusive] at parted

theorem heads_of_unfinished {live : List Shape} (separate : Separate live)
    (unfinished : ∀ shape ∈ live, shape.isFinished = false) :
    (∃ slot : Slot, slot.isSelector = false ∧ slot ≠ .variadic ∧ ∀ shape ∈ live, ∃ rest, shape = slot :: rest) ∨
      ∀ shape ∈ live, ∃ slot rest, shape = slot :: rest ∧ slot.isSelector = true := by
  have nonempty : ∀ shape ∈ live, ∃ slot rest, shape = slot :: rest ∧ slot ≠ .variadic := by
    intro shape member
    match shape, unfinished shape member with
    | slot :: rest, open_ =>
      refine ⟨slot, rest, rfl, ?_⟩
      rintro rfl
      simp [isFinished] at open_
  by_cases common : ∃ shape ∈ live, ∃ slot rest, shape = slot :: rest ∧ slot.isSelector = false
  · obtain ⟨shape, member, slot, rest, rfl, plain⟩ := common
    obtain ⟨_, _, same, fixed⟩ := nonempty _ member
    cases same
    refine .inl ⟨slot, plain, fixed, fun other member' => ?_⟩
    obtain ⟨slot', rest', rfl, -⟩ := nonempty other member'
    by_cases same : slot = slot'
    · exact ⟨rest', by rw [same]⟩
    · have parted := separate _ member _ member' (by simp [same])
      simp only [apart, same, if_false] at parted
      simp [Slot.isSelector_of_exclusive parted] at plain
  · refine .inr fun shape member => ?_
    obtain ⟨slot, rest, rfl, -⟩ := nonempty shape member
    refine ⟨slot, rest, rfl, ?_⟩
    by_contra plain
    exact common ⟨_, member, slot, rest, rfl, by simpa using plain⟩

/-- Forms as a vocabulary lists them. -/
structure Regular (shapes : List Shape) : Prop where
  separate : Separate shapes
  nonempty : shapes ≠ []
  tail : ∀ shape ∈ shapes, .variadic ∉ shape.dropLast

instance (shapes : List Shape) : Decidable (Regular shapes) :=
  decidable_of_iff (Separate shapes ∧ shapes ≠ [] ∧ ∀ shape ∈ shapes, .variadic ∉ shape.dropLast)
    ⟨fun h => ⟨h.1, h.2.1, h.2.2⟩, fun h => ⟨h.separate, h.nonempty, h.tail⟩⟩

theorem Separate.tails {live chosen : List Shape} (separate : Separate live)
    (subset : ∀ shape ∈ chosen, shape ∈ live) {slot : Slot}
    (common : ∀ shape ∈ chosen, ∃ rest, shape = slot :: rest) : Separate (chosen.map List.tail) := by
  intro a inA b inB differ
  obtain ⟨a', memberA, rfl⟩ := List.mem_map.1 inA
  obtain ⟨b', memberB, rfl⟩ := List.mem_map.1 inB
  obtain ⟨a, rfl⟩ := common a' memberA
  obtain ⟨b, rfl⟩ := common b' memberB
  have parted := separate _ (subset _ memberA) _ (subset _ memberB) (by simpa using differ)
  simp only [apart, if_true, Bool.and_eq_true] at parted
  exact parted.2

end Shape

namespace Decoder

namespace Reading

variable (reading : Reading)

def selected (slot : Slot) (value : Int) (width : Width) : Operand :=
  match slot with
  | .atom a => .atom a.name none
  | _ => reading.ofSelector value width

def ReadsSlot (index : Nat) (slot : Slot) (c : Cursor) (o : Operand) (c' : Cursor) : Prop :=
  if slot.isSelector then
    ∃ value width, reading.selector.Reads c (value, width) c' ∧
      slot.selectedBy value width = true ∧ o = reading.selected slot value width
  else (reading.operand index slot).Reads c o c'

theorem readsSlot_operand {slot : Slot} (plain : slot.isSelector = false) {index : Nat}
    {c c' : Cursor} {o : Operand} :
    reading.ReadsSlot index slot c o c' ↔ (reading.operand index slot).Reads c o c' := by
  rw [ReadsSlot, if_neg (by simp [plain])]

theorem readsSlot_selector {slot : Slot} (selects : slot.isSelector = true) {index : Nat}
    {c c' : Cursor} {o : Operand} :
    reading.ReadsSlot index slot c o c' ↔ ∃ value width,
      reading.selector.Reads c (value, width) c' ∧ slot.selectedBy value width = true ∧
        o = reading.selected slot value width := by
  rw [ReadsSlot, if_pos selects]

def ReadsSlots : Nat → List Slot → Cursor → List Operand → Cursor → Prop
  | _, [], c, [], c' => c = c'
  | index, slot :: slots, c, o :: os, c' =>
    ∃ c₁, reading.ReadsSlot index slot c o c₁ ∧ ReadsSlots (index + 1) slots c₁ os c'
  | _, _, _, _, _ => False

end Reading

def chosenBy (live : List Shape) (value : Int) (width : Width) : List Shape :=
  live.filter fun shape => shape.head?.any (Slot.selectedBy value width)

theorem chosenBy_subset {live : List Shape} {value : Int} {width : Width} :
    ∀ shape ∈ chosenBy live value width, shape ∈ live :=
  fun _ member => (List.mem_filter.1 member).1

theorem finished_eq_find? (live : List Shape) : finished live = live.find? Shape.isFinished := rfl

theorem walk_of_finished {reading : Reading} {name : String} {limit index : Nat} {live : List Shape}
    (separate : Shape.Separate live) {shape : Shape} (member : shape ∈ live)
    (done : shape.isFinished = true) : walk reading name limit index live = pure ([], shape) := by
  cases limit with
  | zero =>
    cases live with
    | nil => simp at member
    | cons first live =>
      simp [walk, Shape.eq_of_isFinished separate member done List.mem_cons_self]
  | succ limit =>
    cases found : live.find? Shape.isFinished with
    | none => simp [List.find?_eq_none.1 found shape member] at done
    | some first =>
      have same := Shape.eq_of_isFinished separate member done (List.mem_of_find?_eq_some found)
      simp [walk, finished_eq_find?, found, same]

section Unfinished

variable {reading : Reading} {name : String} {limit index : Nat} {live : List Shape}

theorem walk_of_common (unfinished : ∀ shape ∈ live, shape.isFinished = false) (some : live ≠ [])
    {slot : Slot} (plain : slot.isSelector = false)
    (common : ∀ shape ∈ live, ∃ rest, shape = slot :: rest) :
    walk reading name (limit + 1) index live = (do
      let operand ← reading.operand index slot
      let (operands, shape) ← walk reading name limit (index + 1) (live.map List.tail)
      return (operand :: operands, shape)) := by
  have none : finished live = none := by
    rw [finished_eq_find?, List.find?_eq_none]
    intro shape member
    simp [unfinished shape member]
  have heads : live.filterMap List.head? = List.replicate live.length slot := by
    clear none some unfinished
    induction live with
    | nil => rfl
    | cons shape live ih =>
      obtain ⟨rest, rfl⟩ := common shape List.mem_cons_self
      simpa [List.replicate_succ] using ih fun shape member =>
        common shape (List.mem_cons_of_mem _ member)
  cases live with
  | nil => contradiction
  | cons first live => simp [walk, none, heads, plain, List.replicate_succ]

theorem walk_of_selectors (unfinished : ∀ shape ∈ live, shape.isFinished = false) (some : live ≠ [])
    (selectors : ∀ shape ∈ live, ∃ slot rest, shape = slot :: rest ∧ slot.isSelector = true) :
    walk reading name (limit + 1) index live = (do
      let start ← offset
      let (value, width) ← reading.selector
      match (chosenBy live value width).head?.bind List.head? with
      | .none => fail (.selector value index name) start
      | .some slot =>
        let (operands, shape) ←
          walk reading name limit (index + 1) ((chosenBy live value width).map List.tail)
        return (reading.selected slot value width :: operands, shape)) := by
  have none : finished live = none := by
    rw [finished_eq_find?, List.find?_eq_none]
    intro shape member
    simp [unfinished shape member]
  have any : (live.filterMap List.head?).any Slot.isSelector = true := by
    obtain ⟨first, member⟩ := List.exists_mem_of_ne_nil live some
    obtain ⟨slot, rest, rfl, selector⟩ := selectors first member
    exact List.any_eq_true.2 ⟨slot, List.mem_filterMap.2 ⟨_, member, rfl⟩, selector⟩
  simp only [walk, none, any, if_true]
  rfl

end Unfinished

theorem Reading.readsSlots_nil {reading : Reading} {index : Nat} {c c' : Cursor} {os : List Operand} :
    reading.ReadsSlots index [] c os c' ↔ os = [] ∧ c = c' := by
  cases os <;> simp [Reading.ReadsSlots]

theorem Reading.readsSlots_cons {reading : Reading} {index : Nat} {slot : Slot} {slots : List Slot}
    {c c' : Cursor} {os : List Operand} :
    reading.ReadsSlots index (slot :: slots) c os c' ↔ ∃ o os' c₁, os = o :: os' ∧
      reading.ReadsSlot index slot c o c₁ ∧ reading.ReadsSlots (index + 1) slots c₁ os' c' := by
  cases os <;> simp [Reading.ReadsSlots]

theorem eq_head_of_selected {live : List Shape} (separate : Shape.Separate live) {value : Int}
    {width : Width} {s t : Slot} {a b : Shape} (inA : s :: a ∈ live) (inB : t :: b ∈ live)
    (first : s.selectedBy value width = true) (second : t.selectedBy value width = true) : s = t := by
  by_contra differ
  have parted := separate _ inA _ inB (by simp [differ])
  simp only [Shape.apart, differ, if_false] at parted
  rw [Slot.not_selectedBy_of_exclusive parted first] at second
  contradiction

theorem chosenBy_common {live : List Shape} (separate : Shape.Separate live) {value : Int}
    {width : Width} {slot : Slot}
    (first : (chosenBy live value width).head?.bind List.head? = some slot) :
    slot.selectedBy value width = true ∧
      ∀ shape ∈ chosenBy live value width, ∃ rest, shape = slot :: rest := by
  obtain ⟨shape, isFirst, isHead⟩ := Option.bind_eq_some_iff.1 first
  obtain ⟨rest, rfl⟩ := List.head?_eq_some_iff.1 isHead
  obtain ⟨inLive, selected⟩ := List.mem_filter.1 (List.mem_of_head? isFirst)
  simp only [List.head?_cons, Option.any_some] at selected
  refine ⟨selected, fun other member => ?_⟩
  obtain ⟨inLive', selected'⟩ := List.mem_filter.1 member
  cases other with
  | nil => simp at selected'
  | cons slot' rest' =>
    simp only [List.head?_cons, Option.any_some] at selected'
    exact ⟨rest', by rw [eq_head_of_selected separate inLive inLive' selected selected']⟩

theorem chosenBy_first {live : List Shape} (separate : Shape.Separate live) {value : Int}
    {width : Width} {slot : Slot} {rest : Shape} (member : slot :: rest ∈ live)
    (selected : slot.selectedBy value width = true) :
    (chosenBy live value width).head?.bind List.head? = some slot := by
  have inside : slot :: rest ∈ chosenBy live value width :=
    List.mem_filter.2 ⟨member, by simpa using selected⟩
  cases first : (chosenBy live value width).head?.bind List.head? with
  | some slot' =>
    obtain ⟨_, same⟩ := (chosenBy_common separate first).2 _ inside
    cases same
    rfl
  | none =>
    obtain ⟨shape, chosen, split⟩ := List.exists_cons_of_ne_nil (List.ne_nil_of_mem inside)
    have isFirst : shape ∈ chosenBy live value width := split ▸ List.mem_cons_self
    obtain ⟨-, selected'⟩ := List.mem_filter.1 isFirst
    cases shape with
    | nil => simp at selected'
    | cons slot' _ => simp [split] at first

theorem reads_walk_of_finished {reading : Reading} {name : String} {limit index : Nat}
    {live : List Shape} (separate : Shape.Separate live) {shape : Shape} (member : shape ∈ live)
    (done : shape.isFinished = true) {c c' : Cursor} {os : List Operand} {rest : Shape} :
    (walk reading name limit index live).Reads c (os, rest) c' ↔ ∃ slots : List Slot,
      slots ++ rest ∈ live ∧ rest.isFinished = true ∧ .variadic ∉ slots ∧
        reading.ReadsSlots index slots c os c' := by
  rw [walk_of_finished separate member done, reads_pure]
  constructor
  · rintro ⟨same, rfl⟩
    cases same
    exact ⟨[], member, done, by simp, Reading.readsSlots_nil.2 ⟨rfl, rfl⟩⟩
  · rintro ⟨slots, member', -, fixed, read⟩
    have same := Shape.eq_of_isFinished separate member done member'
    cases slots with
    | nil =>
      obtain ⟨rfl, rfl⟩ := Reading.readsSlots_nil.1 read
      exact ⟨by rw [← same]; rfl, rfl⟩
    | cons slot slots =>
      subst same
      have variadic : slot = .variadic := by cases slot <;> first | rfl | cases done
      exact absurd List.mem_cons_self (variadic ▸ fixed)

theorem reads_walk {reading : Reading} {name : String} {limit index : Nat} {live : List Shape}
    (separate : Shape.Separate live) (some : live ≠ []) (short : ∀ shape ∈ live, shape.length ≤ limit)
    {c c' : Cursor} {os : List Operand} {rest : Shape} :
    (walk reading name limit index live).Reads c (os, rest) c' ↔ ∃ slots : List Slot,
      slots ++ rest ∈ live ∧ rest.isFinished = true ∧ .variadic ∉ slots ∧
        reading.ReadsSlots index slots c os c' := by
  -- The limit bounds what is left of the forms, and each step takes a slot off those that stay.
  induction limit generalizing index live c c' os rest with
  | zero =>
    obtain ⟨shape, member⟩ := List.exists_mem_of_ne_nil live some
    have empty := List.length_eq_zero_iff.1 (Nat.le_zero.1 (short shape member))
    exact reads_walk_of_finished separate member (by rw [empty]; rfl)
  | succ limit ih =>
    by_cases finished : ∃ shape ∈ live, shape.isFinished = true
    · obtain ⟨shape, member, done⟩ := finished
      exact reads_walk_of_finished separate member done
    have unfinished : ∀ shape ∈ live, shape.isFinished = false := by
      intro shape member
      by_contra done
      exact finished ⟨shape, member, by simpa using done⟩
    have tailsShort (chosen : List Shape) (subset : ∀ shape ∈ chosen, shape ∈ live) :
        ∀ shape ∈ chosen.map List.tail, shape.length ≤ limit := by
      intro tail member
      obtain ⟨shape, inChosen, rfl⟩ := List.mem_map.1 member
      have := short shape (subset shape inChosen)
      simp only [List.length_tail]
      omega
    rcases Shape.heads_of_unfinished separate unfinished with ⟨slot, plain, fixed, common⟩ | selectors
    · -- All forms go on with the same slot, so none drops out.
      have tails := separate.tails (fun _ member => member) common
      have shorter := tailsShort _ fun _ member => member
      rw [walk_of_common unfinished some plain common]
      simp only [reads_bind, Prod.exists, ih tails (by simpa using some) shorter, reads_pure,
        Prod.mk.injEq]
      constructor
      · rintro ⟨o, c₁, read, os', rest', c₂, ⟨slots, member, done, fixed', others⟩, ⟨rfl, rfl⟩, rfl⟩
        obtain ⟨shape, member, same⟩ := List.mem_map.1 member
        obtain ⟨_, rfl⟩ := common shape member
        rw [List.tail_cons] at same
        subst same
        refine ⟨slot :: slots, member, done, by simp [Ne.symm fixed, fixed'], c₁, ?_, others⟩
        exact (reading.readsSlot_operand plain).2 read
      · rintro ⟨slots, member, done, fixed', read⟩
        cases slots with
        | nil => exact absurd done (by simpa using unfinished _ member)
        | cons slot' slots =>
          obtain ⟨_, same⟩ := common _ member
          cases same
          obtain ⟨o, os', c₁, rfl, first, others⟩ := Reading.readsSlots_cons.1 read
          refine ⟨o, c₁, ?_, os', rest, c', ⟨slots, ?_, done, ?_, others⟩, ⟨rfl, rfl⟩, rfl⟩
          · exact (reading.readsSlot_operand plain).1 first
          · exact List.mem_map.2 ⟨_, member, rfl⟩
          · exact fun inside => fixed' (List.mem_cons_of_mem _ inside)
    · -- The forms that stay are those whose selector has the value that is read.
      rw [walk_of_selectors unfinished some selectors]
      simp only [reads_bind, reads_offset, Prod.exists]
      constructor
      · rintro ⟨_, _, ⟨rfl, rfl⟩, value, width, c₁, selector, h⟩
        cases first : (chosenBy live value width).head?.bind List.head? with
        | none => simp only [first, reads_fail] at h
        | some slot =>
          obtain ⟨selected, common⟩ := chosenBy_common separate first
          have tails := separate.tails chosenBy_subset common
          have shorter := tailsShort (chosenBy live value width) chosenBy_subset
          have some' : (chosenBy live value width).map List.tail ≠ [] := by
            intro empty
            simp [List.map_eq_nil_iff.1 empty] at first
          simp only [first, reads_bind, Prod.exists, reads_pure, Prod.mk.injEq] at h
          obtain ⟨os', rest', c₂, others, ⟨rfl, rfl⟩, rfl⟩ := h
          obtain ⟨slots, member, done, fixed, others⟩ := (ih tails some' shorter).1 others
          obtain ⟨shape, member, same⟩ := List.mem_map.1 member
          obtain ⟨_, rfl⟩ := common shape member
          rw [List.tail_cons] at same
          subst same
          obtain ⟨member, -⟩ := List.mem_filter.1 member
          refine ⟨slot :: slots, member, done, ?_, c₁, ?_, others⟩
          · rw [List.mem_cons, not_or]
            refine ⟨?_, fixed⟩
            rintro rfl
            cases selected
          · exact (reading.readsSlot_selector (Slot.isSelector_of_selectedBy selected)).2
              ⟨value, width, selector, selected, rfl⟩
      · rintro ⟨slots, member, done, fixed, read⟩
        cases slots with
        | nil => exact absurd done (by simpa using unfinished _ member)
        | cons slot slots =>
          obtain ⟨o, os', c₁, rfl, read, others⟩ := Reading.readsSlots_cons.1 read
          obtain ⟨_, _, same, selects⟩ := selectors _ member
          cases same
          obtain ⟨value, width, selector, selected, rfl⟩ := (reading.readsSlot_selector selects).1 read
          refine ⟨_, _, ⟨rfl, rfl⟩, value, width, c₁, selector, ?_⟩
          have inside : slot :: (slots ++ rest) ∈ chosenBy live value width :=
            List.mem_filter.2 ⟨member, by simpa using selected⟩
          have first := chosenBy_first separate member selected
          obtain ⟨-, common⟩ := chosenBy_common separate first
          have tails := separate.tails chosenBy_subset common
          have shorter := tailsShort (chosenBy live value width) chosenBy_subset
          have inTails : slots ++ rest ∈ (chosenBy live value width).map List.tail :=
            List.mem_map.2 ⟨_, inside, rfl⟩
          simp only [first, reads_bind, Prod.exists, reads_pure, Prod.mk.injEq]
          refine ⟨os', rest, c', (ih tails (List.ne_nil_of_mem inTails) shorter).2
            ⟨slots, inTails, done, ?_, others⟩, ⟨rfl, rfl⟩, rfl⟩
          exact fun variadic => fixed (List.mem_cons_of_mem _ variadic)

theorem length_le_foldl_max {shapes : List Shape} {shape : Shape} (member : shape ∈ shapes) :
    shape.length ≤ (shapes.map List.length).foldl max 0 := by
  have grows : ∀ (sizes : List Nat) (start : Nat), start ≤ sizes.foldl max start ∧
      ∀ size ∈ sizes, size ≤ sizes.foldl max start := by
    intro sizes
    induction sizes with
    | nil => simp
    | cons first sizes ih =>
      intro start
      obtain ⟨above, all⟩ := ih (max start first)
      refine ⟨by simp only [List.foldl_cons]; omega, fun size inside => ?_⟩
      rcases List.mem_cons.1 inside with rfl | inside
      · simp only [List.foldl_cons]
        omega
      · exact all size inside
  exact (grows _ 0).2 _ (List.mem_map_of_mem member)

/-- The operands that are read are those of one of the forms, slot by slot. -/
theorem reads_walkShapes {reading : Reading} {name : String} {shapes : List Shape}
    (regular : Shape.Regular shapes) {c c' : Cursor} {os : List Operand} {rest : Shape} :
    (walkShapes reading name shapes).Reads c (os, rest) c' ↔ ∃ slots : List Slot,
      slots ++ rest ∈ shapes ∧ rest.IsTail ∧ .variadic ∉ slots ∧
        reading.ReadsSlots 0 slots c os c' := by
  unfold walkShapes
  rw [reads_walk regular.separate regular.nonempty fun shape => length_le_foldl_max]
  refine exists_congr fun slots => and_congr_right fun member => ?_
  suffices same : rest.isFinished = true ↔ rest.IsTail by rw [same]
  match rest with
  | [] => simp [Shape.isFinished, Shape.IsTail]
  | [slot] => cases slot <;> simp [Shape.isFinished, Shape.IsTail]
  | slot :: next :: more =>
    have last := regular.tail _ member
    have notVariadic : slot ≠ .variadic := by
      rintro rfl
      simp [List.dropLast_append_of_ne_nil] at last
    cases slot <;> simp_all [Shape.isFinished, Shape.IsTail]

end Decoder

theorem Command.regular {c : Command} (member : c ∈ Command.all) (kind : c.layout ≠ .assignment) :
    Shape.Regular c.shapes := by
  revert c
  decide +kernel

theorem Operator.regular {o : Operator} (member : o ∈ Operator.all) : Shape.Regular o.shapes := by
  revert o
  decide +kernel

theorem MessageOp.regular {m : MessageOp} (member : m ∈ MessageOp.all) : Shape.Regular m.shapes := by
  revert m
  decide +kernel

end EventScript
