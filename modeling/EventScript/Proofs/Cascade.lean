import EventScript.Proofs.PassCount
import EventScript.Proofs.Recovered
import EventScript.Proofs.Reprint

namespace EventScript

-- Sums start from the zero of the core library, whatever else is imported.
attribute [local instance (2000)] Zero.ofOfNat0

namespace Cascade

def label (k : Nat) : String := Marks.labelName .location k

def jump (n i : Nat) : Item := .instruction ⟨"goto", [.label (label (n - i)) none false none], none⟩

def filler (n : Nat) : Bytes := List.replicate (65537 - 6 * n) 97

def landing (k : Nat) : Block := ⟨label (k + 1), [.data ⟨.word, [.int 0 none none], none⟩]⟩

/-- Jumps to `n` targets of two bytes each, where the first jump goes to the last target. -/
def script (n : Nat) : Script :=
  let blocks := ⟨label 0, (List.range n).map (jump n) ++ [.data ⟨.byte, [.text (filler n) none], none⟩]⟩ ::
    (List.range n).map landing
  { target := .globals, blocks, labels := ⟨blocks.mapIdx fun k b => (b.label, ⟨k, 0⟩), []⟩ }

def pointer (n i : Nat) (width : Width) : Pointer := ⟨label (n - i), n - i, width, false, ⟨"goto", 0⟩, none⟩

/-- The code of a cascade whose jumps have these widths. -/
def code (n : Nat) (widths : Nat → Width) : Code :=
  ((List.range n).map (fun i => [.bytes [3], .pointer (pointer n i (widths i))]) ++ [[.bytes (filler n ++ [0])]]) ::
    (List.range n).map fun _ => [[.bytes [0, 0]]]

def widths : Nat → Nat → Width
  | 0, _ => .byte
  | j + 1, i => if i < j then .long else .word

variable {n : Nat}

theorem label_injective {k k' : Nat} (same : label k = label k') : k = k' := Marks.labelName_injective same

theorem labels_script (n : Nat) : (script n).blocks.map (·.label) = (List.range (n + 1)).map label := by
  rw [List.range_succ_eq_map]
  simp [script, landing, Function.comp_def]

theorem nodup_labels (n : Nat) : ((script n).blocks.map (·.label)).Nodup := by
  rw [labels_script]
  exact List.nodup_range.map fun _ _ => label_injective

theorem get?_label {k : Nat} (inside : k ≤ n) : (script n).labels.get? (label k) = some ⟨k, 0⟩ := by
  have named : ((script n).blocks.map (·.label))[k]? = some (label k) := by
    rw [labels_script, List.getElem?_map, List.getElem?_range (by omega)]
    rfl
  rw [List.getElem?_map, Option.map_eq_some_iff] at named
  obtain ⟨b, here, same⟩ := named
  rw [← same]
  exact Script.get?_of_bindings rfl (nodup_labels n) here

theorem lower_jump (n i : Nat) :
    (jump n i).lower (script n).labels = .ok [.bytes [3], .pointer (pointer n i .byte)] := by
  have goto : (jump n i).lower (script n).labels =
      ((Placement.lowerPointer ⟨(script n).labels, ⟨"goto", 0⟩, none⟩ (.label (label (n - i)) none false none) >>=
        fun first => (.ok [] : Except Error ItemCode) >>= fun rest => pure (first ++ rest)) >>=
          fun start => pure start).map (.bytes [3] :: ·) := rfl
  rw [goto]
  simp only [Placement.lowerPointer, get?_label (Nat.sub_le n i)]
  rfl

theorem lowerBlocks_script (n : Nat) : (script n).lowerBlocks = .ok (code n (widths 0)) := by
  apply mapM_eq_ok.2
  apply List.Forall₂.cons
  · apply mapM_eq_ok.2
    apply List.rel_append
    · rw [List.forall₂_map_left_iff, List.forall₂_map_right_iff, List.forall₂_same]
      intro i _
      exact lower_jump n i
    · exact .cons rfl .nil
  · rw [List.forall₂_map_left_iff, List.forall₂_map_right_iff, List.forall₂_same]
    intro k _
    rfl

theorem lower_script (n : Nat) : (script n).lower = .ok (code n (widths 0)) :=
  Script.lower_of_bound (lowerBlocks_script n) fun _ _ => Script.block_lt_of_bindings rfl

theorem mem_items {item : Item} (member : item ∈ (script n).items) : (∃ i, item = jump n i) ∨
    item = .data ⟨.byte, [.text (filler n) none], none⟩ ∨ item = .data ⟨.word, [.int 0 none none], none⟩ := by
  simp only [script, Script.items, landing, List.flatMap_cons, List.flatMap_map, List.mem_append, List.mem_map,
    List.mem_flatMap, List.mem_singleton] at member
  rcases member with (⟨i, -, same⟩ | same) | ⟨i, -, same⟩
  · exact .inl ⟨i, same.symm⟩
  · exact .inr (.inl same)
  · exact .inr (.inr same)

theorem wellFormed_jump (n i : Nat) : (jump n i).WellFormed := by
  let c : Command := { name := "goto", code := 3, category := .control, shapes := [[.pointer]], endsFlow := true }
  have isLabel : Lexeme.IsName (label (n - i)) := (LabelKind.isLabel_labelName .location (n - i)).1
  refine ⟨c, by decide +kernel, rfl, ?_⟩
  apply (Command.takes_iff (by decide)).2
  refine ⟨[.pointer], rfl, ?_, ?_, fun terminated => absurd terminated (by decide)⟩
  · intro o member
    rw [List.mem_singleton.1 member, Operand.isSpelled_leaf (by simp)]
    exact isLabel
  · intro index o here isElse
    cases index with
    | zero => cases isElse
    | succ index => cases here

theorem wellFormed_script (n : Nat) : (script n).WellFormed where
  bindings := rfl
  distinct := nodup_labels n
  named k b here := by
    have named : ((script n).blocks.map (·.label))[k]? = some b.label := by rw [List.getElem?_map, here]; rfl
    rw [labels_script, List.getElem?_map, Option.map_eq_some_iff] at named
    obtain ⟨k', -, same⟩ := named
    rw [← same]
    exact .inl (LabelKind.isLabel_labelName .location k')
  items item member := by
    rcases mem_items member with ⟨i, rfl⟩ | rfl | rfl
    · exact wellFormed_jump n i
    · simp [Item.WellFormed, Data.takes, Operand.IsSpelled, Operand.walk, Operand.Spelled]
    · simp [Item.WellFormed, Data.takes, Operand.IsSpelled, Operand.walk, Operand.Spelled, Lexeme.InRange]
      decide
  keys := by simp [script]
  entryLabels := by simp [script]
  scope := by simp [script]
  entries := by simp [script]
  declared name used := by
    have declared (k : Nat) (inside : k ≤ n) : ∃ b ∈ (script n).blocks, b.label = label k := by
      apply Script.exists_block_of_bindings rfl
      exact get?_label inside
    simp only [Script.usedLabels, script, List.map_nil, List.append_nil] at used
    obtain ⟨item, member, used⟩ := List.mem_flatMap.1 used
    rcases mem_items member with ⟨i, rfl⟩ | rfl | rfl
    · obtain rfl : name = label (n - i) := by
        simpa [Item.labelNames, jump, Item.operands, Operand.walkAll, Operand.walk, Operand.reference?] using used
      exact declared (n - i) (Nat.sub_le n i)
    · simp [Item.labelNames, Item.operands, Operand.walkAll, Operand.walk, Operand.reference?] at used
    · simp [Item.labelNames, Item.operands, Operand.walkAll, Operand.walk, Operand.reference?] at used

theorem pointers_code (n : Nat) (w : Nat → Width) :
    (code n w).pointers = (List.range n).map fun i => pointer n i (w i) := by
  have jumps (is : List Nat) : (is.map fun i => [Piece.bytes [3], .pointer (pointer n i (w i))]).flatMap
      ItemCode.pointers = is.map fun i => pointer n i (w i) := by
    induction is with
    | nil => rfl
    | cons i is ih => rw [List.map_cons, List.flatMap_cons, ih]; rfl
  have landings (is : List Nat) : (is.map fun _ => [[Piece.bytes [0, 0]]]).flatten.flatMap ItemCode.pointers = [] := by
    simp [ItemCode.pointers]
  unfold code Code.pointers Code.items
  rw [List.flatten_cons, List.flatMap_append, List.flatMap_append, jumps, landings]
  simp [ItemCode.pointers]

theorem mapPointers_code {f : Pointer → Pointer} {w w' : Nat → Width}
    (each : ∀ i < n, f (pointer n i (w i)) = pointer n i (w' i)) : (code n w).mapPointers f = code n w' := by
  unfold code Code.mapPointers
  rw [List.map_cons, List.map_append, List.map_map, List.map_map]
  congr 2
  apply List.map_congr_left
  intro i member
  simp [each i (List.mem_range.1 member)]

def addressBytes (n : Nat) (w : Nat → Width) : Nat := ((List.range n).map fun i => (w i).bytes).sum

theorem blockSizes_code (n : Nat) (w : Nat → Width) :
    (code n w).blockSizes = (2 * n + addressBytes n w + (65537 - 6 * n + 1)) :: List.replicate n 2 := by
  have jumps (is : List Nat) : ((is.map fun i => [Piece.bytes [3], .pointer (pointer n i (w i))]).map
      ItemCode.size).sum = 2 * is.length + (is.map fun i => (w i).bytes).sum := by
    induction is with
    | nil => rfl
    | cons i is ih =>
      have here : ItemCode.size [Piece.bytes [3], .pointer (pointer n i (w i))] = 2 + (w i).bytes := by
        simp [ItemCode.size, Piece.size, pointer]
        omega
      simp only [List.map_cons, List.sum_cons, List.length_cons, ih, here]
      omega
  simp only [code, Code.blockSizes, List.map_cons, List.map_append, List.sum_append, jumps, List.length_range]
  simp [addressBytes, filler, ItemCode.size, Piece.size]

theorem target_code {i : Nat} (inside : i < n) (few : n ≤ 10922) (w : Nat → Width) (width : Width) :
    Code.target (code n w).blockAddresses (pointer n i width) + 2 * n + 2 * i = 65536 + addressBytes n w := by
  obtain ⟨k, block⟩ : ∃ k, n - i = k + 1 := ⟨n - i - 1, by omega⟩
  have bound : k + 1 < (code n w).blockSizes.length := by
    rw [blockSizes_code, List.length_cons, List.length_replicate]
    omega
  have address : (addressesFrom 0 (code n w).blockSizes)[k + 1]? =
      some (0 + ((code n w).blockSizes.take (k + 1)).sum) :=
    Code.getElem?_addressesFrom bound
  rw [blockSizes_code, List.take_succ_cons, List.sum_cons, List.take_replicate,
    List.sum_replicate_nat] at address
  unfold Code.target Code.blockAddresses pointer
  rw [List.getD_eq_getElem?_getD, blockSizes_code, block, address]
  rw [Option.getD_some]
  omega

theorem size_code (n : Nat) (w : Nat → Width) : (code n w).size ≤ 4 * n + addressBytes n w + 65538 := by
  rw [← Code.sum_blockSizes, blockSizes_code, List.sum_cons, List.sum_replicate_nat]
  omega

theorem addressBytes_zero (n : Nat) : addressBytes n (widths 0) = n := by
  simp [addressBytes, widths, Width.bytes]

theorem addressBytes_succ {j : Nat} (le : j ≤ n) : addressBytes n (widths (j + 1)) = 2 * n + 2 * j := by
  have total (n : Nat) : addressBytes n (widths (j + 1)) = 2 * n + 2 * min n j := by
    unfold addressBytes
    induction n with
    | zero => rfl
    | succ n ih =>
      rw [List.range_succ, List.map_append, List.sum_append, ih]
      by_cases long : n < j
      · simp [widths, long, Width.bytes]
        omega
      · simp [widths, long, Width.bytes]
        omega
  rw [total]
  omega

theorem mustGrow_code {i j : Nat} (inside : i < n) (few : n ≤ 10922) (le : j ≤ n + 1) :
    Code.mustGrow (code n (widths j)).blockAddresses (pointer n i (widths j i)) = decide (j = 0 ∨ i + 1 = j) := by
  have target := target_code inside few (widths j) (widths j i)
  have free : (pointer n i (widths j i)).forced = false := rfl
  have width : (pointer n i (widths j i)).width = widths j i := rfl
  rw [Bool.eq_iff_iff, Code.mustGrow_iff, free, width]
  generalize Code.target _ _ = address at target ⊢
  cases j with
  | zero =>
    rw [addressBytes_zero] at target
    have far : ¬ address ≤ 255 := by omega
    simp only [widths, Width.ofAddress]
    split_ifs <;> simp [Width.bytes]
    omega
  | succ j =>
    rw [addressBytes_succ (by omega)] at target
    simp only [widths, Width.ofAddress]
    split_ifs <;> simp [Width.bytes] <;> omega

theorem widen_code {j : Nat} (few : n ≤ 10922) (le : j ≤ n + 1) :
    (code n (widths j)).widen = code n (widths (j + 1)) := by
  apply mapPointers_code
  intro i inside
  rw [mustGrow_code inside few le]
  cases j with
  | zero => simp [widths, pointer, Width.next]
  | succ j =>
    rcases Nat.lt_trichotomy i j with before | rfl | after
    · have grown : i < j + 1 := by omega
      simp [widths, pointer, before, grown, Nat.ne_of_lt before]
    · simp [widths, pointer, Width.next]
    · have still : ¬ i < j := by omega
      have later : ¬ i < j + 1 := by omega
      simp [widths, pointer, still, later, Nat.ne_of_gt after]

theorem iterate_code {j : Nat} (few : n ≤ 10922) (le : j ≤ n + 1) :
    Code.widen^[j] (code n (widths 0)) = code n (widths j) := by
  induction j with
  | zero => rfl
  | succ j ih => rw [Function.iterate_succ_apply', ih (by omega), widen_code few (by omega)]

theorem growing_ne_nil {j : Nat} (positive : 1 ≤ n) (few : n ≤ 10922) (less : j < n + 1) :
    (Code.widen^[j] (code n (widths 0))).growing ≠ [] := by
  have inside : j - 1 < n := by omega
  have grows : Code.mustGrow (code n (widths j)).blockAddresses (pointer n (j - 1) (widths j (j - 1))) = true := by
    rw [mustGrow_code inside few (by omega)]
    apply decide_eq_true
    omega
  rw [iterate_code few (by omega), Code.growing, pointers_code]
  apply List.ne_nil_of_mem (a := pointer n (j - 1) (widths j (j - 1)))
  apply List.mem_filter.2
  exact ⟨List.mem_map_of_mem (List.mem_range.2 inside), grows⟩

theorem growing_eq_nil (few : n ≤ 10922) : (Code.widen^[n + 1] (code n (widths 0))).growing = [] := by
  rw [iterate_code few (Nat.le_refl _), Code.growing, pointers_code, List.filter_eq_nil_iff]
  intro p member
  obtain ⟨i, inRange, rfl⟩ := List.mem_map.1 member
  have inside := List.mem_range.1 inRange
  rw [mustGrow_code inside few (Nat.le_refl _)]
  simp
  omega

end Cascade

namespace Code.Like

variable {same : Nat → Nat → Prop} {c c' : Code}

theorem iterate (like : c.Like same c') (j : Nat) : (Code.widen^[j] c).Like same (Code.widen^[j] c') := by
  induction j with
  | zero => exact like
  | succ j ih =>
    rw [Function.iterate_succ_apply', Function.iterate_succ_apply']
    exact ih.widen

theorem growing_eq_nil (like : c.Like same c') : c.growing = [] ↔ c'.growing = [] := by
  rw [← List.length_eq_zero_iff, ← List.length_eq_zero_iff, like.growing.length_eq]

theorem length_freePointers (like : c.Like same c') : c.freePointers.length = c'.freePointers.length := by
  have pointers : List.Forall₂ (Pointer.Like same) c.pointers c'.pointers :=
    List.rel_flatMap like.items fun _ _ => ItemCode.pointers_like
  have free := List.rel_filter (p := (!·.forced)) (q := (!·.forced)) (fun p p' h => by simp [h.forced]) pointers
  exact free.length_eq

end Code.Like

namespace Script

variable {n : Nat}

theorem exists_cascade (positive : 1 ≤ n) (few : n ≤ 10922) : ∃ s c l, parse (Cascade.script n).toText = .ok s ∧
    s.lower = .ok c ∧ c.freePointers.length = n ∧ l.passes = n + 2 ∧ l.size < 2 ^ 32 ∧
      (∀ limit, n + 2 ≤ limit → s.layout limit = .ok l) ∧
      ∀ limit, 1 ≤ limit → limit < n + 2 → ∃ q, c.WidenedIn limit q ∧
        s.layout limit = .error (.encode ⟨.unsettled limit q.label q.site, q.span⟩) := by
  obtain ⟨s, read, same, -⟩ := (Cascade.wellFormed_script n).exists_sameProgram
  have lower := same.lower
  rw [Cascade.lower_script] at lower
  obtain ⟨c, lowered, like⟩ := lower.of_ok_left rfl
  have grows : ∀ j < n + 1, (Code.widen^[j] c).growing ≠ [] := fun j less still =>
    Cascade.growing_ne_nil positive few less ((like.iterate j).growing_eq_nil.2 still)
  have still : (Code.widen^[n + 1] c).growing = [] :=
    (like.iterate (n + 1)).growing_eq_nil.1 (Cascade.growing_eq_nil few)
  have free : c.freePointers.length = n := by
    rw [← like.length_freePointers, Code.freePointers, Cascade.pointers_code]
    simp [Cascade.pointer, List.filter_map, Function.comp_def]
  have size : (Code.widen^[n + 1] c).size < 2 ^ 32 := by
    rw [← (like.iterate (n + 1)).size, Cascade.iterate_code few (Nat.le_refl _)]
    have bound := Cascade.size_code n (Cascade.widths (n + 1))
    rw [Cascade.addressBytes_succ (Nat.le_refl n)] at bound
    omega
  exact ⟨s, c, .ofCode (Code.widen^[n + 1] c) (n + 2), read, lowered, free, rfl, size,
    fun limit enough => layout_of_enough lowered grows still (by omega),
    fun limit positive short => layout_of_short lowered grows still positive (by omega)⟩

variable {s : Script} {c : Code}

/-- How far the default number of passes goes. There is a layout for every script that can be lowered, and up to 62
free pointers always settle within the default. With more of them it may be too few, in which case the layout fails
at a pointer that the last pass has widened. -/
theorem layout_default (lowered : s.lower = .ok c) :
    ∃ l, s.layout (2 * c.freePointers.length + 1) = .ok l ∧
      (c.freePointers.length ≤ 21760 → l.passes ≤ c.freePointers.length + 2) ∧
      (c.freePointers.length ≤ 62 → s.layout = .ok l) ∧
      (l.passes ≤ defaultPasses ∧ s.layout = .ok l ∨ defaultPasses < l.passes ∧ ∃ q,
        c.WidenedIn defaultPasses q ∧
          s.layout = .error (.encode ⟨.unsettled defaultPasses q.label q.site, q.span⟩)) := by
  obtain ⟨n, grows, still⟩ := c.exists_still
  have narrow := lower_narrow lowered
  have room := Code.slack_iterate grows
  rw [narrow.slack_eq] at room
  have once : c.freePointers.length ≤ 21760 → n ≤ c.freePointers.length + 1 := fun few => narrow.passes_le few grows
  refine ⟨.ofCode (Code.widen^[n] c) (n + 1), layout_of_enough lowered grows still (by omega), ?_, ?_, ?_⟩
  · intro few
    exact Nat.succ_le_succ (once few)
  · intro few
    apply layout_of_enough lowered grows still
    have bound := once (by omega)
    show n < 64
    omega
  · by_cases enough : n < defaultPasses
    · exact .inl ⟨enough, layout_of_enough lowered grows still enough⟩
    · have short : defaultPasses ≤ n := Nat.le_of_not_lt enough
      exact .inr ⟨Nat.lt_succ_of_le short, layout_of_short lowered grows still (by decide) short⟩

/-- With 62 jumps a cascade takes all passes of the default. -/
theorem layout_default_cascade : ∃ s c l, parse (Cascade.script 62).toText = .ok s ∧ s.lower = .ok c ∧
    c.freePointers.length = 62 ∧ l.passes = defaultPasses ∧ s.layout = .ok l := by
  obtain ⟨s, c, l, read, lowered, free, passes, -, enough, -⟩ := exists_cascade (n := 62) (by decide) (by decide)
  obtain ⟨l', -, -, few, -⟩ := layout_default lowered
  have laid := few (by omega)
  have same : l' = l := by
    rw [enough defaultPasses (by decide)] at laid
    exact (Except.ok.inj laid).symm
  exact ⟨s, c, l', read, lowered, free, same ▸ passes, laid⟩

/-- With one jump more the default is too few, although one more pass gives a layout. -/
theorem layout_unsettled_cascade : ∃ s l q, parse (Cascade.script 63).toText = .ok s ∧
    s.layout 65 = .ok l ∧ l.size < 2 ^ 32 ∧
      s.layout = .error (.encode ⟨.unsettled defaultPasses (Pointer.label q) q.site, q.span⟩) := by
  obtain ⟨s, c, l, read, -, -, -, size, enough, short⟩ := exists_cascade (n := 63) (by decide) (by decide)
  obtain ⟨q, -, failed⟩ := short defaultPasses (by decide) (by decide)
  exact ⟨s, l, q, read, enough 65 (by decide), size, failed⟩

end Script

end EventScript
