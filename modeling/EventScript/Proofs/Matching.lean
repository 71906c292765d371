import EventScript.Proofs.Forms
import Mathlib.Order.Bounds.Defs

namespace EventScript.Shape

variable {check : Slot → Operand → Bool} {name : String} {shapes live : List Shape} {shape : Shape}
  {os before rest : List Operand} {index k : Nat} {e : Mismatch}

/-- The form accepts the first `k` operands, each in its place. -/
structure Starts (check : Slot → Operand → Bool) (shape : Shape) (os : List Operand) (k : Nat) : Prop where
  within : k ≤ os.length
  each : ∀ i o, i < k → os[i]? = some o → (shape.slotAt i).any (check · o) = true

theorem Starts.zero (check : Slot → Operand → Bool) (shape : Shape) (os : List Operand) : Starts check shape os 0 :=
  ⟨Nat.zero_le _, fun i _ below => absurd below (Nat.not_lt_zero i)⟩

theorem Starts.mono (starts : Starts check shape os k) (le : index ≤ k) : Starts check shape os index :=
  ⟨Nat.le_trans le starts.within, fun i o below => starts.each i o (Nat.lt_of_lt_of_le below le)⟩

theorem starts_succ {o : Operand} (here : os[k]? = some o) :
    Starts check shape os (k + 1) ↔ Starts check shape os k ∧ (shape.slotAt k).any (check · o) = true := by
  constructor
  · intro starts
    exact ⟨starts.mono (Nat.le_succ k), starts.each k o (Nat.lt_succ_self k) here⟩
  · rintro ⟨starts, accepted⟩
    obtain ⟨bound, -⟩ := List.getElem?_eq_some_iff.1 here
    refine ⟨bound, fun i o' below found => ?_⟩
    rcases Nat.lt_succ_iff_lt_or_eq.1 below with earlier | rfl
    · exact starts.each i o' earlier found
    · cases here.symm.trans found
      exact accepted

instance (check : Slot → Operand → Bool) (shape : Shape) (os : List Operand) : Decidable (Fits check shape os) :=
  decidable_of_iff _ fits_iff.symm

theorem narrow_cons (check : Slot → Operand → Bool) (name : String) (live : List Shape) (index : Nat) (o : Operand)
    (os : List Operand) :
    (live.filter (fun shape => (shape.slotAt index).any (check · o)) ≠ [] ∧
      narrow check name live index (o :: os) =
        narrow check name (live.filter fun shape => (shape.slotAt index).any (check · o)) (index + 1) os) ∨
    (live.filter (fun shape => (shape.slotAt index).any (check · o)) = [] ∧
      ∃ cause, narrow check name live index (o :: os) = .error ⟨index, cause⟩) := by
  by_cases noSlot : (live.map (slotAt · index)).all Option.isNone = true
  · right
    refine ⟨List.filter_eq_nil_iff.2 fun shape member => ?_, .tooMany name, by simp only [narrow, noSlot, if_true]⟩
    have none := List.all_eq_true.1 noSlot _ (List.mem_map_of_mem member)
    simp [Option.isNone_iff_eq_none.1 none]
  · by_cases empty : live.filter (fun shape => (shape.slotAt index).any (check · o)) = []
    · right
      exact ⟨empty, _, by simp only [narrow, noSlot, empty, List.isEmpty_nil, if_true]; rfl⟩
    · left
      refine ⟨empty, ?_⟩
      rw [narrow, if_neg noSlot, if_neg (by simpa using empty)]

def reached (os : List Operand) : Except Mismatch (List Shape) → Nat
  | .ok _ => os.length
  | .error e => e.index

/-- Before operand `index` the forms that are left are those that accept all operands so far. When narrowing stops, no
form accepts more of them. -/
theorem isGreatest_reached (split : os = before ++ rest) (place : before.length = index)
    (left : ∀ s, s ∈ live ↔ s ∈ shapes ∧ Starts check s os index) (someLeft : index = 0 ∨ live ≠ []) :
    IsGreatest {k | k = 0 ∨ ∃ s ∈ shapes, Starts check s os k} (reached os (narrow check name live index rest)) := by
  have attained : index = 0 ∨ ∃ s ∈ shapes, Starts check s os index := by
    refine someLeft.imp_right fun nonempty => ?_
    obtain ⟨s, member⟩ := List.exists_mem_of_ne_nil live nonempty
    exact ⟨s, (left s).1 member⟩
  induction rest generalizing live index before with
  | nil =>
    have all : os.length = index := by simp [split, place]
    refine ⟨all ▸ attained, ?_⟩
    rintro k (rfl | ⟨s, -, starts⟩)
    · exact Nat.zero_le _
    · exact starts.within
  | cons o rest ih =>
    have here : os[index]? = some o := by simp [split, ← place]
    have next (s : Shape) : s ∈ live.filter (fun shape => (shape.slotAt index).any (check · o)) ↔
        s ∈ shapes ∧ Starts check s os (index + 1) := by
      rw [List.mem_filter, left, starts_succ here, and_assoc]
    rcases narrow_cons check name live index o rest with ⟨more, step⟩ | ⟨none, cause, step⟩
    · rw [step]
      obtain ⟨s, member⟩ := List.exists_mem_of_ne_nil _ more
      have split' : os = (before ++ [o]) ++ rest := by simp [split]
      exact ih split' (by simp [place]) next (.inr more) (.inr ⟨s, (next s).1 member⟩)
    · rw [step]
      refine ⟨attained, ?_⟩
      rintro k (rfl | ⟨s, member, starts⟩)
      · exact Nat.zero_le _
      · by_contra further
        have survives := (next s).2 ⟨member, starts.mono (Nat.lt_of_not_le further)⟩
        rw [none] at survives
        cases survives

theorem choose_eq_ok_iff_find? :
    choose check name shapes os = .ok shape ↔ shapes.find? (fun s => Fits check s os) = some shape := by
  have search {survivors : List Shape} (narrowed : narrow check name shapes 0 os = .ok survivors) :
      shapes.find? (fun s => Fits check s os) = survivors.find? fun s => s.minOperands ≤ os.length := by
    rw [narrow_eq_ok narrowed, List.find?_filter]
    congr 1
    funext s
    rw [Bool.eq_iff_iff]
    simp only [decide_eq_true_eq, fits_iff, and_comm]
  constructor
  · intro chosen
    obtain ⟨survivors, narrowed, chosen⟩ := bind_eq_ok.1 chosen
    rw [search narrowed]
    split at chosen
    · rename_i found
      cases chosen
      exact found
    · cases chosen
  · intro found
    have fits : Fits check shape os := by simpa using List.find?_some found
    obtain ⟨-, each⟩ := fits_iff.1 fits
    obtain ⟨survivors, narrowed⟩ := narrow_ok_of_mem name (List.mem_of_find?_eq_some found) each
    refine bind_eq_ok.2 ⟨survivors, narrowed, ?_⟩
    rw [search narrowed] at found
    rw [found]

theorem exists_error_iff : (∃ e, choose check name shapes os = .error e) ↔ ∀ s ∈ shapes, ¬ Fits check s os := by
  have search : shapes.find? (fun s => Fits check s os) = none ↔ ∀ s ∈ shapes, ¬ Fits check s os := by
    simp [List.find?_eq_none]
  rw [← search, Option.eq_none_iff_forall_ne_some]
  cases outcome : choose check name shapes os with
  | error e =>
    refine iff_of_true ⟨e, rfl⟩ fun shape found => ?_
    have chosen : choose check name shapes os = .ok shape := choose_eq_ok_iff_find?.2 found
    rw [outcome] at chosen
    cases chosen
  | ok shape =>
    refine iff_of_false (fun ⟨_, failed⟩ => by cases failed) fun none => none shape ?_
    exact choose_eq_ok_iff_find?.1 outcome

theorem isGreatest_index (failed : choose check name shapes os = .error e) :
    IsGreatest {k | k = 0 ∨ ∃ s ∈ shapes, Starts check s os k} e.index := by
  have greatest : IsGreatest _ (reached os (narrow check name shapes 0 os)) :=
    isGreatest_reached (List.nil_append os).symm rfl (fun s => ⟨fun member => ⟨member, .zero check s os⟩, And.left⟩)
      (.inl rfl)
  have same : reached os (narrow check name shapes 0 os) = e.index := by
    unfold choose at failed
    cases narrowed : narrow check name shapes 0 os with
    | error e' =>
      rw [narrowed] at failed
      cases failed
      rfl
    | ok survivors =>
      rw [narrowed] at failed
      simp only [Bind.bind, Except.bind] at failed
      split at failed
      · cases failed
      · cases failed
        rfl
  exact same ▸ greatest

/-- Of any list of forms, with any check of operands, the first that fits is chosen. The choice fails if and only if
none fits; the mismatch is then placed behind the longest run of first operands that some form accepts, so behind all of
them if some form only lacks further ones. -/
theorem choose_firstFit (check : Slot → Operand → Bool) (name : String) (shapes : List Shape) (os : List Operand) :
    (∀ shape, choose check name shapes os = .ok shape ↔ ∃ earlier later, shapes = earlier ++ shape :: later ∧
      Fits check shape os ∧ ∀ s ∈ earlier, ¬ Fits check s os) ∧
    ((∃ e, choose check name shapes os = .error e) ↔ ∀ s ∈ shapes, ¬ Fits check s os) ∧
    ∀ e, choose check name shapes os = .error e →
      IsGreatest {k | k = 0 ∨ ∃ s ∈ shapes, Starts check s os k} e.index ∧
        ((∃ s ∈ shapes, Starts check s os os.length) → e.index = os.length) := by
  refine ⟨fun shape => ?_, exists_error_iff, fun e failed => ?_⟩
  · rw [choose_eq_ok_iff_find?, List.find?_eq_some_iff_append]
    simp only [decide_eq_true_eq, Bool.not_eq_true', decide_eq_false_iff_not]
    exact ⟨fun ⟨fits, earlier, later, split, no⟩ => ⟨earlier, later, split, fits, no⟩,
      fun ⟨earlier, later, split, fits, no⟩ => ⟨fits, earlier, later, split, no⟩⟩
  · have greatest := isGreatest_index failed
    refine ⟨greatest, fun whole => Nat.le_antisymm ?_ (greatest.2 (.inr whole))⟩
    rcases greatest.1 with zero | ⟨s, -, starts⟩
    · omega
    · exact starts.within

end EventScript.Shape
