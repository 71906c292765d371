import EventScript.Proofs.Relaxation
import EventScript.Proofs.Tiling
import EventScript.Recovery.Pin

namespace EventScript

namespace Script

variable {s : Script} {limit rounds : Nat} {pins pins' : List Pin}

theorem mem_missingPins {l : Layout} {pin : Pin} :
    pin ∈ s.missingPins pins l ↔ pin ∈ s.forcedReferences ∧ pin ∉ pins ∧
      ∃ b, s.labels.get? pin.1 = some b ∧ pin.2 ≠ .ofAddress (l.blockAddresses.getD b.block 0) := by
  simp [missingPins, Option.any_eq_true]

def unpinned (s : Script) (pins : List Pin) : List Pin := s.forcedReferences.filter (· ∉ pins)

theorem unpinned_append_lt {l : Layout} (missing : s.missingPins pins l ≠ []) :
    (s.unpinned (pins ++ s.missingPins pins l)).length < (s.unpinned pins).length := by
  obtain ⟨pin, isMissing⟩ := List.exists_mem_of_ne_nil _ missing
  obtain ⟨forced, free, -⟩ := mem_missingPins.1 isMissing
  have nested : s.unpinned (pins ++ s.missingPins pins l) =
      (s.unpinned pins).filter (· ∉ s.missingPins pins l) := by
    simp only [unpinned, List.filter_filter, List.mem_append, not_or, Bool.decide_and, Bool.and_comm]
  rw [nested]
  refine List.length_filter_lt_length_iff_exists.2 ⟨pin, ?_, by simpa using isMissing⟩
  exact List.mem_filter.2 ⟨forced, by simpa using free⟩

theorem pinFrom_eq_ok (enough : (s.unpinned pins).length < rounds)
    (pinned : s.pinFrom limit rounds pins = .ok pins') :
    ∃ l, (s.loosen pins').layout limit = .ok l ∧ s.missingPins pins' l = [] := by
  induction rounds generalizing pins with
  | zero => simp at enough
  | succ rounds ih =>
    obtain ⟨l, laid, rest⟩ := bind_eq_ok.1 pinned
    by_cases settled : s.missingPins pins l = []
    · rw [if_pos (by simp [settled])] at rest
      cases rest
      exact ⟨l, laid, settled⟩
    · rw [if_neg (by simpa using settled)] at rest
      have fewer := unpinned_append_lt settled
      exact ih (by omega) rest

theorem minimizePins_eq_ok {s' : Script} (minimized : s.minimizePins limit = .ok s') :
    ∃ pins l, s' = s.loosen pins ∧ s'.layout limit = .ok l ∧ s.missingPins pins l = [] := by
  obtain ⟨pins, pinned, done⟩ := bind_eq_ok.1 minimized
  cases done
  have enough : (s.unpinned []).length < s.pinRounds := Nat.lt_succ_of_le (List.length_filter_le ..)
  obtain ⟨l, laid, settled⟩ := pinFrom_eq_ok enough pinned
  exact ⟨pins, l, rfl, laid, settled⟩

end Script

end EventScript
