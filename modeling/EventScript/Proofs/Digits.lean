import EventScript.Text.Hex
import EventScript.Text.Numeral

namespace EventScript.Text

theorem hexValue?_digitChar {d : Nat} (small : d < 16) : hexValue? (Nat.digitChar d) = some d := by
  have table : ∀ d < 16, hexValue? (Nat.digitChar d) = some d := by decide
  exact table d small

namespace Numeral

theorem value_append_singleton (base : Nat) (digits : List Char) (c : Char) :
    value base (digits ++ [c]) = base * value base digits + (hexValue? c).getD 0 := by
  simp [value]

theorem value_toDigits {base : Nat} (low : 1 < base) (high : base ≤ 16) (n : Nat) :
    value base (Nat.toDigits base n) = n := by
  induction n using Nat.strongRecOn with
  | ind n ih =>
    by_cases small : n < base
    · rw [Nat.toDigits_of_lt_base small]
      simp [value, hexValue?_digitChar (Nat.lt_of_lt_of_le small high)]
    · have digit : n % base < 16 := Nat.lt_of_lt_of_le (Nat.mod_lt _ (by omega)) high
      rw [Nat.toDigits_of_base_le low (Nat.le_of_not_lt small), value_append_singleton,
        ih _ (Nat.div_lt_self (by omega) low), hexValue?_digitChar digit]
      exact Nat.div_add_mod n base

end Numeral

theorem head?_toDigits_ne {n : Nat} (positive : 0 < n) : (Nat.toDigits 10 n).head? ≠ some '0' := by
  induction n using Nat.strongRecOn with
  | ind n ih =>
    by_cases small : n < 10
    · have table : ∀ n < 10, 0 < n → (Nat.toDigits 10 n).head? ≠ some '0' := by decide
      exact table n small positive
    · have fewer := ih (n / 10) (by omega) (by omega)
      obtain ⟨d, ds, split⟩ := List.exists_cons_of_ne_nil (Nat.toDigits_ne_nil (b := 10) (n := n / 10))
      rw [Nat.toDigits_of_base_le (by decide) (Nat.le_of_not_lt small), split]
      rwa [split] at fewer

theorem toDigits_cases (n : Nat) : n = 0 ∧ Nat.toDigits 10 n = ['0'] ∨
    0 < n ∧ ∃ d ds, Nat.toDigits 10 n = d :: ds ∧ d ≠ '0' ∧ ∀ c ∈ d :: ds, c.isDigit = true := by
  rcases Nat.eq_zero_or_pos n with rfl | positive
  · exact .inl ⟨rfl, rfl⟩
  · cases split : Nat.toDigits 10 n with
    | nil => exact absurd split Nat.toDigits_ne_nil
    | cons d ds =>
      have first := head?_toDigits_ne positive
      rw [split] at first
      refine .inr ⟨positive, d, ds, rfl, fun same => first (by rw [same]; rfl), fun c member => ?_⟩
      exact Nat.isDigit_of_mem_toDigits (by decide) (by decide) (split ▸ member)

theorem hex_injective {a b : Nat} (same : hex a = hex b) : a = b := by
  have digits : Nat.toDigits 16 a = Nat.toDigits 16 b := by
    simpa [hex] using congrArg String.toList same
  rw [← Numeral.value_toDigits (by decide) (Nat.le_refl _) a, digits,
    Numeral.value_toDigits (by decide) (Nat.le_refl _) b]

end EventScript.Text
