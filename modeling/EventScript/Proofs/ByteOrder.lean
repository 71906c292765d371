import EventScript.Width
import Mathlib.Tactic.Ring

namespace EventScript

namespace Bytes

@[simp] theorem length_pack (value : Int) (size : Nat) : (pack value size).length = size := by
  induction size generalizing value with
  | zero => rfl
  | succ size ih => simp [pack, ih]

theorem unsigned_lt (bs : Bytes) : unsigned bs < 256 ^ bs.length := by
  induction bs with
  | nil => decide
  | cons b bs ih =>
    have bound := b.toNat_lt
    simp only [unsigned, List.length_cons, Nat.pow_succ]
    omega

theorem unsigned_pack (value : Int) (size : Nat) :
    (unsigned (pack value size) : Int) = value % 256 ^ size := by
  induction size generalizing value with
  | zero => simp [pack, unsigned]
  | succ size ih =>
    have low : 0 ≤ value % 256 ∧ value % 256 < 256 := by omega
    have byte : ((UInt8.ofNat (value % 256).toNat).toNat : Int) = value % 256 := by
      rw [UInt8.toNat_ofNat']
      omega
    have split : value % 256 ^ (size + 1) = value % 256 + 256 * (value / 256 % 256 ^ size) := by
      rw [Int.emod_def, Int.emod_def value 256, Int.emod_def (value / 256),
        Int.ediv_ediv_of_nonneg (by decide), pow_succ']
      ring
    simp only [pack, unsigned, Int.natCast_add, Int.natCast_mul, byte, ih, split]
    rfl

theorem pack_unsigned (bs : Bytes) : pack (unsigned bs) bs.length = bs := by
  induction bs with
  | nil => rfl
  | cons b bs ih =>
    have bound := b.toNat_lt
    have low : ((unsigned (b :: bs) : Nat) : Int) % 256 = b.toNat := by
      simp only [unsigned]
      omega
    have high : ((unsigned (b :: bs) : Nat) : Int) / 256 = (unsigned bs : Nat) := by
      simp only [unsigned]
      omega
    simp only [List.length_cons, pack, low, high, ih, Int.toNat_natCast, UInt8.ofNat_toNat]

theorem pack_emod (value : Int) (size : Nat) : pack (value % 256 ^ size) size = pack value size := by
  rw [← unsigned_pack]
  simpa using pack_unsigned (pack value size)

theorem pack_signed (bs : Bytes) : pack (signed bs) bs.length = bs := by
  unfold signed
  dsimp only
  split
  · exact pack_unsigned bs
  · rw [← pack_emod, Int.sub_emod_right, pack_emod, pack_unsigned]

def InRange (value : Int) (size : Nat) : Prop := -(256 ^ size : Int) ≤ 2 * value ∧ 2 * value < 256 ^ size

instance (value : Int) (size : Nat) : Decidable (InRange value size) :=
  inferInstanceAs (Decidable (_ ∧ _))

theorem signed_inRange (bs : Bytes) : InRange (signed bs) bs.length := by
  have bound : ((unsigned bs : Nat) : Int) < 256 ^ bs.length := by exact_mod_cast unsigned_lt bs
  unfold signed InRange
  dsimp only
  split
  · rename_i small
    have small' : 2 * ((unsigned bs : Nat) : Int) < 256 ^ bs.length := by exact_mod_cast small
    omega
  · rename_i large
    have large' : ¬ 2 * ((unsigned bs : Nat) : Int) < 256 ^ bs.length := by exact_mod_cast large
    omega

theorem signed_pack {value : Int} {size : Nat} (inRange : InRange value size) :
    signed (pack value size) = value := by
  obtain ⟨low, high⟩ := inRange
  have stored := unsigned_pack value size
  unfold signed
  simp only [length_pack]
  by_cases negative : value < 0
  · have wrapped : value % 256 ^ size = value + 256 ^ size := by
      rw [← Int.add_emod_right, Int.emod_eq_of_lt (by omega) (by omega)]
    rw [wrapped] at stored
    have large : ¬ 2 * unsigned (pack value size) < 256 ^ size := by
      intro small
      have small' : 2 * ((unsigned (pack value size) : Nat) : Int) < 256 ^ size := by
        exact_mod_cast small
      omega
    rw [if_neg large, stored]
    omega
  · have same : value % 256 ^ size = value := Int.emod_eq_of_lt (by omega) (by omega)
    rw [same] at stored
    have small : 2 * unsigned (pack value size) < 256 ^ size := by
      have small' : 2 * ((unsigned (pack value size) : Nat) : Int) < 256 ^ size := by omega
      exact_mod_cast small'
    rw [if_pos small, stored]

theorem unsigned_pack_of_lt {value size : Nat} (fits : value < 256 ^ size) :
    unsigned (pack value size) = value := by
  have fits' : (value : Int) < 256 ^ size := by exact_mod_cast fits
  have stored := unsigned_pack value size
  rw [Int.emod_eq_of_lt (by omega) fits'] at stored
  exact_mod_cast stored

/-- The integer read back from a signed field that `value` was stored in. -/
def storedValue (value : Int) (size : Nat) : Int := signed (pack value size)

theorem pack_storedValue (value : Int) (size : Nat) :
    pack (storedValue value size) size = pack value size := by
  unfold storedValue
  simpa using pack_signed (pack value size)

theorem storedValue_inRange (value : Int) (size : Nat) : InRange (storedValue value size) size := by
  unfold storedValue
  simpa using signed_inRange (pack value size)

end Bytes

namespace Width

open Bytes

theorem two_pow_bits (w : Width) : 2 ^ w.bits = 256 ^ w.bytes := by cases w <;> rfl

theorem fits_of_inRange {value : Int} {w : Width} (inRange : InRange value w.bytes) :
    fits value w.bytes = true := by
  revert inRange
  simp only [InRange, fits, Bool.and_eq_true, decide_eq_true_eq]
  cases w <;> simp only [bytes, Nat.reduceMul, Nat.reduceSub, Int.reducePow] <;> omega

theorem inRange_mono {value : Int} {w : Width} (inRange : InRange value w.bytes) :
    InRange value long.bytes := by
  revert inRange
  cases w <;> simp only [InRange, bytes, Int.reducePow] <;> omega

theorem inRange_ofLiteral {value : Int} (inRange : InRange value long.bytes) :
    InRange value (ofLiteral value).bytes := by
  simp only [InRange, bytes, Int.reducePow] at inRange
  unfold ofLiteral
  split_ifs <;> simp only [InRange, bytes, Int.reducePow] <;> omega

theorem ofTag?_tag (w : Width) : ofTag? w.tag = some w := by cases w <;> rfl

theorem tag_of_ofTag? {tag : UInt8} {w : Width} (h : ofTag? tag = some w) : tag = w.tag := by
  unfold ofTag? at h
  split at h <;> cases h <;> rfl

@[simp] theorem length_constant (w : Width) (value : Int) :
    (w.constant value).length = 1 + w.bytes := by
  simp [constant, Nat.add_comm]

end Width

end EventScript
