import Mathlib.Data.Nat.Bitwise
import Mathlib.Tactic.Ring

/-!
# Fields of a machine word

A word is built from fields by shifting each to its offset and taking the bitwise or.

- Below its offset a field is invisible (`shiftLeft_or_mod`).
- Fields that fit below the next offset do not overlap: the word is a sum (`shiftLeft_or_eq`, `three_fields`), and
  every field can be read back (`three_fields_low`, `three_fields_mid`, `three_fields_high`).
-/

namespace BitField

/-- The bits below the offset of the upper field are those of the lower one. -/
theorem shiftLeft_or_mod {s t : Nat} (h : s ≤ t) (hi x : Nat) : (hi <<< t ||| x) % 2 ^ s = x % 2 ^ s := by
  have hz : (hi <<< t) % 2 ^ s = 0 := by
    rw [Nat.shiftLeft_eq]
    exact Nat.mod_eq_zero_of_dvd ((Nat.pow_dvd_pow 2 h).mul_left hi)
  rw [Nat.or_mod_two_pow, hz, Nat.zero_or]

/-- A field that fits below the offset of the next one is added to it. -/
theorem shiftLeft_or_eq {s x : Nat} (hx : x < 2 ^ s) (hi : Nat) : hi <<< s ||| x = hi * 2 ^ s + x := by
  rw [← Nat.shiftLeft_add_eq_or_of_lt hx, Nat.shiftLeft_eq]

/-- The lowest of three fields is read back from the low bits, even where it overlaps the others. -/
theorem three_fields_low {s t : Nat} (hs : s ≤ t) (hi mid lo : Nat) :
    (hi <<< t ||| mid <<< s ||| lo) % 2 ^ s = lo % 2 ^ s := by
  rw [Nat.or_assoc, shiftLeft_or_mod hs, shiftLeft_or_mod (Nat.le_refl s)]

section ThreeFields

variable {s t lo mid : Nat} (hs : s ≤ t) (hlo : lo < 2 ^ s) (hmid : mid < 2 ^ (t - s)) (hi : Nat)
include hs hlo hmid

/-- The lower two of three disjoint fields end below the offset of the third. -/
theorem two_fields_lt : mid * 2 ^ s + lo < 2 ^ t := by
  have hp : 2 ^ t = 2 ^ (t - s) * 2 ^ s := by rw [← Nat.pow_add]; congr 1; omega
  calc mid * 2 ^ s + lo < mid * 2 ^ s + 2 ^ s := by omega
    _ = (mid + 1) * 2 ^ s := by ring
    _ ≤ 2 ^ (t - s) * 2 ^ s := Nat.mul_le_mul_right _ hmid
    _ = 2 ^ t := hp.symm

/-- Three disjoint fields add up. -/
theorem three_fields : hi <<< t ||| mid <<< s ||| lo = hi * 2 ^ t + (mid * 2 ^ s + lo) := by
  rw [Nat.or_assoc, shiftLeft_or_eq hlo, shiftLeft_or_eq (two_fields_lt hs hlo hmid)]

theorem three_fields_mid : (hi <<< t ||| mid <<< s ||| lo) / 2 ^ s % 2 ^ (t - s) = mid := by
  have hp : 2 ^ t = 2 ^ s * 2 ^ (t - s) := by rw [← Nat.pow_add]; congr 1; omega
  have hsum : hi * 2 ^ t + (mid * 2 ^ s + lo) = lo + 2 ^ s * (mid + 2 ^ (t - s) * hi) := by rw [hp]; ring
  rw [three_fields hs hlo hmid, hsum, Nat.add_mul_div_left _ _ (Nat.two_pow_pos s), Nat.div_eq_of_lt hlo,
    Nat.zero_add, Nat.add_mul_mod_self_left, Nat.mod_eq_of_lt hmid]

theorem three_fields_high : (hi <<< t ||| mid <<< s ||| lo) / 2 ^ t = hi := by
  have hlt := two_fields_lt hs hlo hmid
  rw [three_fields hs hlo hmid, Nat.add_comm, Nat.add_mul_div_right _ _ (Nat.two_pow_pos t),
    Nat.div_eq_of_lt hlt, Nat.zero_add]

end ThreeFields

end BitField
