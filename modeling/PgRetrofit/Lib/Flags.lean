import Mathlib.Tactic
import Mathlib.Data.Nat.Bitwise

/-! The bits of a 16-bit word as flags. -/

namespace Flags

/-- the word with this bit only -/
def mask (i : ℕ) : UInt16 := UInt16.ofNat (2 ^ i)

def flag (m : UInt16) (i : ℕ) : Bool := m.toNat.testBit i

variable {m : UInt16} {i j : ℕ} (hi : i < 16)
include hi

theorem mask_toNat : (mask i).toNat = 2 ^ i :=
  Nat.mod_eq_of_lt (Nat.pow_lt_pow_right (by decide) hi)

theorem and_mask_toNat : (m &&& mask i).toNat = (flag m i).toNat * 2 ^ i := by
  rw [UInt16.toNat_and, mask_toNat hi, Nat.and_two_pow, flag]

theorem and_mask_ne_zero : m &&& mask i ≠ 0 ↔ flag m i = true := by
  rw [ne_eq, ← UInt16.toNat_inj, and_mask_toNat hi]
  cases flag m i <;> simp

theorem flag_or_mask : flag (m ||| mask i) j = (flag m j || decide (i = j)) := by
  rw [flag, UInt16.toNat_or, mask_toNat hi, Nat.testBit_or, Nat.testBit_two_pow, flag]

omit hi

theorem and_or_toNat (m k k' : UInt16) :
    (m &&& (k ||| k')).toNat = (m &&& k).toNat ||| (m &&& k').toNat := by
  rw [UInt16.toNat_and, UInt16.toNat_or, Nat.and_or_distrib_left, UInt16.toNat_and, UInt16.toNat_and]

end Flags
