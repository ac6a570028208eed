import Mathlib.Data.Nat.Bitwise

/-! The bytes of a 32-bit word, addressed by the shift that brings them to the right end. -/

namespace WordBytes

open Nat

def getByte (w shift : UInt32) : UInt32 := (w >>> shift) &&& 0xFF

def setByte (w shift b : UInt32) : UInt32 := (w &&& ~~~((0xFF : UInt32) <<< shift)) ||| (b <<< shift)

def bit (w : UInt32) (i : ℕ) : Bool := w.toNat.testBit i

variable {v w s t b : UInt32} {i : ℕ}

theorem ext_bits (h : ∀ i, bit v i = bit w i) : v = w := UInt32.toNat_inj.1 (eq_of_testBit_eq h)

theorem bit_of_lt {n : ℕ} (hb : b.toNat < 2 ^ n) (hi : n ≤ i) : bit b i = false :=
  Nat.testBit_lt_two_pow (hb.trans_le (Nat.pow_le_pow_right (by decide) hi))

theorem bit_mask (i : ℕ) : bit 0xFF i = decide (i < 8) := testBit_two_pow_sub_one 8 i

theorem bit_not (hi : i < 32) : bit (~~~w) i = !bit w i := by
  rw [bit, bit, UInt32.toNat_not, Nat.sub_sub, Nat.add_comm 1, testBit_two_pow_sub_succ w.toNat_lt]
  simp [hi]

variable (hs : s.toNat < 32)
include hs

theorem bit_shiftLeft (hi : i < 32) :
    bit (b <<< s) i = (decide (s.toNat ≤ i) && bit b (i - s.toNat)) := by
  rw [bit, UInt32.toNat_shiftLeft, testBit_mod_two_pow, mod_eq_of_lt hs, bit]
  simp [hi]

theorem bit_getByte : bit (getByte w s) i = (bit w (s.toNat + i) && decide (i < 8)) := by
  rw [← bit_mask, getByte, bit, UInt32.toNat_and, testBit_and, UInt32.toNat_shiftRight,
    testBit_shiftRight, mod_eq_of_lt hs]
  rfl

theorem bit_setByte (hb : b.toNat < 256) (hi : i < 32) :
    bit (setByte w s b) i = if s.toNat ≤ i ∧ i < s.toNat + 8 then bit b (i - s.toNat) else bit w i := by
  have hor :
      bit (setByte w s b) i = (bit w i && bit (~~~((0xFF : UInt32) <<< s)) i || bit (b <<< s) i) := by
    rw [setByte, bit, UInt32.toNat_or, testBit_or, UInt32.toNat_and, testBit_and]
    rfl
  rw [hor, bit_not hi, bit_shiftLeft hs hi, bit_shiftLeft hs hi, bit_mask]
  by_cases h1 : s.toNat ≤ i
  · by_cases h2 : i < s.toNat + 8
    · simp [h1, h2, show i - s.toNat < 8 by omega]
    · simp [h1, h2, show ¬ i - s.toNat < 8 by omega, bit_of_lt hb (show 8 ≤ i - s.toNat by omega)]
  · simp [h1]

omit hs

theorem getByte_setByte_self (hs : s.toNat + 8 ≤ 32) (hb : b.toNat < 256) :
    getByte (setByte w s b) s = b := by
  apply ext_bits
  intro i
  rw [bit_getByte (by omega)]
  by_cases hi : i < 8
  · rw [bit_setByte (by omega) hb (by omega), if_pos (by omega)]
    simp [hi]
  · rw [bit_of_lt (n := 8) hb (by omega)]
    simp [hi]

theorem getByte_setByte_ne (hs : s.toNat + 8 ≤ 32) (ht : t.toNat + 8 ≤ 32) (hb : b.toNat < 256)
    (hne : s.toNat + 8 ≤ t.toNat ∨ t.toNat + 8 ≤ s.toNat) : getByte (setByte w s b) t = getByte w t := by
  apply ext_bits
  intro i
  rw [bit_getByte (by omega), bit_getByte (by omega)]
  by_cases hi : i < 8
  · rw [bit_setByte (by omega) hb (by omega), if_neg (by omega)]
  · simp [hi]

end WordBytes
