import Mathlib.Tactic

/-! Numbers that are known modulo `2 ^ 32` only. The order of two of them that are less than
`2 ^ 31` apart shows in the sign of their difference. -/

namespace SerialOrder

open UInt32

/-- The number is one of the few that are less than half the circle away. -/
def Near (a b : ℕ) : Prop := a < b + 2 ^ 31 ∧ b < a + 2 ^ 31

/-- the signed number with these bits -/
def signed (x : UInt32) : ℤ := x.toBitVec.toInt

theorem signed_eq (x : UInt32) : signed x = if x.toNat < 2 ^ 31 then (x.toNat : ℤ)
    else x.toNat - 2 ^ 32 := by
  rw [signed, BitVec.toInt_eq_toNat_cond]
  have hx : x.toBitVec.toNat = x.toNat := rfl
  split <;> split <;> first | rfl | omega

theorem signed_sub {a b : ℕ} (h : Near a b) : signed (ofNat a - ofNat b) = (a : ℤ) - b := by
  obtain ⟨h1, h2⟩ := h
  have hsub : (ofNat a - ofNat b).toNat = (2 ^ 32 - b % 2 ^ 32 + a % 2 ^ 32) % 2 ^ 32 := by
    rw [UInt32.toNat_sub, UInt32.toNat_ofNat', UInt32.toNat_ofNat']
  rw [signed_eq]
  split <;> omega

theorem ofNat_inj {a b : ℕ} (h : Near a b) (heq : ofNat a = ofNat b) : a = b := by
  have hmod := congrArg toNat heq
  rw [toNat_ofNat', toNat_ofNat'] at hmod
  obtain ⟨h1, h2⟩ := h
  omega

end SerialOrder
