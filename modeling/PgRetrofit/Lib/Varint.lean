import Mathlib.Tactic

/-! Numbers as bytes of seven bits, the lowest first; all but the last have their high bit set. -/

namespace Varint

open UInt8

def encode (n : ℕ) : List UInt8 :=
  if n < 128 then [UInt8.ofNat n] else UInt8.ofNat (n % 128 + 128) :: encode (n / 128)
termination_by n
decreasing_by omega

variable {n : ℕ}

theorem encode_of_lt (h : n < 128) : encode n = [ofNat n] := by
  rw [encode, if_pos h]

theorem encode_of_ge (h : ¬ n < 128) : encode n = ofNat (n % 128 + 128) :: encode (n / 128) := by
  rw [encode, if_neg h]

theorem encode_ne_nil (n : ℕ) : encode n ≠ [] := by
  rw [encode]
  split <;> exact List.cons_ne_nil _ _

theorem length_pos (n : ℕ) : 0 < (encode n).length := List.length_pos_iff.2 (encode_ne_nil n)

/-- `k + 1` bytes hold `7 * (k + 1)` bits. -/
theorem length_le (k n : ℕ) (h : n < 128 ^ (k + 1)) : (encode n).length ≤ k + 1 := by
  induction k generalizing n with
  | zero =>
    rw [encode_of_lt (by simpa using h)]
    exact le_rfl
  | succ k ih => ?_
  by_cases hlt : n < 128
  · rw [encode_of_lt hlt]
    exact Nat.succ_le_succ (Nat.zero_le _)
  rw [encode_of_ge hlt]
  apply Nat.succ_le_succ
  apply ih
  rw [Nat.div_lt_iff_lt_mul (by decide)]
  exact h

/-- the seven bits of a byte -/
def payload (c : UInt8) : ℕ := c.toNat % 128

/-- whether more bytes follow -/
def continues (c : UInt8) : Prop := 128 ≤ c.toNat

theorem payload_last (h : n < 128) : payload (ofNat n) = n := by
  rw [payload, toNat_ofNat']
  omega

theorem not_continues_last (h : n < 128) : ¬ continues (ofNat n) := by
  rw [continues, toNat_ofNat']
  omega

theorem payload_more (n : ℕ) : payload (ofNat (n % 128 + 128)) = n % 128 := by
  rw [payload, toNat_ofNat']
  omega

theorem continues_more (n : ℕ) : continues (ofNat (n % 128 + 128)) := by
  rw [continues, toNat_ofNat']
  omega

theorem length_encode_mono {m n : ℕ} (h : m ≤ n) : (encode m).length ≤ (encode n).length := by
  induction n using Nat.strong_induction_on generalizing m with
  | _ n ih =>
    by_cases hm : m < 128
    · rw [encode_of_lt hm]
      exact length_pos n
    · rw [encode_of_ge hm, encode_of_ge (by omega : ¬ n < 128)]
      exact Nat.succ_le_succ (ih (n / 128) (by omega) (Nat.div_le_div_right h))

theorem length_encode_double (n : ℕ) : (encode (2 * n + 1)).length ≤ (encode n).length + 1 := by
  induction n using Nat.strong_induction_on with
  | _ n ih =>
    by_cases hn : n < 128
    · rw [encode_of_lt hn]
      exact length_le 1 _ (by omega)
    · rw [encode_of_ge hn, encode_of_ge (by omega : ¬ 2 * n + 1 < 128)]
      exact Nat.succ_le_succ ((length_encode_mono (by omega)).trans (ih (n / 128) (by omega)))

/-- A sum is at most a byte longer than the larger summand, and the other one has a byte. -/
theorem length_encode_add (m n : ℕ) :
    (encode (m + n)).length ≤ (encode m).length + (encode n).length := by
  wlog h : m ≤ n
  · have := this n m (Nat.le_of_not_le h)
    rwa [Nat.add_comm m, Nat.add_comm (encode m).length]
  have hsum := (length_encode_mono (by omega : m + n ≤ 2 * n + 1)).trans (length_encode_double n)
  have := length_pos m
  omega

end Varint
