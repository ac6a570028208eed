import PgRetrofit.Spec.Transam

/-! The comparisons of transaction ids are the order of the full ids behind them, as long as
these are less than `2 ^ 31` apart. -/

namespace Pg

open SerialOrder List UInt32 Nat

variable {a b : ℕ} {x y : TransactionId}

theorem normal_iff : transactionIdIsNormal (xidFromFull a) = true ↔ IsNormal a := by
  rw [transactionIdIsNormal, decide_eq_true_iff, xidFromFull]
  rfl

section Compare

variable (ha : IsNormal a) (hb : IsNormal b) (h : Near a b)
include ha hb h

theorem compare_eq (unsigned : UInt32 → UInt32 → Bool) (modulo : ℤ → Bool) :
    transactionIdCompare unsigned modulo (xidFromFull a) (xidFromFull b) = modulo ((a : ℤ) - b) := by
  rw [transactionIdCompare, normal_iff.2 ha, normal_iff.2 hb, xidFromFull, xidFromFull, signed_sub h]
  rfl

theorem precedes_eq : transactionIdPrecedes (xidFromFull a) (xidFromFull b) = decide (a < b) := by
  rw [transactionIdPrecedes, compare_eq ha hb h]
  exact decide_eq_decide.2 (by omega)

theorem precedesOrEquals_eq :
    transactionIdPrecedesOrEquals (xidFromFull a) (xidFromFull b) = decide (a ≤ b) := by
  rw [transactionIdPrecedesOrEquals, compare_eq ha hb h]
  exact decide_eq_decide.2 (by omega)

theorem followsOrEquals_eq :
    transactionIdFollowsOrEquals (xidFromFull a) (xidFromFull b) = decide (b ≤ a) := by
  rw [transactionIdFollowsOrEquals, compare_eq ha hb h]
  exact decide_eq_decide.2 (by omega)

end Compare

/-- For any two ids, one precedes or the other does not follow. -/
theorem followsOrEquals_not (x y : TransactionId) :
    transactionIdFollowsOrEquals x y = !transactionIdPrecedes x y := by
  rw [transactionIdFollowsOrEquals, transactionIdPrecedes, transactionIdCompare, transactionIdCompare]
  split
  · rw [← decide_not]
    exact decide_eq_decide.2 UInt32.not_lt.symm
  · rw [← decide_not]
    exact decide_eq_decide.2 (by omega)

theorem not_precedes_special (ha : IsNormal a) (hx : ¬ transactionIdIsNormal x = true) :
    transactionIdPrecedes (xidFromFull a) x = false := by
  have hnormal := normal_iff.2 ha
  rw [transactionIdPrecedes, transactionIdCompare, if_pos (by simp [hx])]
  simp only [transactionIdIsNormal, decide_eq_true_eq] at hnormal hx
  refine decide_eq_false fun hlt => hx ?_
  exact UInt32.le_trans hnormal (UInt32.le_of_lt hlt)

/-- The normal ids among these are those of full ids less than `2 ^ 31` apart. -/
def InOneWindow (xids : List TransactionId) : Prop :=
  ∃ base, ∀ x ∈ xids, transactionIdIsNormal x = true →
    ∃ full, xidFromFull full = x ∧ base ≤ full ∧ full < base + 2 ^ 31

variable (hx : ¬ (transactionIdIsNormal x = true ∧ transactionIdIsNormal y = true))
include hx

theorem compare_of_special (unsigned : UInt32 → UInt32 → Bool) (modulo : ℤ → Bool) :
    transactionIdCompare unsigned modulo x y = unsigned x y := by
  refine if_pos ?_
  rw [Bool.or_eq_true, Bool.not_eq_true']
  rcases Classical.not_and_iff_not_or_not.1 hx with h | h
  · exact .inl (by simpa using h)
  · exact .inr (by simpa using h)

theorem precedes_of_special :
    transactionIdPrecedes x y = decide (x < y) := compare_of_special hx _ _

theorem precedesOrEquals_of_special :
    transactionIdPrecedesOrEquals x y = decide (x ≤ y) := compare_of_special hx _ _

omit hx

theorem isNormal_mono (h : x ≤ y) (hx : transactionIdIsNormal x = true) :
    transactionIdIsNormal y = true := by
  rw [transactionIdIsNormal, decide_eq_true_iff] at hx ⊢
  exact UInt32.le_trans hx h

theorem precedes_trans {z : TransactionId} (hw : InOneWindow [x, y, z])
    (hxy : transactionIdPrecedes x y = true) (hyz : transactionIdPrecedesOrEquals y z = true) :
    transactionIdPrecedes x z = true := by
  by_cases hn : transactionIdIsNormal x = true ∧ transactionIdIsNormal y = true ∧
    transactionIdIsNormal z = true
  · obtain ⟨base, hall⟩ := hw
    obtain ⟨a, rfl, ha, ha'⟩ := hall x (by simp) hn.1
    obtain ⟨b, rfl, hb, hb'⟩ := hall y (by simp) hn.2.1
    obtain ⟨c, rfl, hc, hc'⟩ := hall z (by simp) hn.2.2
    have hna := normal_iff.1 hn.1
    have hnb := normal_iff.1 hn.2.1
    have hnc := normal_iff.1 hn.2.2
    rw [precedes_eq hna hnb ⟨by omega, by omega⟩, decide_eq_true_iff] at hxy
    rw [precedesOrEquals_eq hnb hnc ⟨by omega, by omega⟩, decide_eq_true_iff] at hyz
    rw [precedes_eq hna hnc ⟨by omega, by omega⟩, decide_eq_true_iff]
    omega
  -- a special id is compared by its number, and is lower than every normal one
  by_cases hnx : transactionIdIsNormal x = true
  · by_cases hny : transactionIdIsNormal y = true
    · have hnz : ¬ transactionIdIsNormal z = true := fun hnz => hn ⟨hnx, hny, hnz⟩
      rw [precedesOrEquals_of_special (fun h => hnz h.2), decide_eq_true_iff] at hyz
      exact absurd (isNormal_mono hyz hny) hnz
    · rw [precedes_of_special (fun h => hny h.2), decide_eq_true_iff] at hxy
      exact absurd (isNormal_mono (UInt32.le_of_lt hxy) hnx) hny
  · rw [precedes_of_special (fun h => hnx h.1), decide_eq_true_iff] at hxy ⊢
    by_cases hyzn : transactionIdIsNormal y = true ∧ transactionIdIsNormal z = true
    · have hz := hyzn.2
      rw [transactionIdIsNormal, decide_eq_true_iff] at hz hnx
      exact UInt32.lt_of_lt_of_le (UInt32.not_le.1 hnx) hz
    · rw [precedesOrEquals_of_special hyzn, decide_eq_true_iff] at hyz
      exact UInt32.lt_of_lt_of_le hxy hyz

theorem fullTransactionIdAdvance_spec (a : ℕ) :
    a < fullTransactionIdAdvance a ∧ IsNormal (fullTransactionIdAdvance a) ∧
      ∀ c, a < c → IsNormal c → fullTransactionIdAdvance a ≤ c := by
  unfold fullTransactionIdAdvance IsNormal
  split
  all_goals
    refine ⟨by omega, by omega, fun c hc hn => ?_⟩
    omega

theorem transactionIdAdvance_eq (a : ℕ) :
    transactionIdAdvance (xidFromFull a) = xidFromFull (fullTransactionIdAdvance a) := by
  have hsucc : (xidFromFull a + 1).toNat = (a + 1) % 2 ^ 32 := by
    change (a % 2 ^ 32 + 1) % 2 ^ 32 = _
    omega
  have hlt : xidFromFull a + 1 < firstNormalTransactionId ↔ (a + 1) % 2 ^ 32 < 3 := by
    rw [lt_iff_toNat_lt, hsucc]
    rfl
  rw [transactionIdAdvance, fullTransactionIdAdvance]
  apply UInt32.toNat_inj.1
  by_cases hwrap : (a + 1) % 2 ^ 32 < 3
  · rw [if_pos (hlt.2 hwrap), if_pos hwrap, xidFromFull, toNat_ofNat']
    change 3 = _
    omega
  · rw [if_neg (mt hlt.1 hwrap), if_neg hwrap, hsucc, xidFromFull, toNat_ofNat']

def normalXids (a b : ℕ) : List ℕ := (List.range' a (b + 1 - a)).filter fun c => IsNormal c

theorem mem_normalXids {c : ℕ} : c ∈ normalXids a b ↔ a ≤ c ∧ c ≤ b ∧ IsNormal c := by
  have hrange : a ≤ c ∧ c < a + (b + 1 - a) ↔ a ≤ c ∧ c ≤ b := by omega
  rw [normalXids, mem_filter, mem_range'_1, decide_eq_true_iff, hrange, and_assoc]

theorem normalXids_empty (h : b < a) : normalXids a b = [] := by
  rw [normalXids, Nat.sub_eq_zero_of_le h]
  rfl

theorem normalXids_skip {c : ℕ} (hac : a ≤ c) (h : ∀ d, a ≤ d → d < c → ¬ IsNormal d) :
    normalXids a b = normalXids c b := by
  induction c, hac using le_induction with
  | base => rfl
  | succ c hac ih => ?_
  rw [ih fun d hd hlt => h d hd (lt_succ_of_lt hlt)]
  rcases lt_or_ge b c with hlt | hge
  · rw [normalXids_empty hlt, normalXids_empty (lt_succ_of_lt hlt)]
  · have hlen : b + 1 - c = b + 1 - (c + 1) + 1 := by omega
    have hnot : ¬ decide (IsNormal c) = true := by simpa using h c hac (lt_succ_self c)
    rw [normalXids, normalXids, hlen, range'_succ, filter_cons, if_neg hnot]

theorem normalXids_cons (ha : IsNormal a) (hab : a ≤ b) :
    normalXids a b = a :: normalXids (fullTransactionIdAdvance a) b := by
  obtain ⟨hlt, -, hleast⟩ := fullTransactionIdAdvance_spec a
  have hskip :=
    normalXids_skip (a := a + 1) (b := b) hlt fun d hd hd' hn => absurd (hleast d hd hn) (not_le.2 hd')
  have hlen : b + 1 - a = b + 1 - (a + 1) + 1 := by omega
  rw [← hskip, normalXids, hlen, range'_succ, filter_cons, if_pos (by simpa using ha)]
  rfl

end Pg
