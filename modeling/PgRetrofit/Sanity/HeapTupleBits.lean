import PgRetrofit.Spec.HeapVisibility

/-! The tests of a heap tuple's infomask, bit by bit, and what setting hint bits changes. -/

namespace Pg

open Flags

variable (tup : HeapTupleHeader) {b : Backend} {i : ℕ}

namespace HeapTupleHeader

def bit (i : ℕ) : Bool := flag tup.tInfomask i

theorem has_mask (hi : i < 16) : tup.has (mask i) = tup.bit i := by
  rw [has, Bool.eq_iff_iff, decide_eq_true_iff]
  exact and_mask_ne_zero hi

@[simp] theorem has_combocid : tup.has heapCombocid = tup.bit 5 := has_mask tup (by decide)
@[simp] theorem has_xminCommitted : tup.xminCommitted = tup.bit 8 := has_mask tup (by decide)
@[simp] theorem has_xmaxCommitted : tup.has heapXmaxCommitted = tup.bit 10 := has_mask tup (by decide)
@[simp] theorem has_xmaxInvalid : tup.has heapXmaxInvalid = tup.bit 11 := has_mask tup (by decide)
@[simp] theorem has_isMulti : tup.has heapXmaxIsMulti = tup.bit 12 := has_mask tup (by decide)
@[simp] theorem has_movedOff : tup.has heapMovedOff = tup.bit 14 := has_mask tup (by decide)
@[simp] theorem has_movedIn : tup.has heapMovedIn = tup.bit 15 := has_mask tup (by decide)

theorem and_mask_bit (hi : i < 16) : (tup.tInfomask &&& mask i).toNat = (tup.bit i).toNat * 2 ^ i :=
  and_mask_toNat hi

@[simp] theorem xminInvalid_eq : tup.xminInvalid = (!tup.bit 8 && tup.bit 9) := by
  rw [xminInvalid, Bool.eq_iff_iff, beq_iff_eq, ← UInt16.toNat_inj, and_or_toNat,
    heapXminCommitted, heapXminInvalid, tup.and_mask_bit (by decide), tup.and_mask_bit (by decide)]
  cases tup.bit 8 <;> cases tup.bit 9 <;> decide

@[simp] theorem xminFrozen_eq : tup.xminFrozen = (tup.bit 8 && tup.bit 9) := by
  rw [xminFrozen, Bool.eq_iff_iff, beq_iff_eq, ← UInt16.toNat_inj, heapXminFrozen,
    and_or_toNat, heapXminCommitted,
    heapXminInvalid, tup.and_mask_bit (by decide), tup.and_mask_bit (by decide)]
  cases tup.bit 8 <;> cases tup.bit 9 <;> decide

/-- Locked only: the bit says so, or the tuple has the lock of an old release. -/
@[simp] theorem lockedOnly_eq :
    tup.lockedOnly = (tup.bit 7 || (!tup.bit 12 && tup.bit 6 && !tup.bit 4)) := by
  have hold : (tup.tInfomask &&& (heapXmaxIsMulti ||| heapLockMask) == heapXmaxExclLock) =
      (!tup.bit 12 && tup.bit 6 && !tup.bit 4) := by
    rw [Bool.eq_iff_iff, beq_iff_eq, ← UInt16.toNat_inj, heapLockMask, heapXmaxShrLock,
      heapXmaxIsMulti, heapXmaxExclLock, heapXmaxKeyshrLock]
    simp (disch := decide) only [and_or_toNat, and_mask_bit]
    cases tup.bit 12 <;> cases tup.bit 6 <;> cases tup.bit 4 <;> decide
  rw [lockedOnly, heapXmaxIsLockedOnly]
  congr 1
  exact has_mask tup (by decide)

variable {tup} in
theorem not_moved (h : tup.has heapMoved = false) : tup.bit 14 = false ∧ tup.bit 15 = false := by
  rw [has, decide_eq_false_iff_not, not_not, ← UInt16.toNat_inj, heapMoved, and_or_toNat,
    heapMovedOff, heapMovedIn, tup.and_mask_bit (by decide), tup.and_mask_bit (by decide)] at h
  revert h
  cases tup.bit 14 <;> cases tup.bit 15 <;> decide

end HeapTupleHeader

namespace Backend

/-- `tup'` is `tup` with one more hint bit. -/
structure Hinted (i : ℕ) (tup tup' : HeapTupleHeader) : Prop where
  xmin : tup'.tXmin = tup.tXmin
  xmax : tup'.tXmax = tup.tXmax
  field3 : tup'.tField3 = tup.tField3
  bits : ∀ j, tup'.bit j = (tup.bit j || decide (i = j))

theorem setHintBits_cases (b : Backend) (hi : i < 16) (xid : TransactionId) :
    b.setHintBits tup (mask i) xid = tup ∨ Hinted i tup (b.setHintBits tup (mask i) xid) := by
  rw [setHintBits]
  split
  · exact .inl rfl
  · exact .inr ⟨rfl, rfl, rfl, fun j => flag_or_mask hi⟩

/-- No commit has to be checked to set other bits. -/
theorem setHintBits_invalid (b : Backend) (hi : i < 16) :
    Hinted i tup (b.setHintBits tup (mask i) invalidTransactionId) :=
  ⟨rfl, rfl, rfl, fun _ => flag_or_mask hi⟩

end Backend

end Pg
