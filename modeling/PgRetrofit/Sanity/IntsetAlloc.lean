import PgRetrofit.Spec.Intset

/-! Building an intset: when the allocation fits, exactly the right number of
writes turns it into a canonical intset. -/

namespace Pg.Intset

open List Nat

theorem allocIntset_ok {n : ℕ} (h : 8 + 4 * n ≤ maxAllocSize) :
    allocIntset n.toUInt32 = .ok ⟨BitVec.ofNat 30 (8 + 4 * n), n.toUInt32, List.replicate n none⟩ := by
  have hn : n.toUInt32.toNat = n := by
    exact mod_eq_of_lt (by unfold maxAllocSize at h; omega)
  have hmod : (8 + 4 * n) % 2 ^ 32 = 8 + 4 * n := mod_eq_of_lt (by unfold maxAllocSize at h; omega)
  simp only [allocIntset, hn, hmod, palloc_ok h, Except.bind]
  rw [if_neg (by omega), show (8 + 4 * n - 8) / 4 = n by omega]

theorem allocIntset_error {n : ℕ} (h : ¬ 8 + 4 * n ≤ maxAllocSize) (hlt : 8 + 4 * n < 2 ^ 32) :
    allocIntset n.toUInt32 = .error (.allocSize (8 + 4 * n)) := by
  have hn : n.toUInt32.toNat = n := by
    exact mod_eq_of_lt (by omega)
  simp only [allocIntset, hn, mod_eq_of_lt hlt, palloc_error h, Except.bind]

theorem mapM_map_some (xs : List UInt32) : (xs.map some).mapM id = some xs := by
  induction xs with
  | nil => rfl
  | cons x xs ih => simp [mapM_cons, ih]

theorem finish_ok (v : BitVec 30) (c : UInt32) (xs : List UInt32) :
    Raw.finish ⟨v, c, xs.map some⟩ = .ok ⟨v, c, xs⟩ := by
  simp only [Raw.finish, mapM_map_some]

def ofList (xs : List UInt32) : Intset := ⟨BitVec.ofNat 30 (8 + 4 * xs.length), xs.length.toUInt32, xs⟩

variable {xs : List UInt32}

theorem ofList_canonical (hs : xs.Pairwise (· < ·)) (h : 8 + 4 * xs.length ≤ maxAllocSize) :
    Canonical (ofList xs) where
  sorted := hs
  cardi_eq := by
    exact mod_eq_of_lt (by unfold maxAllocSize at h; omega)
  varsize_eq := by
    exact mod_eq_of_lt (by unfold maxAllocSize at h; omega)

/-- The new array while it is filled from left to right. -/
def filled (v : BitVec 30) (c : UInt32) (xs : List UInt32) (f : ℕ) : Raw :=
  ⟨v, c, xs.map some ++ List.replicate f none⟩

variable {v : BitVec 30} {c : UInt32} {f : ℕ}

theorem write_filled (x : UInt32) :
    (filled v c xs (f + 1)).write xs.length x = .ok (filled v c (xs ++ [x]) f) := by
  simp [Raw.write, filled, replicate_succ]

theorem fillRest_filled (xs ys : List UInt32)
    (h : ys.length ≤ f) (hlt : xs.length + ys.length < 2 ^ 32) :
    fillRest ys xs.length.toUInt32 (filled v c xs f) =
      .ok (filled v c (xs ++ ys) (f - ys.length), (xs.length + ys.length).toUInt32) := by
  induction ys generalizing xs f with
  | nil => simp [fillRest]
  | cons y ys ih => ?_
  simp only [length_cons] at h hlt
  obtain ⟨f, rfl⟩ : ∃ g, f = g + 1 := ⟨f - 1, by omega⟩
  have hc : xs.length.toUInt32.toNat = xs.length := by
    exact mod_eq_of_lt (by omega)
  have hs : xs.length.toUInt32 + 1 = (xs ++ [y]).length.toUInt32 := by simp
  rw [fillRest, hc, write_filled, Except.bind, hs, ih (xs ++ [y]) (by omega) (by simp; omega)]
  simp only [append_assoc, singleton_append, length_append, length_cons, length_nil]
  rw [show f + 1 - (ys.length + 1) = f - ys.length by omega,
    show xs.length + (0 + 1) + ys.length = xs.length + (ys.length + 1) by omega]

theorem fillRest_alloc (h : xs.length < 2 ^ 32) :
    fillRest xs 0 ⟨v, c, List.replicate xs.length none⟩ =
      .ok (⟨v, c, xs.map some⟩, xs.length.toUInt32) := by
  have := fillRest_filled (v := v) (c := c) [] xs (f := xs.length) le_rfl (by simpa using h)
  simpa [filled] using this

theorem copy_alloc :
    Raw.copy ⟨v, c, List.replicate xs.length none⟩ xs = .ok ⟨v, c, xs.map some⟩ := by
  simp [Raw.copy]

variable {s : Intset}

variable (h : Canonical s)
include h

theorem Canonical.elems_eq : s.elems = .ok s.arr := by
  rw [elems, if_pos (by rw [h.cardi_eq]), h.cardi_eq, take_length]

/-- A stored varlena is below 1 GB, so a canonical intset can be allocated again. -/
theorem Canonical.fits : 8 + 4 * s.arr.length ≤ maxAllocSize := by
  have := s.varsize.isLt
  rw [h.varsize_eq] at this
  unfold maxAllocSize
  omega

theorem Canonical.eq_ofList : s = ofList s.arr := by
  obtain ⟨v, c, xs⟩ := s
  have h1 : c.toNat = xs.length := h.cardi_eq
  have h2 : v.toNat = 8 + 4 * xs.length := h.varsize_eq
  simp only [ofList, Intset.mk.injEq, and_true]
  constructor
  · rw [← h2, BitVec.ofNat_toNat, BitVec.setWidth_eq]
  · rw [← h1]; simp

theorem cloneIntset_ok : cloneIntset s = .ok s := by
  have hc : s.cardi = s.arr.length.toUInt32 := congrArg Intset.cardi h.eq_ofList
  rw [cloneIntset, hc, allocIntset_ok h.fits, h.elems_eq]
  simp only [Except.bind, copy_alloc, finish_ok]
  exact congrArg _ h.eq_ofList.symm

omit h

theorem emptyIntset_ok : emptyIntset = .ok (ofList []) := rfl

end Pg.Intset
