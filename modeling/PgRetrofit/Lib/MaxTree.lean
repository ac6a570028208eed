import Mathlib.Tactic

/-! Complete binary trees in an array, with the root at index 0 and only the nodes below
some bound there, in which a node holds the maximum of its children. -/

namespace MaxTree

open Function

variable {α : Type*} {i l : ℕ}

def parent (i : ℕ) : ℕ := (i - 1) / 2

def IsChild (i p : ℕ) : Prop := i = 2 * p + 1 ∨ i = 2 * p + 2

theorem isChild_parent (hi : 0 < i) : IsChild i (parent i) := by
  unfold IsChild parent
  omega

theorem IsChild.parent_eq {p : ℕ} (h : IsChild i p) : parent i = p := by
  unfold IsChild at h
  unfold parent
  omega

theorem parent_lt (hi : 0 < i) : parent i < i := by
  unfold parent
  omega

/-- The nodes of a level, from left to right. -/
def InLevel (l i : ℕ) : Prop := 2 ^ l ≤ i + 1 ∧ i + 1 < 2 ^ (l + 1)

theorem InLevel.parent (h : InLevel (l + 1) i) : InLevel l (parent i) := by
  unfold InLevel MaxTree.parent at *
  omega

theorem inLevel_zero : InLevel 0 i ↔ i = 0 := by
  unfold InLevel
  omega

theorem InLevel.pos (h : InLevel (l + 1) i) : 0 < i := by
  have : 2 ≤ 2 ^ (l + 1) := by
    have := Nat.two_pow_pos l
    omega
  have := h.1
  omega

variable [LinearOrder α] [OrderBot α]

/-- the value of a node that may be missing -/
def valueAt (n : ℕ) (f : ℕ → α) (i : ℕ) : α := if i < n then f i else ⊥

/-- the maximum of the children that are there -/
def childMax (n : ℕ) (f : ℕ → α) (p : ℕ) : α := max (valueAt n f (2 * p + 1)) (valueAt n f (2 * p + 2))

/-- Node `p` is right. -/
def MaxAt (n : ℕ) (f : ℕ → α) (p : ℕ) : Prop := f p = childMax n f p

def Valid (m n : ℕ) (f : ℕ → α) : Prop := ∀ p < m, MaxAt n f p

section

variable {m n i p : ℕ} {f : ℕ → α} {v : α}

/-- A change of one node matters to itself and to its parent only. -/
theorem childMax_update (h : ¬ IsChild i p) : childMax n (update f i v) p = childMax n f p := by
  unfold IsChild at h
  unfold childMax valueAt
  rw [update_of_ne (by omega), update_of_ne (by omega)]

theorem MaxAt.update (h : MaxAt n f p) (hne : p ≠ i) (hchild : ¬ IsChild i p) :
    MaxAt n (update f i v) p := by
  rw [MaxAt, update_of_ne hne, childMax_update hchild]
  exact h

theorem maxAt_update_childMax : MaxAt n (update f p (childMax n f p)) p := by
  rw [MaxAt, update_self, childMax_update]
  unfold IsChild
  omega

theorem MaxAt.le_of_isChild (h : MaxAt n f p) (hchild : IsChild i p) (hi : i < n) : f i ≤ f p := by
  have hval : f i = valueAt n f i := (if_pos hi).symm
  rw [h, hval]
  rcases hchild with rfl | rfl
  · exact le_max_left _ _
  · exact le_max_right _ _

/-- A node with a value of at least `v` has a child with one. -/
theorem MaxAt.exists_child (h : MaxAt n f p) (hv : ⊥ < v) (hle : v ≤ f p) :
    ∃ i, IsChild i p ∧ i < n ∧ v ≤ f i := by
  have hchild : ∀ i, v ≤ valueAt n f i → i < n ∧ v ≤ f i := by
    intro i hi
    unfold valueAt at hi
    split at hi
    · exact ⟨‹_›, hi⟩
    · exact absurd (hv.trans_le hi) (lt_irrefl _)
  rw [h, childMax, le_max_iff] at hle
  rcases hle with hle | hle
  · exact ⟨_, .inl rfl, hchild _ hle⟩
  · exact ⟨_, .inr rfl, hchild _ hle⟩

theorem Valid.le_root (h : Valid m n f) (hparent : ∀ i, 0 < i → i < n → parent i < m) (hi : i < n) :
    f i ≤ f 0 := by
  induction i using Nat.strong_induction_on with
  | _ i ih =>
    rcases Nat.eq_zero_or_pos i with rfl | hpos
    · exact le_rfl
    · have hlt := parent_lt hpos
      have hle := (h _ (hparent i hpos hi)).le_of_isChild (isChild_parent hpos) hi
      exact hle.trans (ih _ hlt (hlt.trans hi))

end

end MaxTree
