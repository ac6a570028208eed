import Mathlib.Tactic

/-! A sequence without end, kept in a ring of cells: position `p` of the sequence lives in cell
`p % size`, so a ring holds the last `size` positions at most. What a position is meant to hold
is a relation, since not every position is filled. -/

namespace Ring

variable {α : Type*} {size lo lo' p q : ℕ} {meant meant' : ℕ → α → Prop} {cells cells' : ℕ → α}

theorem mod_ne (hp : lo ≤ p) (hp' : p < lo + size) (hq : lo ≤ q) (hq' : q < lo + size) (hne : p ≠ q) :
    p % size ≠ q % size := by
  intro heq
  rcases Nat.lt_or_gt_of_ne hne with h | h
  · have hdvd : size ∣ q - p := (Nat.modEq_iff_dvd' h.le).1 heq
    have := Nat.le_of_dvd (by omega) hdvd
    omega
  · have hdvd : size ∣ p - q := (Nat.modEq_iff_dvd' h.le).1 heq.symm
    have := Nat.le_of_dvd (by omega) hdvd
    omega

/-- From `lo` on, the cells hold what they are meant to. -/
def Keeps (size : ℕ) (meant : ℕ → α → Prop) (cells : ℕ → α) (lo : ℕ) : Prop :=
  ∀ p a, lo ≤ p → meant p a → cells (p % size) = a

variable (h : Keeps size meant cells lo)
include h

variable (hlo : lo ≤ lo') (hmeant : ∀ p a, lo' ≤ p → meant' p a → meant p a)
include hlo hmeant

/-- Cells may change as long as those in use do not. -/
theorem Keeps.of_agree
    (hagree : ∀ p a, lo' ≤ p → meant' p a → cells' (p % size) = cells (p % size)) :
    Keeps size meant' cells' lo' := by
  intro p a hp hpa
  rw [hagree p a hp hpa]
  exact h p a (hlo.trans hp) (hmeant p a hp hpa)

theorem Keeps.mono : Keeps size meant' cells lo' := h.of_agree hlo hmeant fun _ _ _ _ => rfl

omit hlo hmeant

theorem Keeps.fill (p : ℕ) (values : List α) (hp : lo ≤ p) (hp' : p + values.length ≤ lo + size)
    (hwindow : ∀ q a, lo ≤ q → meant q a → q < lo + size)
    (hmeant : ∀ q a, meant' q a → (meant q a ∧ (q < p ∨ p + values.length ≤ q)) ∨
      ∃ i, q = p + i ∧ values[i]? = some a)
    (hfilled : ∀ i a, values[i]? = some a → cells' ((p + i) % size) = a)
    (hothers : ∀ s < size, (∀ i < values.length, s ≠ (p + i) % size) → cells' s = cells s) :
    Keeps size meant' cells' lo := by
  intro q a hq hqa
  obtain ⟨hold, hout⟩ | ⟨i, rfl, hi⟩ := hmeant q a hqa
  · have hwindow := hwindow q a hq hold
    rw [hothers]
    · exact h q a hq hold
    · exact Nat.mod_lt q (by omega)
    intro i hi
    apply mod_ne hq hwindow
    · omega
    · omega
    · omega
  · exact hfilled i a hi

end Ring
