import Mathlib.Tactic

/-! The places where a list of sizes can be cut in two: the sum of what lies before, and the first
size behind the cut. -/

namespace CutPoints

open List

/-- The cuts of a list that begins after `s`. -/
def cuts : ℕ → List ℕ → List (ℕ × ℕ)
  | _, [] => []
  | s, x :: xs => (s, x) :: cuts (s + x) xs

variable {s x : ℕ} {xs : List ℕ}

theorem length_cuts (s : ℕ) (xs : List ℕ) : (cuts s xs).length = xs.length := by
  induction xs generalizing s with
  | nil => rfl
  | cons x xs ih => rw [cuts, length_cons, length_cons, ih]

theorem le_of_mem_cuts {c : ℕ × ℕ} (h : c ∈ cuts s xs) : c.1 + c.2 ≤ s + xs.sum ∧ c.2 ∈ xs := by
  induction xs generalizing s with
  | nil => exact absurd h not_mem_nil
  | cons x xs ih =>
    rw [sum_cons]
    rcases mem_cons.1 h with rfl | h
    · exact ⟨by omega, mem_cons_self⟩
    · have ⟨hhigh, hmem⟩ := ih h
      exact ⟨by omega, mem_cons_of_mem _ hmem⟩

theorem getLast_cuts (hne : cuts s xs ≠ []) :
    ((cuts s xs).getLast hne).1 + ((cuts s xs).getLast hne).2 = s + xs.sum := by
  induction xs generalizing s with
  | nil => exact absurd rfl hne
  | cons x xs ih => ?_
  cases xs with
  | nil => simp [cuts]
  | cons y xs =>
    have := ih (s := s + x) (by simp [cuts])
    simp only [cuts, getLast_cons_cons, sum_cons] at this ⊢
    omega

/-- A cut such that the sizes before it and the next one have room, while the one after that would
not. -/
theorem exists_full_cut (bound room : ℕ) (hx : s + x ≤ room) (hbound : ∀ y ∈ x :: xs, y ≤ bound) :
    ∃ c ∈ cuts s (x :: xs), c.1 + c.2 ≤ room ∧
      (c.1 + c.2 = s + (x :: xs).sum ∨ room < c.1 + c.2 + bound) := by
  induction xs generalizing s x with
  | nil => exact ⟨(s, x), mem_cons_self, hx, .inl (by simp)⟩
  | cons y xs ih => ?_
  by_cases hy : s + x + y ≤ room
  · obtain ⟨c, hc, hroom, hlast⟩ := ih hy fun z hz => hbound z (mem_cons_of_mem _ hz)
    refine ⟨c, mem_cons_of_mem _ hc, hroom, hlast.imp_left fun h => ?_⟩
    simp only [sum_cons] at h ⊢
    omega
  · refine ⟨(s, x), mem_cons_self, hx, .inr ?_⟩
    have := hbound y (by simp)
    omega

end CutPoints
