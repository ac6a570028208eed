import Mathlib.Tactic

/-! Memory as a total function from cell numbers to values, with cell swaps.
A shuffle of the window `[lo, hi)` permutes the cells of that window and leaves
every other cell alone; it is what an in-place sort may do to its array. -/

/-- A memory of cells. It is a structure and not a bare function so that a
function returning a memory computes it once, before any cell is read. -/
@[ext]
structure Mem (α : Type*) where
  get : ℕ → α

def Mem.set {α : Type*} (m : Mem α) (i : ℕ) (x : α) : Mem α := ⟨fun k => if k = i then x else m.get k⟩

namespace Shuffle

open List

variable {α : Type*} {i : ℕ}

instance : CoeFun (Mem α) (fun _ => ℕ → α) := ⟨Mem.get⟩

def swap (m : Mem α) (i j : ℕ) : Mem α := ⟨fun k => m (Equiv.swap i j k)⟩

variable (m : Mem α)
include m

theorem swap_left (i j : ℕ) : swap m i j i = m j := by simp [swap]

theorem swap_right (i j : ℕ) : swap m i j j = m i := by simp [swap]

theorem swap_other {j k : ℕ} (hi : k ≠ i) (hj : k ≠ j) : swap m i j k = m k := by
  simp [swap, Equiv.swap_apply_of_ne_of_ne hi hj]

theorem swap_apply (i j k : ℕ) :
    swap m i j k = if k = i then m j else if k = j then m i else m k := by
  simp only [swap, Equiv.swap_apply_def]
  split_ifs <;> rfl

omit m

/-- `m'` is `m` with the cells of `[lo, hi)` permuted. -/
def Within (lo hi : ℕ) (m m' : Mem α) : Prop :=
  ∃ σ : Equiv.Perm ℕ, (∀ i, i < lo ∨ hi ≤ i → σ i = i) ∧ m' = ⟨m.get ∘ σ⟩

theorem Within.refl (lo hi : ℕ) (m : Mem α) : Within lo hi m m := ⟨Equiv.refl ℕ, by simp, rfl⟩

variable {lo hi : ℕ}

theorem Within.trans {a b c : Mem α} (h1 : Within lo hi a b) (h2 : Within lo hi b c) :
    Within lo hi a c := by
  obtain ⟨σ, hσ, rfl⟩ := h1
  obtain ⟨τ, hτ, rfl⟩ := h2
  refine ⟨τ.trans σ, fun i hi => ?_, rfl⟩
  rw [Equiv.trans_apply, hτ i hi, hσ i hi]

variable {m m' : Mem α}

theorem Within.mono {lo hi lo' hi' : ℕ} (h : Within lo hi m m')
    (hlo : lo' ≤ lo) (hhi : hi ≤ hi') : Within lo' hi' m m' := by
  obtain ⟨σ, hσ, rfl⟩ := h
  exact ⟨σ, fun i hi => hσ i (by omega), rfl⟩

theorem within_swap (m : Mem α) {lo hi j : ℕ} (hi1 : lo ≤ i) (hi2 : i < hi)
    (hj1 : lo ≤ j) (hj2 : j < hi) : Within lo hi m (swap m i j) :=
  ⟨Equiv.swap i j, fun k hk => Equiv.swap_apply_of_ne_of_ne (by omega) (by omega), rfl⟩

variable (h : Within lo hi m m')
include h

theorem Within.outside (hi : i < lo ∨ hi ≤ i) : m' i = m i := by
  obtain ⟨σ, hσ, rfl⟩ := h
  simp [hσ i hi]

/-- The permutation of a shuffle maps the window to itself. -/
theorem Within.inside (h1 : lo ≤ i) (h2 : i < hi) : ∃ j, lo ≤ j ∧ j < hi ∧ m' i = m j := by
  obtain ⟨σ, hσ, rfl⟩ := h
  refine ⟨σ i, ?_, ?_, rfl⟩ <;> by_contra hc
  · have := σ.injective (hσ (σ i) (by omega)); omega
  · have := σ.injective (hσ (σ i) (by omega)); omega

theorem Within.forall {P : α → Prop}
    (hP : ∀ i, lo ≤ i → i < hi → P (m i)) : ∀ i, lo ≤ i → i < hi → P (m' i) := by
  intro i h1 h2
  obtain ⟨j, hj1, hj2, he⟩ := h.inside h1 h2
  exact he ▸ hP j hj1 hj2

omit h

def window (m : Mem α) (a n : ℕ) : List α := (List.range' a n).map m.get

theorem length_window (m : Mem α) (a n : ℕ) : (window m a n).length = n := by simp [window]

theorem window_getD (l : List α) (d : α) : window ⟨fun i => l.getD i d⟩ 0 l.length = l := by
  refine ext_getElem (length_window ..) fun i h1 h2 => ?_
  simp [window, h2]

theorem Within.perm {a n : ℕ} (h : Within a (a + n) m m') :
    (window m' a n).Perm (window m a n) := by
  have hin : ∀ i, a ≤ i → i < a + n → ∀ σ : Equiv.Perm ℕ,
      (∀ i, i < a ∨ a + n ≤ i → σ i = i) → a ≤ σ i ∧ σ i < a + n := by
    intro i h1 h2 σ hσ
    by_contra hc
    have := σ.injective (hσ (σ i) (by omega)); omega
  obtain ⟨σ, hσ, rfl⟩ := h
  have hσ' : ∀ i, i < a ∨ a + n ≤ i → σ.symm i = i := fun i hi => by
    rw [Equiv.symm_apply_eq, hσ i hi]
  have hp : ((range' a n).map σ).Perm (range' a n) := by
    rw [perm_ext_iff_of_nodup (List.Nodup.map σ.injective nodup_range') nodup_range']
    intro j
    simp only [mem_map, mem_range'_1]
    constructor
    · rintro ⟨i, ⟨h1, h2⟩, rfl⟩; exact hin i h1 h2 σ hσ
    · rintro ⟨h1, h2⟩; exact ⟨σ.symm j, hin j h1 h2 σ.symm hσ', by simp⟩
  simpa [window] using hp.map m.get

end Shuffle
