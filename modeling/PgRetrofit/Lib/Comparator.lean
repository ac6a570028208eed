import PgRetrofit.Lib.Shuffle

/-! Three-way comparison functions: the sign of `cmp x y` says whether `x` comes
before `y` (negative), after it (positive), or is equivalent to it (zero). -/

variable {α : Type*}

/-- On the values satisfying `S`, the comparison is a total preorder. -/
structure CmpOrder (cmp : α → α → ℤ) (S : α → Prop) : Prop where
  flip : ∀ {x y}, S x → S y → (cmp x y ≤ 0 ↔ 0 ≤ cmp y x)
  trans : ∀ {x y z}, S x → S y → S z → cmp x y ≤ 0 → cmp y z ≤ 0 → cmp x z ≤ 0

namespace CmpOrder

variable {cmp : α → α → ℤ} {S : α → Prop}

theorem flip_pos (h : CmpOrder cmp S) {x y : α} (hx : S x) (hy : S y) : 0 < cmp x y ↔ cmp y x < 0 := by
  have := h.flip hx hy
  omega

theorem self (h : CmpOrder cmp S) {x : α} (hx : S x) : cmp x x = 0 := by
  have := h.flip hx hx
  omega

theorem ofKey (key : α → ℤ)
    (h : ∀ x y, S x → S y → (cmp x y ≤ 0 ↔ key x ≤ key y) ∧ (0 ≤ cmp x y ↔ key y ≤ key x)) :
    CmpOrder cmp S where
  flip hx hy := (h _ _ hx hy).1.trans (h _ _ hy hx).2.symm
  trans hx hy hz h1 h2 :=
    (h _ _ hx hz).1.2 (le_trans ((h _ _ hx hy).1.1 h1) ((h _ _ hy hz).1.1 h2))

end CmpOrder

/-- The `n` cells from `a` on are in ascending order of the comparison. -/
def SortedOn (cmp : α → α → ℤ) (m : Mem α) (a n : ℕ) : Prop :=
  ∀ i j, a ≤ i → i < j → j < a + n → cmp (m.get i) (m.get j) ≤ 0

theorem SortedOn.pairwise {cmp : α → α → ℤ} {m : Mem α} {a n : ℕ} (h : SortedOn cmp m a n) :
    (Shuffle.window m a n).Pairwise (fun x y => cmp x y ≤ 0) := by
  rw [Shuffle.window, List.pairwise_map]
  refine (List.pairwise_lt_range' (s := a) (n := n) 1 (by omega)).imp_of_mem fun {i j} hi hj hij => ?_
  rw [List.mem_range'_1] at hi hj
  exact h i j hi.1 hij hj.2
