import PgRetrofit.Spec.Qsort
import PgRetrofit.Lib.Comparator

/-! The partitioning loop of `pg_qsort`, for an arbitrary comparison: it permutes
the array, and leaves the elements below the pivot, equal to it and above it in
three adjacent runs, as judged by the one comparison made with the pivot. -/

namespace Pg.Qsort

open Shuffle

variable {α : Type*} (cmp : α → α → ℤ)

variable (m : Mem α)

theorem med3_cases (a b c : ℕ) :
    med3 cmp m a b c = a ∨ med3 cmp m a b c = b ∨ med3 cmp m a b c = c := by
  unfold med3
  split_ifs <;> simp

theorem med3_within {lo hi a b c : ℕ} (ha : lo ≤ a ∧ a < hi) (hb : lo ≤ b ∧ b < hi)
    (hc : lo ≤ c ∧ c < hi) : lo ≤ med3 cmp m a b c ∧ med3 cmp m a b c < hi := by
  rcases med3_cases cmp m a b c with h | h | h <;> rw [h] <;> assumption

theorem pivotPos_within {a n : ℕ} (hn : 7 ≤ n) :
    a ≤ pivotPos cmp m a n ∧ pivotPos cmp m a n < a + n := by
  simp only [pivotPos]
  split_ifs with h7 h40
  · apply med3_within <;> apply med3_within <;> omega
  · apply med3_within <;> omega
  · omega

/-- The pointers stay in order and the pivot's cell stays untouched; the cells
already passed are sorted by their comparison with the pivot. -/
structure PartOk (m0 : Mem α) (a n : ℕ) (p : Part α) : Prop where
  pa_lo : a + 1 ≤ p.pa
  pa_pb : p.pa ≤ p.pb
  pb_pc : p.pb ≤ p.pc + 1
  pc_pd : p.pc ≤ p.pd
  pd_hi : p.pd < a + n
  shuffled : Within (a + 1) (a + n) m0 p.mem
  lowEq : ∀ i, a + 1 ≤ i → i < p.pa → cmp (p.mem i) (p.mem a) = 0
  low : ∀ i, p.pa ≤ i → i < p.pb → cmp (p.mem i) (p.mem a) < 0
  high : ∀ i, p.pc < i → i ≤ p.pd → 0 < cmp (p.mem i) (p.mem a)
  highEq : ∀ i, p.pd < i → i < a + n → cmp (p.mem i) (p.mem a) = 0

variable {m0 : Mem α} {a n : ℕ} {p q : Part α}

/-- The invariant, cell by cell. -/
theorem partOk_iff : PartOk cmp m0 a n p ↔
    (a + 1 ≤ p.pa ∧ p.pa ≤ p.pb ∧ p.pb ≤ p.pc + 1 ∧ p.pc ≤ p.pd ∧ p.pd < a + n) ∧
    Within (a + 1) (a + n) m0 p.mem ∧ ∀ i, (a + 1 ≤ i → i < p.pa → cmp (p.mem i) (p.mem a) = 0) ∧
      (p.pa ≤ i → i < p.pb → cmp (p.mem i) (p.mem a) < 0) ∧
      (p.pc < i → i ≤ p.pd → 0 < cmp (p.mem i) (p.mem a)) ∧
      (p.pd < i → i < a + n → cmp (p.mem i) (p.mem a) = 0) := by
  constructor
  · intro h
    exact ⟨⟨h.pa_lo, h.pa_pb, h.pb_pc, h.pc_pd, h.pd_hi⟩, h.shuffled,
      fun i => ⟨h.lowEq i, h.low i, h.high i, h.highEq i⟩⟩
  · rintro ⟨⟨h1, h2, h3, h4, h5⟩, hs, hcells⟩
    exact ⟨h1, h2, h3, h4, h5, hs, fun i => (hcells i).1, fun i => (hcells i).2.1,
      fun i => (hcells i).2.2.1, fun i => (hcells i).2.2.2⟩

theorem partOk_init (hn : 1 < n) :
    PartOk cmp m a n { mem := m, pa := a + 1, pb := a + 1, pc := a + (n - 1), pd := a + (n - 1) } := by
  refine (partOk_iff cmp).2 ⟨?_, Within.refl _ _ _, fun i => ?_⟩
  · dsimp only
    omega
  · dsimp only
    omega

omit m

variable {cmp} (h : PartOk cmp m0 a n p) (hb : p.pb ≤ p.pc)
include h hb

/-- an element equal to the pivot, found from below, joins the run at the left end -/
theorem PartOk.takeLowEq (hr : cmp (p.mem p.pb) (p.mem a) = 0) :
    PartOk cmp m0 a n { p with mem := swap p.mem p.pa p.pb, pa := p.pa + 1, pb := p.pb + 1 } := by
  obtain ⟨hle, hs, hcells⟩ := (partOk_iff cmp).1 h
  have hsa : swap p.mem p.pa p.pb a = p.mem a := swap_other _ (by omega) (by omega)
  refine (partOk_iff cmp).2 ⟨?_, hs.trans (within_swap _ (by omega) (by omega) (by omega) (by omega)),
    fun i => ?_⟩
  · dsimp only
    omega
  dsimp only
  have hi := hcells i
  have hmoved := hcells p.pa
  rw [hsa, swap_apply]
  split_ifs <;> omega

theorem PartOk.takeLow
    (hr : cmp (p.mem p.pb) (p.mem a) < 0) : PartOk cmp m0 a n { p with pb := p.pb + 1 } := by
  obtain ⟨hle, hs, hcells⟩ := (partOk_iff cmp).1 h
  refine (partOk_iff cmp).2 ⟨by dsimp only; omega, hs, fun i => ?_⟩
  dsimp only
  have hi := hcells i
  rcases eq_or_ne i p.pb with rfl | hne <;> omega

theorem PartOk.takeHighEq (hr : cmp (p.mem p.pc) (p.mem a) = 0) :
    PartOk cmp m0 a n { p with mem := swap p.mem p.pc p.pd, pd := p.pd - 1, pc := p.pc - 1 } := by
  obtain ⟨hle, hs, hcells⟩ := (partOk_iff cmp).1 h
  have hsa : swap p.mem p.pc p.pd a = p.mem a := swap_other _ (by omega) (by omega)
  refine (partOk_iff cmp).2 ⟨?_, hs.trans (within_swap _ (by omega) (by omega) (by omega) (by omega)),
    fun i => ?_⟩
  · dsimp only
    omega
  dsimp only
  have hi := hcells i
  have hmoved := hcells p.pd
  have hsame : p.pc = p.pd → cmp (p.mem p.pd) (p.mem a) = 0 := fun heq => heq ▸ hr
  rw [hsa, swap_apply]
  split_ifs <;> omega

theorem PartOk.takeHigh
    (hr : 0 < cmp (p.mem p.pc) (p.mem a)) : PartOk cmp m0 a n { p with pc := p.pc - 1 } := by
  obtain ⟨hle, hs, hcells⟩ := (partOk_iff cmp).1 h
  refine (partOk_iff cmp).2 ⟨by dsimp only; omega, hs, fun i => ?_⟩
  dsimp only
  have hi := hcells i
  rcases eq_or_ne i p.pc with rfl | hne <;> omega

omit hb

theorem PartOk.exchange (hb : p.pb < p.pc)
    (hl : 0 < cmp (p.mem p.pb) (p.mem a)) (hh : cmp (p.mem p.pc) (p.mem a) < 0) :
    PartOk cmp m0 a n { p with mem := swap p.mem p.pb p.pc, pb := p.pb + 1, pc := p.pc - 1 } := by
  obtain ⟨hle, hs, hcells⟩ := (partOk_iff cmp).1 h
  have hsa : swap p.mem p.pb p.pc a = p.mem a := swap_other _ (by omega) (by omega)
  refine (partOk_iff cmp).2 ⟨?_, hs.trans (within_swap _ (by omega) (by omega) (by omega) (by omega)),
    fun i => ?_⟩
  · dsimp only
    omega
  dsimp only
  have hi := hcells i
  have hmoved := hcells p.pb
  rw [hsa, swap_apply]
  split_ifs <;> omega

omit h

/-- What the upward scan leaves: the invariant, and a stopping reason. -/
theorem scanUp_ok (k : ℕ) (h : PartOk cmp m0 a n p) (hk : p.pc + 1 - p.pb ≤ k)
    (hq : scanUp cmp a k p = q) :
    PartOk cmp m0 a n q ∧ q.pc = p.pc ∧ p.pb ≤ q.pb ∧
      (q.pb ≤ p.pc → 0 < cmp (q.mem q.pb) (q.mem a)) := by
  subst hq
  induction k generalizing p with
  | zero => exact ⟨h, rfl, le_rfl, fun hle => by simp only [scanUp] at hle; omega⟩
  | succ k ih => ?_
  simp only [scanUp]
  split_ifs with hc h0
  · obtain ⟨h1, h2, h3, h4⟩ := ih (h.takeLowEq hc.1 h0) (by dsimp only; omega)
    exact ⟨h1, h2, by dsimp only at h3; omega, h4⟩
  · obtain ⟨h1, h2, h3, h4⟩ := ih (h.takeLow hc.1 (by omega)) (by dsimp only; omega)
    exact ⟨h1, h2, by dsimp only at h3; omega, h4⟩
  · exact ⟨h, rfl, le_rfl, fun hle => by omega⟩

theorem scanDown_ok (k : ℕ) (h : PartOk cmp m0 a n p) (hk : p.pc + 1 - p.pb ≤ k)
    (hstop : p.pb ≤ p.pc → 0 < cmp (p.mem p.pb) (p.mem a)) (hq : scanDown cmp a k p = q) :
    PartOk cmp m0 a n q ∧ q.pb = p.pb ∧ q.pc ≤ p.pc ∧
      (p.pb ≤ q.pc → cmp (q.mem q.pc) (q.mem a) < 0 ∧ 0 < cmp (q.mem p.pb) (q.mem a)) := by
  subst hq
  induction k generalizing p with
  | zero => exact ⟨h, rfl, le_rfl, fun hle => by simp only [scanDown] at hle; omega⟩
  | succ k ih => ?_
  have h1 := h.pa_lo; have h2 := h.pa_pb; have h3 := h.pc_pd
  simp only [scanDown]
  split_ifs with hc h0
  · have hne : p.pb ≠ p.pc := fun he => by have := hstop hc.1; rw [he] at this; omega
    have hstop' : 0 < cmp (swap p.mem p.pc p.pd p.pb) (swap p.mem p.pc p.pd a) := by
      rw [swap_other _ hne (by omega), swap_other _ (by omega) (by omega)]
      exact hstop hc.1
    obtain ⟨g1, g2, g3, g4⟩ := ih (h.takeHighEq hc.1 h0) (by dsimp only; omega) (fun _ => hstop')
    exact ⟨g1, g2, by dsimp only at g3; omega, g4⟩
  · obtain ⟨g1, g2, g3, g4⟩ := ih (h.takeHigh hc.1 (by omega)) (by dsimp only; omega)
      (fun hle => hstop hc.1)
    exact ⟨g1, g2, by dsimp only at g3; omega, g4⟩
  · exact ⟨h, rfl, le_rfl, fun hle => ⟨by omega, hstop hle⟩⟩

theorem PartOk.round (h : PartOk cmp m0 a n p) (hq : scanDown cmp a n (scanUp cmp a n p) = q) :
    PartOk cmp m0 a n (scanUp cmp a n p) ∧ PartOk cmp m0 a n q ∧ p.pb ≤ q.pb ∧ q.pc ≤ p.pc ∧
      (q.pb ≤ q.pc →
        PartOk cmp m0 a n { q with mem := swap q.mem q.pb q.pc, pb := q.pb + 1, pc := q.pc - 1 }) := by
  have hlen : p.pc + 1 - p.pb ≤ n := by
    have := h.pa_lo; have := h.pa_pb; have := h.pc_pd; have := h.pd_hi; omega
  obtain ⟨u1, u2, u3, u4⟩ := scanUp_ok n h hlen rfl
  obtain ⟨d1, d2, d3, d4⟩ := scanDown_ok n u1 (by omega) (fun hle => u4 (by omega)) hq
  refine ⟨u1, d1, by omega, by omega, fun hx => ?_⟩
  obtain ⟨e1, e2⟩ := d4 (by omega)
  rw [← d2] at e2
  have hlt : q.pb < q.pc := by
    rcases lt_or_ge q.pb q.pc with g | g
    · exact g
    · rw [show q.pc = q.pb by omega] at e1
      omega
  exact d1.exchange hlt e2 e1

theorem partLoop_ok (k : ℕ) (h : PartOk cmp m0 a n p) (hk : p.pc + 1 - p.pb < k) :
    PartOk cmp m0 a n (partLoop cmp a n k p) ∧
      (partLoop cmp a n k p).pb = (partLoop cmp a n k p).pc + 1 := by
  induction k generalizing p with
  | zero => omega
  | succ k ih => ?_
  simp only [partLoop]
  generalize hq : scanDown cmp a n (scanUp cmp a n p) = q
  obtain ⟨-, hd, hb, hc, he⟩ := h.round hq
  split_ifs with hx
  · exact ⟨hd, by have := hd.pb_pc; omega⟩
  · exact ih (he (by omega)) (by dsimp only; omega)

end Pg.Qsort
