import Mathlib.Tactic

/-! Positions with keys, in a window that grows at its end and shrinks at its start: the latest
position with a key, and the one that follows a position with the same key. -/

namespace KeyHistory

variable {κ : Type*} [DecidableEq κ] {key : ℕ → κ} {lo n p q r : ℕ} {k : κ}

/-- the latest position with this key, from `lo` to before `n` -/
def latest (key : ℕ → κ) (lo : ℕ) : ℕ → κ → Option ℕ
  | 0, _ => none
  | n + 1, k => if n < lo then none else if key n = k then some n else latest key lo n k

/-- the first position after `p`, before `n`, with the same key -/
def following (key : ℕ → κ) (p : ℕ) : ℕ → Option ℕ
  | 0 => none
  | n + 1 => match following key p n with
    | some r => some r
    | none => if p < n ∧ key n = key p then some n else none

theorem latest_eq_some : latest key lo n k = some p ↔ lo ≤ p ∧ p < n ∧ key p = k ∧
    ∀ q, p < q → q < n → key q ≠ k := by
  induction n with
  | zero => simp [latest]
  | succ n ih => ?_
  rw [latest]
  split_ifs with hlo hkey
  · refine ⟨fun h => absurd h (by simp), fun ⟨h1, h2, _⟩ => ?_⟩
    omega
  · constructor
    · intro h
      obtain rfl := Option.some.inj h
      exact ⟨Nat.le_of_not_lt hlo, Nat.lt_succ_self _, hkey, fun q h1 h2 => by omega⟩
    rintro ⟨-, h2, -, h4⟩
    by_contra hne
    have hlt : p < n := by
      rcases Nat.lt_succ_iff_lt_or_eq.1 h2 with h | h
      · exact h
      · exact absurd (congrArg some h.symm) hne
    exact h4 n hlt (Nat.lt_succ_self _) hkey
  rw [ih]
  constructor
  · rintro ⟨h1, h2, h3, h4⟩
    refine ⟨h1, by omega, h3, fun q hq1 hq2 => ?_⟩
    rcases Nat.lt_succ_iff_lt_or_eq.1 hq2 with h | rfl
    · exact h4 q hq1 h
    · exact hkey
  · rintro ⟨h1, h2, h3, h4⟩
    refine ⟨h1, ?_, h3, fun q hq1 hq2 => h4 q hq1 (by omega)⟩
    rcases Nat.lt_succ_iff_lt_or_eq.1 h2 with h | rfl
    · exact h
    · exact absurd h3 hkey

theorem latest_eq_none : latest key lo n k = none ↔ ∀ q, lo ≤ q → q < n → key q ≠ k := by
  induction n with
  | zero => simp [latest]
  | succ n ih => ?_
  rw [latest]
  split_ifs with hlo hkey
  · exact ⟨fun _ q h1 h2 => by omega, fun _ => rfl⟩
  · exact ⟨fun h => absurd h (by simp),
      fun h => absurd hkey (h n (Nat.le_of_not_lt hlo) (Nat.lt_succ_self _))⟩
  rw [ih]
  refine ⟨fun h q h1 h2 => ?_, fun h q h1 h2 => h q h1 (by omega)⟩
  rcases Nat.lt_succ_iff_lt_or_eq.1 h2 with h2 | rfl
  · exact h q h1 h2
  · exact hkey

theorem following_eq_none : following key p n = none ↔ ∀ q, p < q → q < n → key q ≠ key p := by
  induction n with
  | zero => simp [following]
  | succ n ih => ?_
  rw [following]
  cases hf : following key p n with
  | some r =>
    rw [hf] at ih
    refine ⟨fun h => absurd h (by simp), fun h => ?_⟩
    exact ih.2 fun q h1 h2 => h q h1 (by omega)
  | none => ?_
  have hnone := ih.1 hf
  split_ifs with h
  · exact ⟨fun h => absurd h (by simp), fun hall => absurd h.2 (hall n h.1 (Nat.lt_succ_self _))⟩
  refine ⟨fun _ q h1 h2 => ?_, fun _ => rfl⟩
  rcases Nat.lt_succ_iff_lt_or_eq.1 h2 with h2 | rfl
  · exact hnone q h1 h2
  · exact fun hkey => h ⟨h1, hkey⟩

theorem following_eq_some : following key p n = some r ↔ p < r ∧ r < n ∧ key r = key p ∧
    ∀ q, p < q → q < r → key q ≠ key p := by
  induction n with
  | zero => simp [following]
  | succ n ih => ?_
  rw [following]
  cases hf : following key p n with
  | some r' =>
    rw [hf] at ih
    rw [ih]
    refine ⟨fun ⟨h1, h2, h3, h4⟩ => ⟨h1, by omega, h3, h4⟩, fun ⟨h1, h2, h3, h4⟩ => ⟨h1, ?_, h3, h4⟩⟩
    -- an earlier one has been found
    rcases Nat.lt_succ_iff_lt_or_eq.1 h2 with h2 | rfl
    · exact h2
    · have hnone := following_eq_none.2 h4
      rw [hf] at hnone
      cases hnone
  | none => ?_
  have hnone := following_eq_none.1 hf
  split_ifs with h
  · constructor
    · intro hr
      obtain rfl := Option.some.inj hr
      exact ⟨h.1, Nat.lt_succ_self _, h.2, hnone⟩
    rintro ⟨h1, h2, h3, -⟩
    rcases Nat.lt_succ_iff_lt_or_eq.1 h2 with h2 | rfl
    · exact absurd h3 (hnone r h1 h2)
    · rfl
  · refine ⟨fun hr => absurd hr (by simp), fun ⟨h1, h2, h3, _⟩ => ?_⟩
    rcases Nat.lt_succ_iff_lt_or_eq.1 h2 with h2 | rfl
    · exact absurd h3 (hnone r h1 h2)
    · exact absurd ⟨h1, h3⟩ h

/-- The positions that a position follows and is followed by. -/
theorem latest_iff_following (hlo : lo ≤ p) (hr : r < n) : latest key lo r (key r) = some p ↔
    following key p n = some r := by
  rw [latest_eq_some, following_eq_some]
  constructor
  · rintro ⟨-, h2, h3, h4⟩
    exact ⟨h2, hr, h3.symm, fun q h5 h6 => h3 ▸ h4 q h5 h6⟩
  · rintro ⟨h1, -, h3, h4⟩
    exact ⟨hlo, h1, h3.symm, fun q h5 h6 => h3.symm ▸ h4 q h5 h6⟩

theorem latest_shrink : latest key (lo + 1) n k = if latest key lo n k = some lo then none
    else latest key lo n k := by
  split_ifs with h
  · obtain ⟨-, -, -, h4⟩ := latest_eq_some.1 h
    exact latest_eq_none.2 fun q h1 h2 => h4 q h1 h2
  cases hl : latest key lo n k with
  | none => exact latest_eq_none.2 fun q h1 h2 => latest_eq_none.1 hl q (by omega) h2
  | some p =>
    obtain ⟨h1, h2⟩ := latest_eq_some.1 hl
    refine latest_eq_some.2 ⟨?_, h2⟩
    have hne : lo ≠ p := fun he => h (he ▸ hl)
    omega

theorem following_succ (hlo : lo ≤ p) :
    following key p (n + 1) = if latest key lo n (key n) = some p then some n
      else following key p n := by
  have hiff : latest key lo n (key n) = some p ↔ following key p (n + 1) = some n :=
    latest_iff_following hlo (Nat.lt_succ_self n)
  split_ifs with h
  · exact hiff.1 h
  have hne : following key p (n + 1) ≠ some n := mt hiff.2 h
  rw [following] at hne ⊢
  cases hf : following key p n with
  | some r => rfl
  | none =>
    rw [hf] at hne
    split_ifs at hne ⊢
    · exact absurd rfl hne
    · rfl

theorem following_self : following key n (n + 1) = none := following_eq_none.2 fun q h1 h2 => by omega

end KeyHistory
