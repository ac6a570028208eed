import Mathlib.Tactic
import Mathlib.Data.List.GetD

/-! Positional notation, most significant digit first, and loops that run over the positions from the
last to the first with a carry. -/

namespace Positional

open List Nat

variable {b : ℤ}

/-- what the digits stand for; a digit may be any integer -/
def value (b : ℤ) (ds : List ℤ) : ℤ := ds.foldl (fun acc d => acc * b + d) 0

/-- all digits are proper -/
def Digits (b : ℤ) (ds : List ℤ) : Prop := ∀ d ∈ ds, 0 ≤ d ∧ d < b

instance (b : ℤ) (ds : List ℤ) : Decidable (Digits b ds) := inferInstanceAs (Decidable (∀ d ∈ ds, _))

@[simp]
theorem value_nil : value b [] = 0 := rfl

@[simp]
theorem value_concat (ds : List ℤ) (d : ℤ) : value b (ds ++ [d]) = value b ds * b + d := by
  simp [value]

theorem value_append (xs ys : List ℤ) :
    value b (xs ++ ys) = value b xs * b ^ ys.length + value b ys := by
  induction ys using reverseRecOn with
  | nil => simp
  | append_singleton ys y ih =>
    rw [← append_assoc, value_concat, value_concat, ih, length_append, length_singleton]
    ring

theorem value_cons (d : ℤ) (ds : List ℤ) : value b (d :: ds) = d * b ^ ds.length + value b ds := by
  simpa [value] using value_append [d] ds

@[simp]
theorem value_replicate_zero (n : ℕ) : value b (List.replicate n 0) = 0 := by
  induction n with
  | zero => rfl
  | succ n ih => rw [replicate_succ, value_cons, ih, zero_mul, zero_add]

variable {ds : List ℤ}

/-- A position has the weight of the positions after it. -/
theorem value_set {i : ℕ} (h : i < ds.length) (d : ℤ) :
    value b (ds.set i d) = value b ds + (d - ds[i]) * b ^ (ds.length - 1 - i) := by
  induction ds generalizing i with
  | nil => exact absurd h (not_lt_zero _)
  | cons x xs ih => ?_
  cases i with
  | zero =>
    simp only [set_cons_zero, value_cons, getElem_cons_zero, length_cons,
      Nat.add_sub_cancel, Nat.sub_zero]
    ring
  | succ i =>
    have hlt : i < xs.length := by simpa using h
    simp only [set_cons_succ, value_cons, length_set, getElem_cons_succ, length_cons,
      Nat.add_sub_cancel, ih hlt]
    rw [show xs.length - (i + 1) = xs.length - 1 - i by omega]
    ring

theorem Digits.append {xs ys : List ℤ} (hx : Digits b xs) (hy : Digits b ys) : Digits b (xs ++ ys) :=
  fun d hd => (mem_append.1 hd).elim (hx d) (hy d)

theorem Digits.cons {d : ℤ} (hd : 0 ≤ d ∧ d < b) (h : Digits b ds) : Digits b (d :: ds) :=
  forall_mem_cons.2 ⟨hd, h⟩

theorem Digits.mono {xs ys : List ℤ} (h : Digits b ys) (hsub : xs ⊆ ys) : Digits b xs :=
  fun d hd => h d (hsub hd)

theorem value_nonneg (hb : 0 ≤ b) (h : ∀ d ∈ ds, 0 ≤ d) : 0 ≤ value b ds := by
  induction ds with
  | nil => exact le_rfl
  | cons d ds ih =>
    obtain ⟨hd, hds⟩ := forall_mem_cons.1 h
    rw [value_cons]
    have := ih hds
    positivity

variable (h : Digits b ds)
include h

theorem Digits.nonneg (hb : 0 ≤ b) : 0 ≤ value b ds := value_nonneg hb fun d hd => (h d hd).1

theorem Digits.value_lt (hb : 0 < b) : value b ds < b ^ ds.length := by
  induction ds with
  | nil => simp
  | cons d ds ih =>
    obtain ⟨hd, hds⟩ := forall_mem_cons.1 h
    have htail := ih hds
    have hpow : 0 < b ^ ds.length := pow_pos hb _
    rw [value_cons, length_cons, pow_succ]
    nlinarith

theorem Digits.value_take (hb : 0 < b) (k : ℕ) :
    value b (ds.take k) = value b ds / b ^ (ds.length - k) := by
  have hdrop : Digits b (ds.drop k) := h.mono (drop_subset k ds)
  have hsplit := value_append (b := b) (ds.take k) (ds.drop k)
  rw [take_append_drop, length_drop] at hsplit
  have hpos : 0 < b ^ (ds.length - k) := pow_pos hb _
  have hlt := hdrop.value_lt hb
  rw [length_drop] at hlt
  rw [hsplit, add_comm, Int.add_mul_ediv_right _ _ hpos.ne',
    Int.ediv_eq_zero_of_lt (hdrop.nonneg hb.le) hlt, zero_add]

/-- A first digit that is not zero fixes the size. -/
theorem Digits.le_value (hb : 0 < b) (hne : ds ≠ []) (hhead : ds.head hne ≠ 0) :
    b ^ (ds.length - 1) ≤ value b ds := by
  match ds, hne with
  | d :: ds, _ =>
    obtain ⟨hd, hds⟩ := forall_mem_cons.1 h
    have hone : 1 ≤ d := by
      rw [head_cons] at hhead
      omega
    have hpow : 0 ≤ b ^ ds.length := (pow_pos hb _).le
    have hrest := Digits.nonneg hds hb.le
    rw [value_cons, length_cons, Nat.add_sub_cancel]
    nlinarith

omit h

/-- the first `n` terms as digits -/
def upTo (b : ℤ) (term : ℕ → ℤ) : ℕ → ℤ
  | 0 => 0
  | n + 1 => upTo b term n * b + term n

variable {n : ℕ}

theorem upTo_congr {f g : ℕ → ℤ} (h : ∀ i < n, f i = g i) : upTo b f n = upTo b g n := by
  induction n with
  | zero => rfl
  | succ n ih => rw [upTo, upTo, ih fun i hi => h i (lt_succ_of_lt hi), h n (lt_succ_self n)]

theorem upTo_add (f g : ℕ → ℤ) (n : ℕ) : upTo b (fun i => f i + g i) n = upTo b f n + upTo b g n := by
  induction n with
  | zero => rfl
  | succ n ih =>
    rw [upTo, upTo, upTo, ih]
    ring

theorem upTo_sub (f g : ℕ → ℤ) (n : ℕ) : upTo b (fun i => f i - g i) n = upTo b f n - upTo b g n := by
  induction n with
  | zero => rfl
  | succ n ih =>
    rw [upTo, upTo, upTo, ih]
    ring

theorem upTo_mul (f : ℕ → ℤ) (c : ℤ) (n : ℕ) : upTo b (fun i => f i * c) n = upTo b f n * c := by
  induction n with
  | zero => rw [upTo, upTo, zero_mul]
  | succ n ih =>
    rw [upTo, upTo, ih]
    ring

theorem upTo_getD_take (ds : List ℤ) (h : n ≤ ds.length) :
    upTo b (fun i => ds.getD i 0) n = value b (ds.take n) := by
  induction n with
  | zero => rfl
  | succ n ih =>
    rw [upTo, ih (le_of_succ_le h), take_add_one, getElem?_eq_getElem h, getD_eq_getElem _ _ h,
      Option.toList_some, value_concat]

theorem upTo_getD (ds : List ℤ) : upTo b (fun i => ds.getD i 0) ds.length = value b ds := by
  rw [upTo_getD_take ds le_rfl, take_length]

theorem upTo_shift {term : ℕ → ℤ} {k n : ℕ} (hbefore : ∀ i < k, term i = 0)
    (hterm : ∀ i < n, k ≤ i → term i = ds.getD (i - k) 0) :
    upTo b term n = value b (ds.take (n - k)) * b ^ (n - k - ds.length) := by
  induction n with
  | zero => simp [upTo]
  | succ n ih => ?_
  rw [upTo, ih fun i hi => hterm i (lt_succ_of_lt hi)]
  by_cases hk : n < k
  · rw [hbefore n hk, show n - k = 0 by omega, show n + 1 - k = 0 by omega]
    simp
  rw [hterm n (lt_succ_self n) (not_lt.1 hk), show n + 1 - k = n - k + 1 by omega]
  by_cases hlen : n - k < ds.length
  · rw [take_add_one, getElem?_eq_getElem hlen, getD_eq_getElem _ _ hlen,
      Option.toList_some, value_concat,
      show n - k - ds.length = 0 by omega, show n - k + 1 - ds.length = 0 by omega]
    ring
  · rw [getD_eq_default _ _ (not_lt.1 hlen), take_of_length_le (not_lt.1 hlen),
      take_of_length_le (by omega), show n - k + 1 - ds.length = n - k - ds.length + 1 by omega]
    ring

section Loop

variable {ε σ : Type}

/-- `for (i = n - 1; i >= 0; i--)`: each round writes position `i` and goes on with a new state. -/
def carryLoop (step : ℕ → σ → Except ε (ℤ × σ)) : ℕ → σ → List ℤ → Except ε (List ℤ × σ)
  | 0, state, digits => .ok (digits, state)
  | i + 1, state, digits => do
    let next ← step i state
    carryLoop step i next.2 (next.1 :: digits)

/-- Every round splits its term and the carry it gets into a digit and the carry it hands on. The
invariant may depend on the positions to go. -/
structure Carries (b : ℤ) (step : ℕ → σ → Except ε (ℤ × σ)) (net : σ → ℤ) (term : ℕ → ℤ)
    (inv : ℕ → σ → Prop) (n : ℕ) : Prop where
  round :
    ∀ i < n, ∀ state, inv (i + 1) state →
    ∃ digit next, step i state = .ok (digit, next) ∧ inv i next ∧ 0 ≤ digit ∧ digit < b ∧
    digit + b * net next = term i + net state

variable {step : ℕ → σ → Except ε (ℤ × σ)} {net : σ → ℤ} {term : ℕ → ℤ} {inv : ℕ → σ → Prop} {state : σ}

theorem Carries.run_append (h : Carries b step net term inv n) (hstate : inv n state) (digits : List ℤ)
    (hdigits : Digits b digits) :
    ∃ out final, carryLoop step n state digits = .ok (out, final) ∧ inv 0 final ∧ Digits b out ∧
      out.length = n + digits.length ∧
      value b out + b ^ (n + digits.length) * net final =
        (upTo b term n + net state) * b ^ digits.length + value b digits := by
  induction n generalizing state digits with
  | zero => exact ⟨digits, state, rfl, hstate, hdigits, (zero_add _).symm, by simp [upTo]; ring⟩
  | succ n ih => ?_
  obtain ⟨digit, next, hstep, hnext, hnonneg, hlt, hround⟩ := h.round n (lt_succ_self n) state hstate
  obtain ⟨out, final, hrun, hfinal, hout, hlength, hvalue⟩ :=
    ih ⟨fun i hi => h.round i (lt_succ_of_lt hi)⟩ hnext (digit :: digits) (hdigits.cons ⟨hnonneg, hlt⟩)
  refine ⟨out, final, ?_, hfinal, hout, ?_, ?_⟩
  · rw [carryLoop, hstep]
    exact hrun
  · rw [hlength, length_cons]
    omega
  · rw [length_cons, ← add_assoc, add_right_comm n digits.length 1] at hvalue
    rw [hvalue, value_cons, upTo]
    linear_combination b ^ digits.length * hround

/-- The digits a loop leaves and the carry out of it are worth the terms and the carry into it. -/
theorem Carries.run (h : Carries b step net term inv n) (hstate : inv n state) :
    ∃ out final, carryLoop step n state [] = .ok (out, final) ∧ inv 0 final ∧
      Digits b out ∧ out.length = n ∧ value b out + b ^ n * net final = upTo b term n + net state := by
  obtain ⟨out, final, hrun, hfinal, hout, hlength, hvalue⟩ :=
    h.run_append hstate [] (fun _ hd => absurd hd not_mem_nil)
  exact ⟨out, final, hrun, hfinal, hout, by simpa using hlength, by simpa using hvalue⟩

end Loop

end Positional
