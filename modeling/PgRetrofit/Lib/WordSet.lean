import Mathlib.Tactic

/-! Sets of numbers as arrays of machine words, one bit for each number, and the loop that
shifts a word to find its bits. -/

/-- `n` words of `w` bits -/
def Words (w n : ℕ) : Type := Fin n → BitVec w

namespace Words

open List BitVec

variable {w n i j k m p q : ℕ} {s : Words w n}

instance : DecidableEq (Words w n) := inferInstanceAs (DecidableEq (Fin n → BitVec w))

def zero : Words w n := fun _ => 0

/-- A word that does not exist has no bits. -/
def word (s : Words w n) (k : ℕ) : BitVec w := if h : k < n then s ⟨k, h⟩ else 0

def modify (s : Words w n) (k : ℕ) (f : BitVec w → BitVec w) : Words w n :=
  fun j => if j.val = k then f (s j) else s j

def has (s : Words w n) (i : ℕ) : Bool := (s.word (i / w)).getLsbD (i % w)

/-- `words[WORDNUM(i)] |= 1 << BITNUM(i)` -/
def add (s : Words w n) (i : ℕ) : Words w n := s.modify (i / w) (· ||| 1#w <<< (i % w))

/-- `(words[WORDNUM(i)] & (1 << BITNUM(i))) != 0` -/
def test (s : Words w n) (i : ℕ) : Bool := s.word (i / w) &&& 1#w <<< (i % w) ≠ 0

/-- `while (x != 0) { if (x & 1) ...; p++; x >>= 1; }`: the values of `p` with a bit, in at most
`k` rounds -/
def bitsFrom : ℕ → BitVec w → ℕ → List ℕ
  | 0, _, _ => []
  | k + 1, x, p =>
    if x = 0 then []
    else if x &&& 1#w ≠ 0 then p :: bitsFrom k (x >>> 1) (p + 1)
    else bitsFrom k (x >>> 1) (p + 1)

def members (s : Words w n) (m : ℕ) : List ℕ :=
  (List.range m).flatMap fun k => bitsFrom w (s.word k) (k * w)

/-- A loop over the first `m` words that changes each. -/
def mapWords (s : Words w n) (m : ℕ) (f : ℕ → BitVec w → BitVec w) : Words w n :=
  (List.range m).foldl (fun s k => s.modify k (f k)) s

def allZero (s : Words w n) (m : ℕ) : Bool := (List.range m).all fun k => s.word k = 0

/-- Clear the bits that are not to be kept: `x &= ~(1 << bit)` for each. -/
def keepBits (keep : ℕ → Bool) (x : BitVec w) : BitVec w :=
  (bitsFrom w x 0).foldl (fun y bit => if keep bit then y else y &&& ~~~(1#w <<< bit)) x

theorem word_zero (k : ℕ) : (zero : Words w n).word k = 0 := by
  rw [word]
  split_ifs <;> rfl

theorem word_modify (hk : k < n) (f : BitVec w → BitVec w) :
    (s.modify k f).word j = if j = k then f (s.word k) else s.word j := by
  unfold word modify
  by_cases hjk : j = k
  · subst hjk
    rw [dif_pos hk, if_pos rfl, if_pos rfl, dif_pos hk]
  · by_cases hj : j < n
    · rw [dif_pos hj, if_neg hjk, if_neg hjk, dif_pos hj]
    · rw [dif_neg hj, if_neg hjk, dif_neg hj]

theorem has_zero (i : ℕ) : (zero : Words w n).has i = false := by
  rw [has, word_zero]
  exact getLsbD_zero

theorem has_eq_false (h : n * w ≤ i) : s.has i = false := by
  rw [has]
  rcases Nat.eq_zero_or_pos w with rfl | hw
  · exact getLsbD_of_ge _ _ (Nat.zero_le _)
  · rw [word, dif_neg (Nat.not_lt.2 ((Nat.le_div_iff_mul_le hw).2 h))]
    exact getLsbD_zero

theorem getLsbD_bit (hi : i < w) : (1#w <<< i).getLsbD j = decide (j = i) := by
  have htwo : 1#w <<< i = BitVec.twoPow w i := (twoPow_eq w i).symm
  rw [htwo, getLsbD_twoPow]
  simp only [hi, decide_true, Bool.true_and, eq_comm]

theorem has_add (hi : i < n * w) : (s.add i).has j = (s.has j || decide (j = i)) := by
  have hw : 0 < w := Nat.pos_of_ne_zero fun h0 => by simp [h0] at hi
  have hk : i / w < n := Nat.div_lt_of_lt_mul (by rwa [Nat.mul_comm] at hi)
  rw [has, add, word_modify hk]
  by_cases hword : j / w = i / w
  · have hsame : j % w = i % w ↔ j = i := by
      refine ⟨fun h => ?_, fun h => h ▸ rfl⟩
      rw [← Nat.div_add_mod j w, ← Nat.div_add_mod i w, hword, h]
    rw [if_pos hword, getLsbD_or, getLsbD_bit (Nat.mod_lt _ hw), has, hword]
    simp only [hsame]
  · have hne : j ≠ i := fun h => hword (h ▸ rfl)
    rw [if_neg hword, has, decide_eq_false hne, Bool.or_false]

variable {x : BitVec w}

theorem and_bit_ne_zero (hi : i < w) : x &&& 1#w <<< i ≠ 0 ↔ x.getLsbD i = true := by
  constructor
  · intro hne
    by_contra hbit
    apply hne
    refine eq_of_getLsbD_eq fun j hj => ?_
    rw [getLsbD_and, getLsbD_bit hi]
    by_cases hji : j = i
    · subst hji
      simp [Bool.eq_false_iff.2 hbit]
    · simp [hji]
  · intro hbit hzero
    have hget := congrArg (fun y => y.getLsbD i) hzero
    simp only [getLsbD_and, getLsbD_bit hi, hbit] at hget
    simp at hget

variable (hw : 0 < w)
include hw

theorem test_eq_has (i : ℕ) : s.test i = s.has i := by
  have hbit := and_bit_ne_zero (x := s.word (i / w)) (Nat.mod_lt i hw)
  rw [test, Bool.eq_iff_iff, decide_eq_true_iff]
  exact hbit

theorem low_bit : x &&& 1#w ≠ 0 ↔ x.getLsbD 0 = true := by
  have hbit := and_bit_ne_zero (x := x) hw
  rwa [shiftLeft_zero] at hbit

theorem mem_bitsFrom : q ∈ bitsFrom k x p ↔ p ≤ q ∧ q < p + k ∧ x.getLsbD (q - p) = true := by
  induction k generalizing x p with
  | zero =>
    refine ⟨fun h => absurd h not_mem_nil, fun ⟨h1, h2, _⟩ => ?_⟩
    omega
  | succ k ih => ?_
  -- the other bits are those of the shifted word
  have hshift : ∀ {r}, p < r → (x >>> 1).getLsbD (r - (p + 1)) = x.getLsbD (r - p) := by
    intro r hr
    rw [getLsbD_ushiftRight, show 1 + (r - (p + 1)) = r - p by omega]
  rw [bitsFrom]
  split_ifs with hzero hodd
  · refine ⟨fun h => absurd h not_mem_nil, fun ⟨_, _, hbit⟩ => ?_⟩
    rw [hzero, show (0 : BitVec w) = 0#w from rfl, getLsbD_zero] at hbit
    cases hbit
  · rw [mem_cons, ih]
    constructor
    · rintro (rfl | ⟨h1, h2, hbit⟩)
      · exact ⟨Nat.le_refl _, by omega, by rw [Nat.sub_self]; exact (low_bit hw).1 hodd⟩
      · exact ⟨by omega, by omega, hshift h1 ▸ hbit⟩
    rintro ⟨h1, h2, hbit⟩
    rcases Nat.eq_or_lt_of_le h1 with rfl | hlt
    · exact .inl rfl
    · exact .inr ⟨hlt, by omega, (hshift hlt).symm ▸ hbit⟩
  rw [ih]
  constructor
  · rintro ⟨h1, h2, hbit⟩
    exact ⟨by omega, by omega, hshift h1 ▸ hbit⟩
  rintro ⟨h1, h2, hbit⟩
  rcases Nat.eq_or_lt_of_le h1 with rfl | hlt
  · rw [Nat.sub_self] at hbit
    exact absurd ((low_bit hw).2 hbit) hodd
  · exact ⟨hlt, by omega, (hshift hlt).symm ▸ hbit⟩

theorem bitsFrom_sorted (k : ℕ) (x : BitVec w) (p : ℕ) : (bitsFrom k x p).Pairwise (· < ·) := by
  induction k generalizing x p with
  | zero => exact List.Pairwise.nil
  | succ k ih =>
    rw [bitsFrom]
    split_ifs with hzero hodd
    · exact List.Pairwise.nil
    · exact pairwise_cons.2 ⟨fun q hq => ((mem_bitsFrom hw).1 hq).1, ih _ _⟩
    · exact ih _ _

theorem mem_members : i ∈ s.members m ↔ i < m * w ∧ s.has i = true := by
  rw [members, mem_flatMap]
  constructor
  · rintro ⟨k, hk, hi⟩
    obtain ⟨h1, h2, hbit⟩ := (mem_bitsFrom hw).1 hi
    have hdiv : i / w = k := Nat.div_eq_of_lt_le h1 (by rwa [Nat.add_mul, Nat.one_mul])
    have hmod : i - k * w = i % w := by
      have := Nat.div_add_mod i w
      rw [hdiv, Nat.mul_comm] at this
      omega
    refine ⟨?_, by rw [has, hdiv, ← hmod]; exact hbit⟩
    have := Nat.mul_le_mul_right w (Nat.succ_le_of_lt (mem_range.1 hk))
    rw [Nat.succ_mul] at this
    omega
  · rintro ⟨hlt, hbit⟩
    have hdm := Nat.div_add_mod i w
    have hmod := Nat.mod_lt i hw
    rw [Nat.mul_comm] at hdm
    refine ⟨i / w, mem_range.2 (Nat.div_lt_of_lt_mul (by rwa [Nat.mul_comm] at hlt)),
      (mem_bitsFrom hw).2 ⟨by omega, by omega, ?_⟩⟩
    rw [show i - i / w * w = i % w by omega]
    exact hbit

theorem members_sorted (m : ℕ) : (s.members m).Pairwise (· < ·) := by
  rw [members, pairwise_flatMap]
  refine ⟨fun k _ => bitsFrom_sorted hw _ _ _, ?_⟩
  refine pairwise_lt_range.imp fun {k l} hkl i hi j hj => ?_
  obtain ⟨-, hi, -⟩ := (mem_bitsFrom hw).1 hi
  obtain ⟨hj, -, -⟩ := (mem_bitsFrom hw).1 hj
  have := Nat.mul_le_mul_right w (Nat.succ_le_of_lt hkl)
  rw [Nat.succ_mul] at this
  omega

omit hw

theorem word_mapWords (hm : m ≤ n) (f : ℕ → BitVec w → BitVec w) :
    (s.mapWords m f).word k = if k < m then f k (s.word k) else s.word k := by
  rw [mapWords]
  induction m with
  | zero => rfl
  | succ m ih => ?_
  have ih := ih (Nat.le_of_succ_le hm)
  rw [range_succ, foldl_append, foldl_cons, foldl_nil, word_modify hm]
  by_cases hk : k = m
  · subst hk
    rw [if_pos rfl, if_pos (Nat.lt_succ_self k), ih, if_neg (Nat.lt_irrefl k)]
  rw [if_neg hk, ih]
  by_cases hlt : k < m
  · rw [if_pos hlt, if_pos (Nat.lt_succ_of_lt hlt)]
  · rw [if_neg hlt, if_neg (by omega)]

theorem has_mapWords (hw : 0 < w) (hm : m ≤ n) (f : ℕ → BitVec w → BitVec w) :
    (s.mapWords m f).has i = if i < m * w then (f (i / w) (s.word (i / w))).getLsbD (i % w)
      else s.has i := by
  rw [has, word_mapWords hm]
  have hdiv : i / w < m ↔ i < m * w := Nat.div_lt_iff_lt_mul hw
  by_cases hi : i < m * w
  · rw [if_pos hi, if_pos (hdiv.2 hi)]
  · rw [if_neg hi, if_neg (mt hdiv.1 hi), has]

theorem allZero_iff (hw : 0 < w) : s.allZero m = true ↔ ∀ i < m * w, s.has i = false := by
  rw [allZero, all_eq_true]
  constructor
  · intro hall i hi
    have hzero := hall (i / w) (mem_range.2 ((Nat.div_lt_iff_lt_mul hw).2 hi))
    rw [has, of_decide_eq_true hzero]
    exact getLsbD_zero
  intro hall k hk
  refine decide_eq_true (eq_of_getLsbD_eq fun j hj => ?_)
  have hle := Nat.mul_le_mul_right w (Nat.succ_le_of_lt (mem_range.1 hk))
  rw [Nat.succ_mul] at hle
  have hbit := hall (k * w + j) (by omega)
  rw [has, Nat.mul_comm, Nat.mul_add_div hw, Nat.div_eq_of_lt hj, Nat.add_zero, Nat.mul_add_mod,
    Nat.mod_eq_of_lt hj] at hbit
  rw [hbit]
  exact getLsbD_zero.symm

theorem getLsbD_clear (hi : i < w) (hj : j < w) :
    (x &&& ~~~(1#w <<< i)).getLsbD j = (x.getLsbD j && decide (j ≠ i)) := by
  rw [getLsbD_and, getLsbD_not, getLsbD_bit hi, decide_eq_true hj, Bool.true_and, decide_not]

theorem getLsbD_keepBits (hw : 0 < w) {keep : ℕ → Bool} (hj : j < w) :
    (keepBits keep x).getLsbD j = (x.getLsbD j && keep j) := by
  -- what is left of a word after some of its bits
  have hfold : ∀ (bits : List ℕ) (y : BitVec w), (∀ b ∈ bits, b < w) →
      (bits.foldl (fun y bit => if keep bit then y else y &&& ~~~(1#w <<< bit)) y).getLsbD j =
        (y.getLsbD j && (keep j || decide (j ∉ bits))) := by
    intro bits
    induction bits with
    | nil => simp
    | cons b bits ih => ?_
    intro y hb
    rw [foldl_cons, ih _ fun b' hb' => hb b' (mem_cons_of_mem _ hb')]
    by_cases hkeep : keep b = true
    · rw [if_pos hkeep]
      by_cases hjb : j = b
      · simp [hjb, hkeep]
      · simp [hjb]
    · rw [if_neg hkeep, getLsbD_clear (hb b mem_cons_self) hj]
      by_cases hjb : j = b
      · simp [hjb, hkeep]
      · simp [hjb]
  rw [keepBits, hfold _ _ fun b hb => by have := ((mem_bitsFrom hw).1 hb).2.1; omega]
  cases hbit : x.getLsbD j with
  | false => rfl
  | true =>
    have hmem : j ∈ bitsFrom w x 0 := (mem_bitsFrom hw).2 ⟨Nat.zero_le _, by omega, hbit⟩
    simp [hmem]

end Words
