import PgRetrofit.Sanity.QsortPartition

/-! `pg_qsort` always returns, permutes its array whatever the comparison says,
and sorts it when the comparison is a total preorder on the array's values. -/

namespace Pg.Qsort

open Shuffle Nat List

variable {α : Type*} {cmp : α → α → ℤ}

theorem vecswap_succ (m : Mem α) (i j n : ℕ) :
    vecswap m i j (n + 1) = swap (vecswap m i j n) (i + n) (j + n) := by
  simp [vecswap, range_succ]

theorem vecswap_get (m : Mem α) {i j n : ℕ} (hij : i + n ≤ j) (k : ℕ) : vecswap m i j n k =
      if i ≤ k ∧ k < i + n then m (j + (k - i))
      else if j ≤ k ∧ k < j + n then m (i + (k - j)) else m k := by
  induction n generalizing k with
  | zero => rw [if_neg (by omega), if_neg (by omega)]; rfl
  | succ n ih => ?_
  have ih := ih (by omega)
  rw [vecswap_succ, swap_apply]
  by_cases h1 : k = i + n
  · subst h1
    rw [if_pos rfl, ih, if_neg (by omega), if_neg (by omega), if_pos (by omega)]
    congr 1; omega
  by_cases h2 : k = j + n
  · subst h2
    rw [if_neg (by omega), if_pos rfl, ih, if_neg (by omega), if_neg (by omega),
      if_neg (by omega), if_pos (by omega)]
    congr 1; omega
  · rw [if_neg h1, if_neg h2, ih]
    congr 1
    · exact propext (by omega)
    · congr 1; exact propext (by omega)

theorem vecswap_within (m : Mem α) {i j n lo hi : ℕ} (h1 : lo ≤ i) (h2 : i + n ≤ j) (h3 : j + n ≤ hi) :
    Within lo hi m (vecswap m i j n) := by
  induction n with
  | zero => exact Within.refl _ _ _
  | succ n ih =>
    rw [vecswap_succ]
    exact (ih (by omega) (by omega)).trans
      (within_swap _ (by omega) (by omega) (by omega) (by omega))

/-- What partitioning leaves: a permutation of the array in which the pivot `x`
is preceded by what compares below it and followed by what compares above it. -/
structure Split (cmp : α → α → ℤ) (m : Mem α) (a n : ℕ) (p : Part α) (x : α) : Prop where
  shuffled : Within a (a + n) m p.mem
  sizes : (p.pb - p.pa) + (p.pd - p.pc) < n
  low : ∀ i, a ≤ i → i < a + (p.pb - p.pa) → cmp (p.mem i) x < 0
  mid : ∀ i, a + (p.pb - p.pa) ≤ i → i < a + n - (p.pd - p.pc) → p.mem i = x ∨ cmp (p.mem i) x = 0
  high : ∀ i, a + n - (p.pd - p.pc) ≤ i → i < a + n → 0 < cmp (p.mem i) x

variable {a n : ℕ}

theorem partition_split (m : Mem α) (hn : 7 ≤ n) :
    Split cmp m a n (partition cmp m a n) (m (pivotPos cmp m a n)) := by
  have hpiv := pivotPos_within cmp m (a := a) hn
  set m0 := swap m a (pivotPos cmp m a n) with hm0
  set x := m (pivotPos cmp m a n)
  obtain ⟨h, hcross⟩ := partLoop_ok n (partOk_init cmp m0 (n := n) (by omega))
    (by dsimp only; omega)
  have hx : m0 a = x := swap_left _ _ _
  set p := partLoop cmp a n n
    { mem := m0, pa := a + 1, pb := a + 1, pc := a + (n - 1), pd := a + (n - 1) } with hp
  have hpa : p.mem a = x := by rw [h.shuffled.outside (by omega), hx]
  obtain ⟨hle, -⟩ := (partOk_iff _).1 h
  have hlow := h.low; have hlowEq := h.lowEq; have hhigh := h.high; have hhighEq := h.highEq
  rw [hpa] at hlow hlowEq hhigh hhighEq
  have hdef : partition cmp m a n =
      ⟨vecswap (vecswap p.mem a (p.pb - min (p.pa - a) (p.pb - p.pa)) (min (p.pa - a) (p.pb - p.pa)))
        p.pb (a + n - min (p.pd - p.pc) (a + n - p.pd - 1)) (min (p.pd - p.pc) (a + n - p.pd - 1)),
        p.pa, p.pb, p.pc, p.pd⟩ := rfl
  set d1 := min (p.pa - a) (p.pb - p.pa) with hd1
  set d2 := min (p.pd - p.pc) (a + n - p.pd - 1) with hd2
  rw [hdef]
  refine ⟨?_, by dsimp only; omega, ?_, ?_, ?_⟩
  · have s1 : Within a (a + n) m m0 := within_swap _ le_rfl (by omega) hpiv.1 hpiv.2
    have s2 : Within a (a + n) m0 p.mem := h.shuffled.mono (by omega) le_rfl
    have s3 : Within a (a + n) p.mem (vecswap p.mem a (p.pb - d1) d1) :=
      vecswap_within _ le_rfl (by omega) (by omega)
    have s4 : Within a (a + n) (vecswap p.mem a (p.pb - d1) d1)
        (vecswap (vecswap p.mem a (p.pb - d1) d1) p.pb (a + n - d2) d2) :=
      vecswap_within _ (by omega) (by omega) (by omega)
    exact ((s1.trans s2).trans s3).trans s4
  · intro i hi1 hi2
    dsimp only at hi2 ⊢
    rw [vecswap_get _ (by omega), if_neg (by omega), if_neg (by omega), vecswap_get _ (by omega)]
    split_ifs with c1 c2
    · exact hlow _ (by omega) (by omega)
    · omega
    · exact hlow _ (by omega) (by omega)
  · -- the run of equal elements ends at `pb` on the left and starts there on the right
    intro i hi1 hi2
    dsimp only at hi1 hi2 ⊢
    have heq : ∀ i, a ≤ i → i < p.pa → p.mem i = x ∨ cmp (p.mem i) (x) = 0 := by
      intro i h1 h2
      rcases eq_or_lt_of_le h1 with rfl | hlt
      · exact Or.inl hpa
      · exact Or.inr (hlowEq i hlt h2)
    rw [vecswap_get _ (by omega)]
    split_ifs with c1 c2
    · rw [vecswap_get _ (by omega), if_neg (by omega), if_neg (by omega)]
      exact Or.inr (hhighEq _ (by omega) (by omega))
    · omega
    rw [vecswap_get _ (by omega)]
    split_ifs with c3 c4
    · omega
    · exact heq _ (by omega) (by omega)
    · rcases lt_or_ge i p.pb with hb | hb
      · exact heq _ (by omega) (by omega)
      · exact Or.inr (hhighEq _ (by omega) (by omega))
  · intro i hi1 hi2
    dsimp only at hi1 ⊢
    rw [vecswap_get _ (by omega)]
    split_ifs with c1 c2
    · omega
    all_goals
      rw [vecswap_get _ (by omega), if_neg (by omega), if_neg (by omega)]
      exact hhigh _ (by omega) (by omega)

theorem sink_within (a k : ℕ) (m : Mem α) : Within a (a + k + 1) m (sink cmp a k m) := by
  induction k generalizing m with
  | zero => exact Within.refl _ _ _
  | succ k ih =>
    simp only [sink]
    split_ifs
    · exact (within_swap m (by omega) (by omega) (by omega) (by omega)).trans
        ((ih _).mono le_rfl (by omega))
    · exact Within.refl _ _ _

abbrev AllOn (S : α → Prop) (m : Mem α) (a n : ℕ) : Prop := ∀ i, a ≤ i → i < a + n → S (m i)

variable {S : α → Prop} {m : Mem α}

/-- Only the element at offset `k` may be too small for its place. -/
theorem sink_sorted (ho : CmpOrder cmp S) (k : ℕ) (hk : k < n) (hS : AllOn S m a n)
    (hs : ∀ i j, a ≤ i → i < j → j < a + n → j ≠ a + k → cmp (m i) (m j) ≤ 0) :
    SortedOn cmp (sink cmp a k m) a n := by
  induction k generalizing m with
  | zero => exact fun i j h1 h2 h3 => hs i j h1 h2 h3 (by omega)
  | succ k ih => ?_
  simp only [sink]
  split_ifs with hc
  · have hw : Within a (a + n) m (swap m (a + k + 1) (a + k)) :=
      within_swap _ (by omega) (by omega) (by omega) (by omega)
    apply ih (by omega) (hw.forall hS)
    intro i j h1 h2 h3 hj
    rcases eq_or_ne j (a + k + 1) with rfl | hj1
    · rw [swap_left]
      rcases eq_or_ne i (a + k) with rfl | hi
      · rw [swap_right]
        exact le_of_lt ((ho.flip_pos (hS _ (by omega) (by omega)) (hS _ (by omega) (by omega))).1 hc)
      · rw [swap_other _ (by omega) hi]
        exact hs i (a + k) h1 (by omega) (by omega) (by omega)
    · rw [swap_other m hj1 hj, swap_apply]
      split_ifs with c1 c2
      · exact hs (a + k) j (by omega) (by omega) h3 (by omega)
      · exact hs (a + k + 1) j (by omega) (by omega) h3 (by omega)
      · exact hs i j h1 h2 h3 (by omega)
  · intro i j h1 h2 h3
    rcases eq_or_ne j (a + (k + 1)) with rfl | hj
    · rcases eq_or_ne i (a + k) with rfl | hi
      · exact not_lt.1 hc
      · exact ho.trans (hS _ h1 (by omega)) (hS (a + k) (by omega) (by omega)) (hS _ (by omega) h3)
          (hs i (a + k) h1 (by omega) (by omega) (by omega)) (not_lt.1 hc)
    · exact hs i j h1 h2 h3 hj

theorem insertionSort_succ (m : Mem α) (a n : ℕ) :
    insertionSort cmp m a (n + 2) = sink cmp a (n + 1) (insertionSort cmp m a (n + 1)) := by
  simp [insertionSort, range_succ]

theorem insertionSort_within (m : Mem α) (a n : ℕ) : Within a (a + n) m (insertionSort cmp m a n) := by
  induction n with
  | zero => exact Within.refl _ _ _
  | succ n ih =>
    cases n with
    | zero => exact Within.refl _ _ _
    | succ n =>
      rw [insertionSort_succ]
      exact (ih.mono le_rfl (by omega)).trans ((sink_within a (n + 1) _).mono le_rfl (by omega))

theorem insertionSort_sorted (ho : CmpOrder cmp S) (m : Mem α) (a n : ℕ)
    (hS : AllOn S m a n) : SortedOn cmp (insertionSort cmp m a n) a n := by
  induction n with
  | zero => intro i j h1 h2 h3; omega
  | succ n ih => ?_
  cases n with
  | zero => intro i j h1 h2 h3; omega
  | succ n => ?_
  rw [insertionSort_succ]
  have hw : Within a (a + (n + 1)) m (insertionSort cmp m a (n + 1)) := insertionSort_within m a (n + 1)
  refine sink_sorted ho (n + 1) (by omega) ((hw.mono le_rfl (by omega)).forall hS) ?_
  intro i j h1 h2 h3 hj
  exact ih (fun i h1 h2 => hS i h1 (by omega)) i j h1 h2 (by omega)

theorem presorted_iff (m : Mem α) (a n : ℕ) :
    presorted cmp m a n = true ↔ ∀ i, i + 1 < n → cmp (m (a + i)) (m (a + i + 1)) ≤ 0 := by
  simp only [presorted, all_eq_true, mem_range, decide_eq_true_eq]
  exact ⟨fun h i hi => h i (by omega), fun h i hi => h i (by omega)⟩

theorem sorted_of_presorted (ho : CmpOrder cmp S) (hS : AllOn S m a n)
    (h : ∀ i, i + 1 < n → cmp (m (a + i)) (m (a + i + 1)) ≤ 0) : SortedOn cmp m a n := by
  -- induction on the distance between the two positions
  have key : ∀ d i, a + i + d + 1 < a + n → cmp (m (a + i)) (m (a + i + d + 1)) ≤ 0 := by
    intro d
    induction d with
    | zero => exact fun i hi => h i (by omega)
    | succ d ih =>
      intro i hi
      have h1 := ih i (by omega)
      have h2 := h (i + d + 1) (by omega)
      exact ho.trans (hS _ (by omega) (by omega)) (hS (a + i + d + 1) (by omega) (by omega))
        (hS _ (by omega) (by omega)) h1 (by rwa [show a + (i + d + 1) = a + i + d + 1 by omega] at h2)
  intro i j h1 h2 h3
  have := key (j - i - 1) (i - a) (by omega)
  rwa [show a + (i - a) = i by omega, show i + (j - i - 1) + 1 = j by omega] at this

variable (h : ∀ i, i + 1 < n → cmp (m (a + i)) (m (a + i + 1)) ≤ 0)
include h

/-- An array in which no element compares above its right neighbour is returned
as it is, whether or not the comparison is an order. -/
theorem insertionSort_presorted : insertionSort cmp m a n = m := by
  induction n with
  | zero => rfl
  | succ n ih =>
    cases n with
    | zero => rfl
    | succ n =>
      rw [insertionSort_succ, ih fun i hi => h i (by omega), sink, if_neg (not_lt.2 (h n (by omega)))]

theorem pgQsort_presorted : pgQsort cmp m a n = some m := by
  have hloop : ∀ rec, qsortLoop cmp rec (n + 1) m a n = some m := by
    intro rec
    by_cases h7 : n < 7
    · rw [qsortLoop, if_pos h7, insertionSort_presorted h]
    · rw [qsortLoop, if_neg h7, if_pos ((presorted_iff m a n).2 h)]
  unfold pgQsort
  cases Nat.log2 n with
  | zero => exact hloop _
  | succ d => exact hloop _

omit h

/-! `cmp` and `cmp'` agree on the values of the array: a call that reads only the
array cannot tell them apart. -/

section

variable {cmp' : α → α → ℤ} {p : Part α} (hc : ∀ x y, S x → S y → cmp' x y = cmp x y)
  (hS : AllOn S m a n)
include hc hS

theorem scanUp_congr (k : ℕ) (h : PartOk cmp m a n p) : scanUp cmp' a k p = scanUp cmp a k p := by
  induction k generalizing p with
  | zero => rfl
  | succ k ih => ?_
  obtain ⟨hle, -⟩ := (partOk_iff _).1 h
  simp only [scanUp]
  by_cases hb : p.pb ≤ p.pc
  · have hS := (h.shuffled.mono (by omega) le_rfl).forall hS
    rw [hc _ _ (hS p.pb (by omega) (by omega)) (hS a le_rfl (by omega))]
    split_ifs with hr h0
    · exact ih (h.takeLowEq hb h0)
    · exact ih (h.takeLow hb (by omega))
    · rfl
  · rw [if_neg (by omega), if_neg (by omega)]

theorem scanDown_congr (k : ℕ) (h : PartOk cmp m a n p) : scanDown cmp' a k p = scanDown cmp a k p := by
  induction k generalizing p with
  | zero => rfl
  | succ k ih => ?_
  obtain ⟨hle, -⟩ := (partOk_iff _).1 h
  simp only [scanDown]
  by_cases hb : p.pb ≤ p.pc
  · have hS := (h.shuffled.mono (by omega) le_rfl).forall hS
    rw [hc _ _ (hS p.pc (by omega) (by omega)) (hS a le_rfl (by omega))]
    split_ifs with hr h0
    · exact ih (h.takeHighEq hb h0)
    · exact ih (h.takeHigh hb (by omega))
    · rfl
  · rw [if_neg (by omega), if_neg (by omega)]

theorem partLoop_congr (k : ℕ) (h : PartOk cmp m a n p) :
    partLoop cmp' a n k p = partLoop cmp a n k p := by
  induction k generalizing p with
  | zero => rfl
  | succ k ih => ?_
  obtain ⟨hu, -, -, -, he⟩ := h.round rfl
  simp only [partLoop]
  rw [scanUp_congr hc hS n h, scanDown_congr hc hS n hu]
  split_ifs with hx
  · rfl
  · exact ih (he (by omega))

theorem pivotPos_congr : pivotPos cmp' m a n = pivotPos cmp m a n := by
  have hm : ∀ {i j k}, a ≤ i ∧ i < a + n → a ≤ j ∧ j < a + n → a ≤ k ∧ k < a + n →
      med3 cmp' m i j k = med3 cmp m i j k := by
    intro i j k hi hj hk
    have hi := hS i hi.1 hi.2; have hj := hS j hj.1 hj.2; have hk := hS k hk.1 hk.2
    simp only [med3, hc _ _ hi hj, hc _ _ hj hk, hc _ _ hi hk]
  simp only [pivotPos]
  split_ifs with h7 h40
  · refine (hm ?_ ?_ ?_).trans (by congr 1 <;> apply hm <;> omega) <;> apply med3_within <;> omega
  · apply hm <;> omega
  · rfl

theorem partition_congr (hn : 7 ≤ n) : partition cmp' m a n = partition cmp m a n := by
  have hp := pivotPos_within cmp m (a := a) hn
  simp only [partition, pivotPos_congr hc hS]
  rw [partLoop_congr hc ((within_swap m le_rfl (by omega) hp.1 hp.2).forall hS) n
    (partOk_init cmp _ (by omega))]

theorem presorted_congr : presorted cmp' m a n = presorted cmp m a n := by
  rw [Bool.eq_iff_iff, presorted_iff, presorted_iff]
  exact forall₂_congr fun i hi => by
    rw [hc _ _ (hS (a + i) (by omega) (by omega)) (hS (a + i + 1) (by omega) (by omega))]

theorem sink_congr (k : ℕ) (hk : k < n) : sink cmp' a k m = sink cmp a k m := by
  induction k generalizing m with
  | zero => rfl
  | succ k ih =>
    simp only [sink]
    rw [hc _ _ (hS (a + k) (by omega) (by omega)) (hS (a + k + 1) (by omega) (by omega))]
    split_ifs
    · exact ih ((within_swap m (by omega) (by omega) (by omega) (by omega)).forall hS) (by omega)
    · rfl

theorem insertionSort_congr : insertionSort cmp' m a n = insertionSort cmp m a n := by
  induction n with
  | zero => rfl
  | succ n ih =>
    cases n with
    | zero => rfl
    | succ n =>
      rw [insertionSort_succ, insertionSort_succ, ih fun i h1 h2 => hS i h1 (by omega)]
      exact sink_congr hc
        (((insertionSort_within m a (n + 1)).mono le_rfl (by omega)).forall hS) _ (by omega)

end

/-- What a call leaves behind: the window shuffled, and sorted if the comparison
orders its values. -/
def Post (cmp : α → α → ℤ) (m : Mem α) (a n : ℕ) (m' : Mem α) : Prop :=
  Within a (a + n) m m' ∧
    ∀ S : α → Prop, CmpOrder cmp S → AllOn S m a n → SortedOn cmp m' a n

/-- The call returns, and with a comparison that agrees on the values `S` it
returns the same if these are the array's. -/
def Returns (cmp : α → α → ℤ) (S : α → Prop) (m : Mem α) (a n : ℕ) (r r' : Option (Mem α)) : Prop :=
  ∃ m', r = some m' ∧ Post cmp m a n m' ∧ (AllOn S m a n → r' = some m')

theorem returns_ite {r r' : Option (Mem α)} (h : n > 1 → Returns cmp S m a n r r') :
    Returns cmp S m a n (if n > 1 then r else some m) (if n > 1 then r' else some m) := by
  by_cases hn : n > 1
  · rw [if_pos hn, if_pos hn]; exact h hn
  · rw [if_neg hn, if_neg hn]
    exact ⟨m, rfl, ⟨Within.refl _ _ _, fun _ _ _ i j h1 h2 h3 => by omega⟩, fun _ => rfl⟩

/-- `Post` read only inside its window, so that it survives later calls elsewhere. -/
structure Half (cmp : α → α → ℤ) (m : Mem α) (a n : ℕ) (m' : Mem α) : Prop where
  source : ∀ i, a ≤ i → i < a + n → ∃ j, a ≤ j ∧ j < a + n ∧ m' i = m j
  sorted : ∀ S : α → Prop, CmpOrder cmp S → AllOn S m a n → SortedOn cmp m' a n

theorem Post.half {m m' : Mem α} (h : Post cmp m a n m') : Half cmp m a n m' :=
  ⟨fun _ h1 h2 => h.1.inside h1 h2, h.2⟩

theorem Half.congr {m m' k k' : Mem α} (h : Half cmp m a n m')
    (hm : ∀ i, a ≤ i → i < a + n → k i = m i) (hm' : ∀ i, a ≤ i → i < a + n → k' i = m' i) :
    Half cmp k a n k' where
  source i h1 h2 := by
    obtain ⟨j, hj1, hj2, he⟩ := h.source i h1 h2
    exact ⟨j, hj1, hj2, by rw [hm' i h1 h2, he, hm j hj1 hj2]⟩
  sorted S ho hS i j h1 h2 h3 := by
    rw [hm' i h1 (by omega), hm' j (by omega) h3]
    exact h.sorted S ho (fun i h1 h2 => hm i h1 h2 ▸ hS i h1 h2) i j h1 h2 h3

theorem Post.seq {m m1 m2 : Mem α} {a1 n1 a2 n2 : ℕ} (h1 : Post cmp m a1 n1 m1)
    (h2 : Post cmp m1 a2 n2 m2) (hd : a1 + n1 ≤ a2 ∨ a2 + n2 ≤ a1) :
    Half cmp m a1 n1 m2 ∧ Half cmp m a2 n2 m2 := by
  constructor
  · exact h1.half.congr (fun _ _ _ => rfl) (fun i _ _ => h2.1.outside (by omega))
  · exact h2.half.congr (fun i _ _ => (h1.1.outside (by omega)).symm) (fun _ _ _ => rfl)

theorem Split.post {a n k : ℕ} {p : Part α} (h : Split cmp m a n p (m k))
    (hk1 : a ≤ k) (hk2 : k < a + n) {m' : Mem α} (hw : Within a (a + n) p.mem m')
    (hl : Half cmp p.mem a (p.pb - p.pa) m')
    (hr : Half cmp p.mem (a + n - (p.pd - p.pc)) (p.pd - p.pc) m')
    (hm : ∀ i, a + (p.pb - p.pa) ≤ i → i < a + n - (p.pd - p.pc) → m' i = p.mem i) :
    Post cmp m a n m' := by
  refine ⟨h.shuffled.trans hw, fun S ho hS => ?_⟩
  have hsz := h.sizes
  have hx : S (m k) := hS k hk1 hk2
  have hSp : AllOn S p.mem a n := h.shuffled.forall hS
  have hS' : AllOn S m' a n := hw.forall hSp
  have low : ∀ i, a ≤ i → i < a + (p.pb - p.pa) → cmp (m' i) (m k) ≤ 0 := by
    intro i h1 h2
    obtain ⟨j, hj1, hj2, he⟩ := hl.source i h1 h2
    rw [he]; exact le_of_lt (h.low j hj1 hj2)
  have mid : ∀ i, a + (p.pb - p.pa) ≤ i → i < a + n - (p.pd - p.pc) → cmp (m' i) (m k) = 0 := by
    intro i h1 h2
    rw [hm i h1 h2]
    rcases h.mid i h1 h2 with he | he
    · rw [he]; exact ho.self hx
    · exact he
  have high : ∀ i, a + n - (p.pd - p.pc) ≤ i → i < a + n → cmp (m k) (m' i) ≤ 0 := by
    intro i h1 h2
    obtain ⟨j, hj1, hj2, he⟩ := hr.source i h1 (by omega)
    rw [he]
    exact le_of_lt ((ho.flip_pos (hSp j (by omega) (by omega)) hx).1 (h.high j (by omega) (by omega)))
  -- everything left of the high run is at most the pivot, everything right of the low run at least
  have upto : ∀ i, a ≤ i → i < a + n - (p.pd - p.pc) → cmp (m' i) (m k) ≤ 0 := by
    intro i h1 h2
    rcases lt_or_ge i (a + (p.pb - p.pa)) with hlt | hge
    · exact low i h1 hlt
    · exact le_of_eq (mid i hge h2)
  have from' : ∀ i, a + (p.pb - p.pa) ≤ i → i < a + n → cmp (m k) (m' i) ≤ 0 := by
    intro i h1 h2
    rcases lt_or_ge i (a + n - (p.pd - p.pc)) with hlt | hge
    · exact (ho.flip hx (hS' i (by omega) h2)).2 (le_of_eq (mid i h1 hlt).symm)
    · exact high i hge h2
  intro i j h1 h2 h3
  by_cases hjl : j < a + (p.pb - p.pa)
  · exact hl.sorted S ho (fun i h1 h2 => hSp i h1 (by omega)) i j h1 h2 hjl
  by_cases hih : a + n - (p.pd - p.pc) ≤ i
  · exact hr.sorted S ho (fun i h1 h2 => hSp i (by omega) (by omega)) i j hih h2 (by omega)
  · exact ho.trans (hS' i h1 (by omega)) hx (hS' j (by omega) h3) (upto i h1 (by omega))
      (from' j (by omega) h3)

section

variable {cmp' : α → α → ℤ} (hc : ∀ x y, S x → S y → cmp' x y = cmp x y)
include hc

/-- One pass of the loop, given what the nested calls on shorter windows do. -/
theorem qsortLoop_returns (rec rec' : Mem α → ℕ → ℕ → Option (Mem α)) (B : ℕ)
    (hrec : ∀ m a n, 1 < n → n < B → Returns cmp S m a n (rec m a n) (rec' m a n)) :
    ∀ (k : ℕ) (m : Mem α) (a n : ℕ), n < k → n < 2 * B →
      Returns cmp S m a n (qsortLoop cmp rec k m a n) (qsortLoop cmp' rec' k m a n) := by
  intro k
  induction k with
  | zero => omega
  | succ k ih => ?_
  intro m a n hn hB
  by_cases h7 : n < 7
  · rw [qsortLoop, qsortLoop, if_pos h7, if_pos h7]
    exact ⟨_, rfl, ⟨insertionSort_within m a n, fun S ho hS => insertionSort_sorted ho m a n hS⟩,
      fun hS => by rw [insertionSort_congr hc hS]⟩
  have hsame : AllOn S m a n → _ := fun hS =>
    And.intro (presorted_congr hc hS) (partition_congr hc hS (by omega))
  by_cases hps : presorted cmp m a n = true
  · rw [qsortLoop, qsortLoop, if_neg h7, if_neg h7, if_pos hps]
    refine ⟨_, rfl, ?_, fun hS => by rw [(hsame hS).1, if_pos hps]⟩
    rw [presorted_iff] at hps
    exact ⟨Within.refl _ _ _, fun S ho hS => sorted_of_presorted ho hS hps⟩
  rw [qsortLoop, qsortLoop, if_neg h7, if_neg h7, if_neg hps]
  have hsp : Split cmp m a n (partition cmp m a n) _ := partition_split m (by omega)
  have hpv := pivotPos_within cmp m (a := a) (n := n) (by omega)
  have hsz := hsp.sizes
  generalize partition cmp m a n = p at hsame hsp hsz ⊢
  by_cases hle : p.pb - p.pa ≤ p.pd - p.pc
  · rw [if_pos hle]
    obtain ⟨m1, e1, p1, l1⟩ := returns_ite fun h1 => hrec p.mem a (p.pb - p.pa) h1 (by omega)
    obtain ⟨m2, e2, p2, l2⟩ := returns_ite
      fun _ => ih m1 (a + n - (p.pd - p.pc)) (p.pd - p.pc) (by omega) (by omega)
    obtain ⟨hl, hr⟩ := p1.seq p2 (by omega)
    refine ⟨m2, by rw [e1]; exact e2, hsp.post hpv.1 hpv.2 ?_ hl hr fun i h1 h2 => ?_, fun hS => ?_⟩
    · exact (p1.1.mono le_rfl (by omega)).trans (p2.1.mono (by omega) (by omega))
    · rw [p2.1.outside (by omega), p1.1.outside (by omega)]
    · have hS1 := hsp.shuffled.forall hS
      rw [(hsame hS).1, if_neg hps, (hsame hS).2, if_pos hle, l1 fun i h1 h2 => hS1 i h1 (by omega)]
      exact l2 fun i h1 h2 => (p1.1.mono le_rfl (by omega)).forall hS1 i (by omega) (by omega)
  rw [if_neg hle]
  obtain ⟨m1, e1, p1, l1⟩ := returns_ite
    fun h1 => hrec p.mem (a + n - (p.pd - p.pc)) (p.pd - p.pc) h1 (by omega)
  obtain ⟨m2, e2, p2, l2⟩ := returns_ite fun _ => ih m1 a (p.pb - p.pa) (by omega) (by omega)
  obtain ⟨hr, hl⟩ := p1.seq p2 (by omega)
  refine ⟨m2, by rw [e1]; exact e2, hsp.post hpv.1 hpv.2 ?_ hl hr fun i h1 h2 => ?_, fun hS => ?_⟩
  · exact (p1.1.mono (by omega) (by omega)).trans (p2.1.mono le_rfl (by omega))
  · rw [p2.1.outside (by omega), p1.1.outside (by omega)]
  · have hS1 := hsp.shuffled.forall hS
    rw [(hsame hS).1, if_neg hps, (hsame hS).2, if_neg hle,
      l1 fun i h1 h2 => hS1 i (by omega) (by omega)]
    exact l2 fun i h1 h2 => (p1.1.mono (by omega) (by omega)).forall hS1 i h1 (by omega)

theorem qsortNested_returns (d : ℕ) (m : Mem α) (a n : ℕ) (hn : n < 2 ^ (d + 1)) :
    Returns cmp S m a n (qsortNested cmp d m a n) (qsortNested cmp' d m a n) := by
  induction d generalizing m a n with
  | zero =>
    exact qsortLoop_returns hc _ _ 1 (fun m a n h1 h2 => by omega) (n + 1) m a n (by omega) (by omega)
  | succ d ih =>
    refine qsortLoop_returns hc _ _ (2 ^ (d + 1)) (fun m a n _ hn => ih m a n hn)
      (n + 1) m a n (by omega) ?_
    omega

end

/-- `pg_qsort` returns, with at most `log2 n` nested calls. -/
theorem pgQsort_post (m : Mem α) (a n : ℕ) : ∃ m', pgQsort cmp m a n = some m' ∧ Post cmp m a n m' := by
  obtain ⟨m', hrun, hpost, -⟩ :=
    qsortNested_returns (S := fun _ => True) (fun _ _ _ _ => rfl) _ m a n lt_log2_self
  exact ⟨m', hrun, hpost⟩

/-- The answers about values that are not the array's do not matter. -/
theorem pgQsort_congr {cmp' : α → α → ℤ}
    (hc : ∀ i j, a ≤ i → i < a + n → a ≤ j → j < a + n → cmp' (m i) (m j) = cmp (m i) (m j)) :
    pgQsort cmp' m a n = pgQsort cmp m a n := by
  obtain ⟨m', hrun, -, hlocal⟩ : Returns cmp (fun x => ∃ i, a ≤ i ∧ i < a + n ∧ m i = x) m a n
      (pgQsort cmp m a n) (pgQsort cmp' m a n) := by
    refine qsortNested_returns ?_ _ m a n lt_log2_self
    rintro _ _ ⟨i, h1, h2, rfl⟩ ⟨j, h3, h4, rfl⟩
    exact hc i j h1 h2 h3 h4
  rw [hlocal fun i h1 h2 => ⟨i, h1, h2, rfl⟩, hrun]

/-- Whatever the comparison says, `pg_qsort` returns with at most `log2 n` calls
nested in one another, permutes the array, and neither writes nor reads outside
it: the answers about values that are not the array's do not matter. -/
theorem pgQsort_safe (cmp : α → α → ℤ) (m : Mem α) (a n : ℕ) :
    ∃ m', qsortNested cmp (Nat.log2 n) m a n = some m' ∧ pgQsort cmp m a n = some m' ∧
      (∀ i, i < a ∨ a + n ≤ i → m' i = m i) ∧ (window m' a n).Perm (window m a n) ∧
      (∀ cmp', (∀ i j, a ≤ i → i < a + n → a ≤ j → j < a + n → cmp' (m i) (m j) = cmp (m i) (m j)) →
        pgQsort cmp' m a n = some m') ∧
      ∀ S, CmpOrder cmp S → (∀ i, a ≤ i → i < a + n → S (m i)) → SortedOn cmp m' a n := by
  obtain ⟨m', hrun, hw, hsorted⟩ : ∃ m', pgQsort cmp m a n = some m' ∧ Post cmp m a n m' :=
    pgQsort_post m a n
  exact ⟨m', hrun, hrun, fun i hi => hw.outside hi, hw.perm,
    fun cmp' hc => (pgQsort_congr hc).trans hrun, hsorted⟩

theorem pgQsort_list (hcmp : CmpOrder cmp fun _ => True) (l : List α) (d : α) :
    ∃ m, pgQsort cmp ⟨fun i => l.getD i d⟩ 0 l.length = some m ∧ (window m 0 l.length).Perm l ∧
      (window m 0 l.length).Pairwise fun x y => cmp x y ≤ 0 := by
  obtain ⟨m, hrun, hwithin, hsorted⟩ := pgQsort_post ⟨fun i => l.getD i d⟩ 0 l.length
  have hperm := hwithin.perm
  rw [window_getD] at hperm
  exact ⟨m, hrun, hperm, (hsorted _ hcmp fun _ _ _ => trivial).pairwise⟩

end Pg.Qsort
